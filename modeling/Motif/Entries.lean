/-!
Entries kept in the order in which their keys first came. Captures, mappings
and trace details are all read back in that order, so storing under a key that
is already there changes the value and nothing else: the key keeps its place
and its own form.
-/

namespace Motif

/-- Keys and values in insertion order. -/
abbrev Entries (α β : Type) := List (α × β)

namespace Entries

variable {α β γ : Type}

def find? [BEq α] (key : α) : Entries α β → Option β
  | [] => none
  | (k, v) :: rest => if k == key then some v else find? key rest

/-- Store a value. A key that is new goes to the end. -/
def put [BEq α] (key : α) (value : β) : Entries α β → Entries α β
  | [] => [(key, value)]
  | (k, v) :: rest => if k == key then (k, value) :: rest else (k, v) :: put key value rest

/-- Store every pair of `later`, first to last. -/
def overlay [BEq α] (entries later : Entries α β) : Entries α β :=
  later.foldl (fun acc entry => put entry.1 entry.2 acc) entries

/-- Entries from pairs in which keys may repeat: the first place, the last value. -/
def ofPairs [BEq α] (pairs : List (α × β)) : Entries α β :=
  overlay [] pairs

def mapValues (f : β → γ) (entries : Entries α β) : Entries α γ :=
  entries.map fun entry => (entry.1, f entry.2)

/-- Put an entry in front of the first one with a greater key. -/
def place (entry : String × β) : Entries String β → Entries String β
  | [] => [entry]
  | other :: rest =>
    if entry.1 < other.1 then entry :: other :: rest else other :: place entry rest

/-- Entries in ascending order of their keys, equal keys in their given order. -/
def sorted (entries : Entries String β) : Entries String β :=
  entries.foldl (fun acc entry => place entry acc) []

@[simp] theorem find?_nil [BEq α] (key : α) : find? key ([] : Entries α β) = none := rfl

@[simp] theorem overlay_nil [BEq α] (entries : Entries α β) : overlay entries [] = entries := rfl

@[simp] theorem overlay_cons [BEq α] (entries : Entries α β) (entry : α × β)
    (later : Entries α β) :
    overlay entries (entry :: later) = overlay (put entry.1 entry.2 entries) later := rfl

/-- What was stored is what is found. -/
theorem find?_put [BEq α] [LawfulBEq α] (key other : α) (value : β) (entries : Entries α β) :
    find? other (put key value entries) =
      if key == other then some value else find? other entries := by
  induction entries with
  | nil => simp [put, find?]
  | cons entry rest ih =>
    obtain ⟨k, v⟩ := entry
    by_cases hk : k = key
    · subst hk
      by_cases ho : k = other <;> simp [put, find?, ho]
    · by_cases ho : k = other
      · subst ho
        have hne : ¬key = k := fun h => hk h.symm
        simp [put, find?, hk, hne]
      · simp [put, find?, hk, ho, ih]

end Entries

end Motif
