import Motif.Proofs.Structure

/-!
Ways to cut the items of a sequence into one piece for each element. A cut is
given by the lengths of the slices that the repetitions get, in order; every
other element gets one item, and nothing may be left over. Among the cuts that
pass a test, the first one is the one that the repetitions prefer: the earlier
repetition decides, and only between cuts that give it the same length does the
next one have a say.
-/

namespace Motif

namespace Sequence

/-- The elements with their pieces, if the lengths cut the items up exactly. -/
def pieces (form : Form) :
    List (Pattern Value) → List Nat → List Value → Option (List (Pattern Value × Value))
  | [], [], [] => some []
  | [], _, _ => none
  | p :: rest, lengths, items =>
    match p.repetition?, lengths, items with
    | none, lengths, item :: later => (pieces form rest lengths later).map ((p, item) :: ·)
    | none, _, [] => none
    | some _, length :: lengths, items =>
      if length ≤ items.length then
        (pieces form rest lengths (items.drop length)).map
          ((p, .seq form (items.take length)) :: ·)
      else none
    | some _, [], _ => none

/-- Lengths are valid when they cut the items up exactly and every element accepts its piece. -/
def Valid (accepts : Pattern Value → Value → Prop) (form : Form)
    (elements : List (Pattern Value)) (items : List Value) (lengths : List Nat) : Prop :=
  ∃ parts, pieces form elements lengths items = some parts ∧
    ∀ part ∈ parts, accepts part.1 part.2

/-- What the repetitions among the elements prefer, in order. -/
def modes (elements : List (Pattern Value)) : List Mode :=
  elements.filterMap fun p => p.repetition?.map (·.mode)

end Sequence

/-- Greedy repetitions prefer the larger of two lengths, lazy ones the smaller. -/
def Mode.Prefers : Mode → Nat → Nat → Prop
  | .greedy, a, b => b < a
  | .lazy, a, b => a < b

/-- The first difference between two vectors of lengths decides which one comes first. -/
def Precedes : List Mode → List Nat → List Nat → Prop
  | mode :: modes, a :: as, b :: bs => mode.Prefers a b ∨ a = b ∧ Precedes modes as bs
  | _, _, _ => False

/-- The valid lengths that come before all other valid ones. -/
structure First (modes : List Mode) (valid : List Nat → Prop) (lengths : List Nat) : Prop where
  holds : valid lengths
  precedes : ∀ other, valid other → other ≠ lengths → Precedes modes lengths other

theorem Mode.Prefers.asymm {mode : Mode} {a b : Nat} (h : mode.Prefers a b) :
    ¬ mode.Prefers b a := by
  cases mode <;> simp only [Mode.Prefers] at h ⊢ <;> omega

theorem Mode.Prefers.irrefl {mode : Mode} {a : Nat} : ¬ mode.Prefers a a :=
  fun h => h.asymm h

theorem Precedes.asymm {modes : List Mode} {as bs : List Nat} (h : Precedes modes as bs) :
    ¬ Precedes modes bs as := by
  induction modes generalizing as bs with
  | nil => exact h.elim
  | cons mode modes ih =>
    rcases as with _ | ⟨a, as⟩
    · exact h.elim
    rcases bs with _ | ⟨b, bs⟩
    · exact h.elim
    rintro (hba | ⟨rfl, hrest⟩)
    · rcases h with hab | ⟨rfl, _⟩
      · exact hab.asymm hba
      · exact hba.asymm hba
    · rcases h with hbb | ⟨_, hrest'⟩
      · exact hbb.asymm hbb
      · exact ih hrest' hrest

namespace First

variable {modes : List Mode} {valid other : List Nat → Prop} {as bs : List Nat}

/-- There is only one first vector. -/
theorem unique (ha : First modes valid as) (hb : First modes valid bs) : as = bs := by
  by_cases hsame : as = bs
  · exact hsame
  · have hab : Precedes modes as bs := ha.precedes bs hb.holds (Ne.symm hsame)
    have hba : Precedes modes bs as := hb.precedes as ha.holds hsame
    exact absurd hba hab.asymm

theorem congr (h : First modes valid as) (hiff : ∀ lengths, valid lengths ↔ other lengths) :
    First modes other as where
  holds := (hiff as).mp h.holds
  precedes bs hbs hne := h.precedes bs ((hiff bs).mpr hbs) hne

/-- The first repetition gets the length that it prefers over those of all valid vectors. -/
theorem head (h : First modes valid as) (hb : valid bs) :
    ∀ mode ∈ modes.head?, ∀ a ∈ as.head?, ∀ b ∈ bs.head?, b = a ∨ mode.Prefers a b := by
  intro mode hmode a ha b hbhead
  obtain ⟨modes', rfl⟩ := List.head?_eq_some_iff.mp hmode
  obtain ⟨as', rfl⟩ := List.head?_eq_some_iff.mp ha
  obtain ⟨bs', rfl⟩ := List.head?_eq_some_iff.mp hbhead
  by_cases hsame : b :: bs' = a :: as'
  · exact Or.inl (List.cons.inj hsame).1
  · rcases h.precedes _ hb hsame with hprefers | ⟨rfl, _⟩
    · exact Or.inr hprefers
    · exact Or.inl rfl

end First

namespace Sequence

variable {accepts : Pattern Value → Value → Prop} {form : Form} {p : Pattern Value}
  {ps rest : List (Pattern Value)} {repetition : Repetition} {items : List Value}
  {lengths : List Nat}

theorem modes_fixed (hfixed : ∀ p ∈ ps, p.repetition? = none) :
    modes (ps ++ rest) = modes rest := by
  have hnone : ps.filterMap (fun p => p.repetition?.map (·.mode)) = [] :=
    List.filterMap_eq_nil_iff.mpr fun p hp => by rw [hfixed p hp]; rfl
  rw [modes, List.filterMap_append, hnone]
  rfl

theorem modes_repeated (hrepeats : p.repetition? = some repetition) :
    modes (p :: rest) = repetition.mode :: modes rest := by
  simp only [modes, List.filterMap_cons, hrepeats, Option.map_some]

theorem pieces_nil {parts : List (Pattern Value × Value)}
    (hparts : pieces form [] lengths items = some parts) :
    lengths = [] ∧ items = [] ∧ parts = [] := by
  rcases lengths with _ | ⟨length, lengths⟩
  · rcases items with _ | ⟨item, items⟩
    · exact ⟨rfl, rfl, (Option.some.inj hparts).symm⟩
    · cases hparts
  · cases hparts

/-- The first element takes the next item, or, if it repeats, as many items as the next length
says. -/
theorem pieces_cons {parts : List (Pattern Value × Value)}
    (hparts : pieces form (p :: rest) lengths items = some parts) :
    ∃ piece later lengths' items', parts = (p, piece) :: later ∧
      pieces form rest lengths' items' = some later ∧
      (p.repetition? = none ∧ lengths = lengths' ∧ items = piece :: items' ∨
        ∃ repetition taken, p.repetition? = some repetition ∧
          lengths = taken.length :: lengths' ∧ piece = .seq form taken ∧
          items = taken ++ items') := by
  cases hrepeats : p.repetition? with
  | none =>
    cases items with
    | nil => simp [pieces, hrepeats] at hparts
    | cons item left =>
      simp only [pieces, hrepeats] at hparts
      obtain ⟨later, hlater, rfl⟩ := Option.map_eq_some_iff.mp hparts
      exact ⟨item, later, lengths, left, rfl, hlater, Or.inl ⟨rfl, rfl, rfl⟩⟩
  | some repetition =>
    cases lengths with
    | nil => simp [pieces, hrepeats] at hparts
    | cons length left =>
      simp only [pieces, hrepeats] at hparts
      split at hparts
      · next hfits =>
        obtain ⟨later, hlater, rfl⟩ := Option.map_eq_some_iff.mp hparts
        have htaken : (items.take length).length = length := by
          rw [List.length_take, Nat.min_eq_left hfits]
        exact ⟨_, later, left, _, rfl, hlater, Or.inr ⟨repetition, items.take length, rfl,
          by rw [htaken], rfl, (List.take_append_drop length items).symm⟩⟩
      · cases hparts

/-- Each element of the sequence gets one piece of a cut, in their order. -/
theorem map_fst_of_pieces {elements : List (Pattern Value)}
    {parts : List (Pattern Value × Value)}
    (hparts : pieces form elements lengths items = some parts) : parts.map (·.1) = elements := by
  induction elements generalizing lengths items parts with
  | nil =>
    obtain ⟨-, -, rfl⟩ := pieces_nil hparts
    rfl
  | cons p rest ih =>
    obtain ⟨piece, later, lengths', items', rfl, hlater, -⟩ := pieces_cons hparts
    rw [List.map_cons, ih hlater]

/-- The pieces of a cut go to the elements of the sequence. -/
theorem mem_of_mem_pieces {elements : List (Pattern Value)}
    {parts : List (Pattern Value × Value)}
    (hparts : pieces form elements lengths items = some parts)
    {part : Pattern Value × Value} (hpart : part ∈ parts) : part.1 ∈ elements := by
  rw [← map_fst_of_pieces hparts]
  exact List.mem_map_of_mem hpart

theorem Valid.congr {accepts' : Pattern Value → Value → Prop} {elements : List (Pattern Value)}
    (hsame : ∀ p ∈ elements, ∀ v, accepts p v ↔ accepts' p v) :
    Valid accepts form elements items lengths ↔ Valid accepts' form elements items lengths := by
  constructor
  · rintro ⟨parts, hparts, h⟩
    exact ⟨parts, hparts, fun part hpart =>
      (hsame _ (mem_of_mem_pieces hparts hpart) _).mp (h part hpart)⟩
  · rintro ⟨parts, hparts, h⟩
    exact ⟨parts, hparts, fun part hpart =>
      (hsame _ (mem_of_mem_pieces hparts hpart) _).mpr (h part hpart)⟩

/-- Elements that do not repeat get the next items, one each. -/
theorem pieces_fixed (form : Form) (rest : List (Pattern Value)) (lengths : List Nat)
    (hfixed : ∀ p ∈ ps, p.repetition? = none) (items : List Value) :
    pieces form (ps ++ rest) lengths items =
      if ps.length ≤ items.length then
        (pieces form rest lengths (items.drop ps.length)).map (ps.zip items ++ ·)
      else none := by
  induction ps generalizing items with
  | nil => simp
  | cons p ps ih =>
    obtain ⟨hp, hps⟩ := List.forall_mem_cons.mp hfixed
    cases items with
    | nil => simp only [List.cons_append, pieces, hp]; rfl
    | cons item later =>
      simp only [List.cons_append, pieces, hp, ih hps later, List.length_cons,
        Nat.add_le_add_iff_right, List.drop_succ_cons]
      split
      · rw [Option.map_map]
        rfl
      · rfl

theorem pieces_repeated (form : Form) (rest : List (Pattern Value))
    (hrepeats : p.repetition? = some repetition) (length : Nat) (lengths : List Nat)
    (items : List Value) :
    pieces form (p :: rest) (length :: lengths) items =
      if length ≤ items.length then
        (pieces form rest lengths (items.drop length)).map
          ((p, .seq form (items.take length)) :: ·)
      else none := by
  simp only [pieces, hrepeats]

@[simp] theorem valid_nil : Valid accepts form [] items lengths ↔ lengths = [] ∧ items = [] := by
  constructor
  · rintro ⟨parts, hparts, -⟩
    obtain ⟨hlengths, hitems, -⟩ := pieces_nil hparts
    exact ⟨hlengths, hitems⟩
  · rintro ⟨rfl, rfl⟩
    exact ⟨[], rfl, by simp⟩

theorem valid_fixed (hfixed : ∀ p ∈ ps, p.repetition? = none) :
    Valid accepts form (ps ++ rest) items lengths ↔
      ps.length ≤ items.length ∧ (∀ part ∈ ps.zip items, accepts part.1 part.2) ∧
        Valid accepts form rest (items.drop ps.length) lengths := by
  unfold Valid
  rw [pieces_fixed form rest lengths hfixed items]
  constructor
  · rintro ⟨parts, hparts, haccepts⟩
    split at hparts
    · next hwide =>
      obtain ⟨later, hlater, rfl⟩ := Option.map_eq_some_iff.mp hparts
      refine ⟨hwide, fun part hpart => ?_, later, hlater, fun part hpart => ?_⟩
      · exact haccepts part (List.mem_append_left later hpart)
      · exact haccepts part (List.mem_append_right _ hpart)
    · cases hparts
  · rintro ⟨hwide, hfirst, later, hlater, hrest⟩
    refine ⟨ps.zip items ++ later, by simp [hwide, hlater], fun part hpart => ?_⟩
    rcases List.mem_append.mp hpart with hpart | hpart
    · exact hfirst part hpart
    · exact hrest part hpart

theorem valid_repeated (hrepeats : p.repetition? = some repetition) :
    Valid accepts form (p :: rest) items lengths ↔
      ∃ length later, lengths = length :: later ∧ length ≤ items.length ∧
        accepts p (.seq form (items.take length)) ∧
          Valid accepts form rest (items.drop length) later := by
  constructor
  · rintro ⟨parts, hparts, haccepts⟩
    rcases lengths with _ | ⟨length, lengths⟩
    · simp only [pieces, hrepeats] at hparts
      cases hparts
    rw [pieces_repeated form rest hrepeats] at hparts
    split at hparts
    · next hfits =>
      obtain ⟨later, hlater, rfl⟩ := Option.map_eq_some_iff.mp hparts
      obtain ⟨hfirst, hrest⟩ := List.forall_mem_cons.mp haccepts
      exact ⟨length, lengths, rfl, hfits, hfirst, later, hlater, hrest⟩
    · cases hparts
  · rintro ⟨length, later, rfl, hfits, hfirst, parts, hparts, hrest⟩
    refine ⟨(p, .seq form (items.take length)) :: parts, ?_,
      List.forall_mem_cons.mpr ⟨hfirst, hrest⟩⟩
    rw [pieces_repeated form rest hrepeats, if_pos hfits, hparts]
    rfl

end Sequence

end Motif
