import Motif.Json.Reader
import Motif.Json.Writer
import Motif.Proofs.Captures
import Motif.Proofs.RoundTrip

/-!
The values that data texts spell: scalars, lists of such values, and records of them in which no
label repeats. Whatever is read from a text is one of them, and each of them can be written, in
every layout. What stands for halves of characters makes no difference to a text that has none.
-/

namespace Motif

namespace Value

/-- What a data text can spell, with or without floating-point numbers. -/
inductive Spelled (floats : Bool) : Value → Prop
  | null : Spelled floats .null
  | bool (b : Bool) : Spelled floats (.bool b)
  | int (n : Int) : Spelled floats (.int n)
  | float (x : Binary64) (h : floats = true) : Spelled floats (.float x)
  | str (s : String) : Spelled floats (.str s)
  | list (items : List Value) (h : ∀ v ∈ items, Spelled floats v) :
    Spelled floats (.seq .list items)
  | record (entries : Entries String Value) (hkeys : entries.keys.Nodup)
    (h : ∀ entry ∈ entries, Spelled floats entry.2) : Spelled floats (.record entries)

mutual

/-- Whether there is a floating-point number in a value, its keys aside. -/
def hasFloat : Value → Bool
  | .float _ => true
  | .seq _ items => anyFloat items
  | .dict entries => anyEntryFloat entries
  | .null | .bool _ | .int _ | .str _ | .bytes _ | .object _ | .pattern _ | .marker _ => false
termination_by structural v => v

def anyFloat : List Value → Bool
  | [] => false
  | v :: rest => hasFloat v || anyFloat rest
termination_by structural vs => vs

def anyEntryFloat : List (Value × Value) → Bool
  | [] => false
  | (_, v) :: rest => hasFloat v || anyEntryFloat rest
termination_by structural entries => entries

end

variable {floats : Bool} {v : Value}

theorem Spelled.items {items : List Value} (h : Spelled floats (.seq .list items)) :
    ∀ v ∈ items, Spelled floats v := by
  cases h with
  | list _ h => exact h

theorem anyFloat_eq_false {vs : List Value} :
    anyFloat vs = false ↔ ∀ v ∈ vs, hasFloat v = false := by
  induction vs with
  | nil => simp [anyFloat]
  | cons v rest ih => rw [anyFloat, Bool.or_eq_false_iff, ih, List.forall_mem_cons]

theorem hasFloat_record {entries : Entries String Value} :
    hasFloat (.record entries) = false ↔ ∀ entry ∈ entries, hasFloat entry.2 = false := by
  induction entries with
  | nil => simp [record, hasFloat, anyEntryFloat]
  | cons entry rest ih =>
    rw [List.forall_mem_cons, ← ih]
    exact Bool.or_eq_false_iff

theorem anyTuple_eq_false {vs : List Value} :
    anyTuple vs = false ↔ ∀ v ∈ vs, hasTuple v = false := by
  induction vs with
  | nil => simp [anyTuple]
  | cons v rest ih => rw [anyTuple, Bool.or_eq_false_iff, ih, List.forall_mem_cons]

theorem hasTuple_record {entries : Entries String Value} :
    hasTuple (.record entries) = false ↔ ∀ entry ∈ entries, hasTuple entry.2 = false := by
  induction entries with
  | nil => simp [record, hasTuple, anyEntryTuple]
  | cons entry rest ih =>
    rw [List.forall_mem_cons, ← ih]
    exact Bool.or_eq_false_iff

/-- A value without floating-point numbers is spelled without them. -/
theorem Spelled.floatless (h : v.Spelled floats) (hfloat : v.hasFloat = false) :
    v.Spelled false := by
  induction h with
  | null => exact .null
  | bool b => exact .bool b
  | int n => exact .int n
  | float x => cases hfloat
  | str s => exact .str s
  | list items _ ih =>
    exact .list items fun v hv => ih v hv (anyFloat_eq_false.mp hfloat v hv)
  | record entries hkeys _ ih =>
    refine .record entries hkeys fun entry hentry => ih entry hentry ?_
    exact hasFloat_record.mp hfloat entry hentry

theorem Spelled.hasTuple (h : v.Spelled floats) : v.hasTuple = false := by
  induction h with
  | null | bool | int | float | str => rfl
  | list items _ ih => exact anyTuple_eq_false.mpr ih
  | record entries _ _ ih => exact hasTuple_record.mpr ih

/-- There is no tuple in what is spelled, so it is plain data as it is. -/
theorem Spelled.asData (h : v.Spelled floats) : v.asData = v :=
  asData_of_hasTuple v h.hasTuple

end Value

/-! ### What is read -/

namespace Entries

theorem forall_overlay {α β : Type} [BEq α] [LawfulBEq α] {holds : β → Prop}
    {entries later : Entries α β} (hentries : ∀ entry ∈ entries, holds entry.2)
    (hlater : ∀ entry ∈ later, holds entry.2) :
    ∀ entry ∈ overlay entries later, holds entry.2 := by
  induction later generalizing entries with
  | nil => exact hentries
  | cons first rest ih =>
    obtain ⟨hfirst, hrest⟩ := List.forall_mem_cons.mp hlater
    refine ih (fun entry hentry => ?_) hrest
    rcases mem_of_mem_put hentry with rfl | hold
    · exact hfirst
    · exact hentries entry hold

/-- Texts are equal keys just when they are equal texts. -/
theorem put_str (key : String) (value : Value) (entries : Entries String Value) :
    put (.str key) value (entries.map fun entry => (Value.str entry.1, entry.2)) =
      (put key value entries).map fun entry => (Value.str entry.1, entry.2) := by
  induction entries with
  | nil => rfl
  | cons entry rest ih =>
    have hkey : (Value.str entry.1 == Value.str key) = (entry.1 == key) := rfl
    rw [List.map_cons, put, put, hkey, ih]
    split <;> rfl

theorem ofPairs_str (pairs : Entries String Value) :
    ofPairs (pairs.map fun entry => (Value.str entry.1, entry.2)) =
      (ofPairs pairs).map fun entry => (Value.str entry.1, entry.2) := by
  suffices hoverlay : ∀ entries : Entries String Value,
      overlay (entries.map fun entry => (Value.str entry.1, entry.2))
        (pairs.map fun entry => (Value.str entry.1, entry.2)) =
      (overlay entries pairs).map fun entry => (Value.str entry.1, entry.2) from hoverlay []
  induction pairs with
  | nil => exact fun entries => rfl
  | cons pair rest ih =>
    intro entries
    rw [List.map_cons, overlay_cons, overlay_cons, put_str, ih]

end Entries

namespace Json

/-- Entries of an object as they are read: their keys are texts. -/
def SpelledEntries (entries : List (Value × Value)) : Prop :=
  ∃ pairs : Entries String Value, entries = pairs.map (fun entry => (Value.str entry.1, entry.2)) ∧
    ∀ entry ∈ pairs, entry.2.Spelled true

theorem spelled_ofPairs {entries : List (Value × Value)} (h : SpelledEntries entries) :
    (Value.dict (Entries.ofPairs entries)).Spelled true := by
  obtain ⟨pairs, rfl, hvalues⟩ := h
  rw [Entries.ofPairs_str]
  refine .record _ (Entries.nodup_keys_overlay (by simp [Entries.keys]) pairs) ?_
  exact Entries.forall_overlay (by simp) hvalues

theorem spelled_readWord {text rest : List Char} {v : Value} (h : readWord text = some (v, rest)) :
    v.Spelled true := by
  obtain ⟨word, hword, hrest⟩ := List.exists_of_findSome?_eq_some h
  obtain ⟨_, _, hpair⟩ := Option.map_eq_some_iff.mp hrest
  obtain rfl : word.2 = v := congrArg Prod.fst hpair
  simp only [wordValues, List.mem_cons, List.not_mem_nil, or_false] at hword
  obtain rfl | rfl | rfl | rfl | rfl | rfl := hword
  · exact .null
  · exact .bool true
  · exact .bool false
  · exact .float _ rfl
  · exact .float _ rfl
  · exact .float _ rfl

theorem spelled_readNumber {text rest : List Char} {v : Value}
    (h : readNumber text = some (v, rest)) : v.Spelled true := by
  unfold readNumber at h
  dsimp only at h
  generalize readWhole _ = whole at h
  cases whole with
  | none => cases h
  | some parts =>
    dsimp only at h
    split at h
    · cases h
      exact .int _
    · cases h
      exact .float _ rfl

/-- With some fuel, whatever is read is spelled. -/
structure SpelledReading (fuel : Nat) : Prop where
  value : ∀ {text v rest}, readValue none fuel text = some (v, rest) → v.Spelled true
  items : ∀ {text items rest}, readItems none fuel text = some (items, rest) →
    ∀ v ∈ items, v.Spelled true
  entries : ∀ {text entries rest}, readEntries none fuel text = some (entries, rest) →
    SpelledEntries entries

namespace SpelledReading

variable {fuel : Nat} {text rest : List Char}

theorem readValue (ih : SpelledReading fuel) {v : Value}
    (h : Json.readValue none (fuel + 1) text = some (v, rest)) : v.Spelled true := by
  cases text with
  | nil => cases h
  | cons c text =>
    rw [Json.readValue] at h
    split at h
    · obtain ⟨⟨s, _⟩, -, h⟩ := Option.bind_eq_some_iff.mp h
      cases h
      exact .str s
    · split at h
      · split at h
        · cases h
          exact .list [] (by simp)
        · obtain ⟨⟨items, _⟩, hread, h⟩ := Option.bind_eq_some_iff.mp h
          cases h
          exact .list items (ih.items hread)
      · split at h
        · split at h
          · cases h
          · split at h
            · cases h
              exact .record [] .nil (by simp)
            · obtain ⟨⟨entries, _⟩, hread, h⟩ := Option.bind_eq_some_iff.mp h
              cases h
              exact spelled_ofPairs (ih.entries hread)
        · rcases Option.or_eq_some_iff.mp h with hword | ⟨-, hnumber⟩
          · exact spelled_readWord hword
          · exact spelled_readNumber hnumber

theorem readItems (ih : SpelledReading fuel) {items : List Value}
    (h : Json.readItems none (fuel + 1) text = some (items, rest)) :
    ∀ v ∈ items, v.Spelled true := by
  rw [Json.readItems] at h
  obtain ⟨⟨item, _⟩, hitem, h⟩ := Option.bind_eq_some_iff.mp h
  dsimp only at h
  split at h
  · obtain ⟨⟨later, _⟩, hlater, h⟩ := Option.bind_eq_some_iff.mp h
    cases h
    exact List.forall_mem_cons.mpr ⟨ih.value hitem, ih.items hlater⟩
  · cases h
    exact List.forall_mem_singleton.mpr (ih.value hitem)
  · cases h

theorem readEntries (ih : SpelledReading fuel) {entries : List (Value × Value)}
    (h : Json.readEntries none (fuel + 1) text = some (entries, rest)) :
    SpelledEntries entries := by
  rw [Json.readEntries] at h
  obtain ⟨⟨key, _⟩, -, h⟩ := Option.bind_eq_some_iff.mp h
  obtain ⟨_, -, h⟩ := Option.bind_eq_some_iff.mp h
  obtain ⟨⟨value, _⟩, hvalue, h⟩ := Option.bind_eq_some_iff.mp h
  have hspelled := ih.value hvalue
  dsimp only at h
  split at h
  · cases h
  · split at h
    · obtain ⟨⟨later, _⟩, hlater, h⟩ := Option.bind_eq_some_iff.mp h
      cases h
      obtain ⟨pairs, rfl, hpairs⟩ := ih.entries hlater
      exact ⟨(key, value) :: pairs, rfl, List.forall_mem_cons.mpr ⟨hspelled, hpairs⟩⟩
    · split at h
      · cases h
        exact ⟨[(key, value)], rfl, List.forall_mem_singleton.mpr hspelled⟩
      · cases h

end SpelledReading

theorem spelledReading (fuel : Nat) : SpelledReading fuel := by
  induction fuel with
  | zero => constructor <;> intro _ _ _ h <;> cases h
  | succ fuel ih => exact ⟨ih.readValue, ih.readItems, ih.readEntries⟩

/-- Whatever a text is read as, it is a value that texts spell. -/
theorem spelled_of_read {text : String} {v : Value} (h : read text = some v) :
    v.Spelled true := by
  obtain ⟨⟨value, rest⟩, hread, h⟩ := Option.bind_eq_some_iff.mp h
  dsimp only at h
  split at h
  · cases h
    exact (spelledReading _).value hread
  · cases h

/-! ### Halves of characters -/

section

variable {half : Option Char} {fuel : Nat} {text rest : List Char}

theorem readEscape_of_whole {c : Char} (h : readEscape none text = some (c, rest)) :
    readEscape half text = some (c, rest) := by
  cases text with
  | nil => cases h
  | cons mark text =>
    unfold readEscape at h ⊢
    by_cases hunit : mark = 'u'
    · subst hunit
      simp only [Char.reduceEq, or_self, if_false, if_true] at h ⊢
      obtain ⟨⟨unit, after⟩, hread, h⟩ := Option.bind_eq_some_iff.mp h
      refine Option.bind_eq_some_iff.mpr ⟨(unit, after), hread, ?_⟩
      dsimp only at h ⊢
      split at h
      · next hhigh =>
        rw [if_pos hhigh]
        split at h
        · exact h
        · cases h
      · next hhigh =>
        rw [if_neg hhigh]
        split at h
        · cases h
        · next hlow =>
          rw [if_neg hlow]
          exact h
    · simp only [hunit, if_false] at h ⊢
      exact h

theorem readCharacters_of_whole {characters : List Char}
    (h : readCharacters none fuel text = some (characters, rest)) :
    readCharacters half fuel text = some (characters, rest) := by
  induction fuel generalizing text characters with
  | zero => cases h
  | succ fuel ih =>
    cases text with
    | nil => cases h
    | cons c text =>
      unfold readCharacters at h ⊢
      split at h
      · next hend => rw [if_pos hend]; exact h
      · next hend =>
        rw [if_neg hend]
        split at h
        · next hescape =>
          rw [if_pos hescape]
          obtain ⟨⟨decoded, after⟩, hdecoded, h⟩ := Option.bind_eq_some_iff.mp h
          obtain ⟨⟨more, last⟩, hmore, h⟩ := Option.bind_eq_some_iff.mp h
          cases h
          simp only [readEscape_of_whole hdecoded, Option.bind_eq_bind, Option.bind_some, ih hmore]
          rfl
        · next hescape =>
          rw [if_neg hescape]
          split at h
          · cases h
          · next hcontrol =>
            rw [if_neg hcontrol]
            obtain ⟨⟨more, last⟩, hmore, h⟩ := Option.bind_eq_some_iff.mp h
            cases h
            simp only [Option.bind_eq_bind, Option.bind_some, ih hmore]
            rfl

theorem readString_of_whole {string : String} (h : readString none text = some (string, rest)) :
    readString half text = some (string, rest) := by
  unfold readString at h ⊢
  split at h
  · obtain ⟨⟨characters, after⟩, hread, h⟩ := Option.bind_eq_some_iff.mp h
    cases h
    simp only [readCharacters_of_whole hread, Option.bind_eq_bind, Option.bind_some]
    rfl
  · cases h

/-- With some fuel, whatever is read without a stand-in for half characters is read with any. -/
structure WholeReading (half : Option Char) (fuel : Nat) : Prop where
  value : ∀ {text v rest}, readValue none fuel text = some (v, rest) →
    readValue half fuel text = some (v, rest)
  items : ∀ {text items rest}, readItems none fuel text = some (items, rest) →
    readItems half fuel text = some (items, rest)
  entries : ∀ {text entries rest}, readEntries none fuel text = some (entries, rest) →
    readEntries half fuel text = some (entries, rest)

namespace WholeReading

theorem readValue (ih : WholeReading half fuel) {v : Value}
    (h : Json.readValue none (fuel + 1) text = some (v, rest)) :
    Json.readValue half (fuel + 1) text = some (v, rest) := by
  cases text with
  | nil => cases h
  | cons c text =>
    rw [Json.readValue] at h ⊢
    split at h
    · next hstring =>
      obtain ⟨⟨s, after⟩, hread, h⟩ := Option.bind_eq_some_iff.mp h
      rw [if_pos hstring, readString_of_whole hread]
      exact h
    · next hstring =>
      rw [if_neg hstring]
      split at h
      · next harray =>
        rw [if_pos harray]
        split at h
        · exact h
        · obtain ⟨⟨items, after⟩, hread, h⟩ := Option.bind_eq_some_iff.mp h
          simp only [ih.items hread]
          exact h
      · next harray =>
        rw [if_neg harray]
        split at h
        · next hobject =>
          rw [if_pos hobject]
          split at h
          · cases h
          · split at h
            · next hclosing =>
              simp only [if_pos hclosing]
              exact h
            · next hclosing =>
              obtain ⟨⟨entries, after⟩, hread, h⟩ := Option.bind_eq_some_iff.mp h
              simp only [if_neg hclosing, ih.entries hread]
              exact h
        · next hobject =>
          rw [if_neg hobject]
          exact h

theorem readItems (ih : WholeReading half fuel) {items : List Value}
    (h : Json.readItems none (fuel + 1) text = some (items, rest)) :
    Json.readItems half (fuel + 1) text = some (items, rest) := by
  rw [Json.readItems] at h ⊢
  obtain ⟨⟨item, after⟩, hitem, h⟩ := Option.bind_eq_some_iff.mp h
  rw [ih.value hitem]
  dsimp only [Option.bind_eq_bind, Option.bind_some] at h ⊢
  split at h
  · obtain ⟨⟨later, last⟩, hlater, h⟩ := Option.bind_eq_some_iff.mp h
    rw [ih.items hlater]
    exact h
  · exact h
  · cases h

theorem readEntries (ih : WholeReading half fuel) {entries : List (Value × Value)}
    (h : Json.readEntries none (fuel + 1) text = some (entries, rest)) :
    Json.readEntries half (fuel + 1) text = some (entries, rest) := by
  rw [Json.readEntries] at h ⊢
  obtain ⟨⟨key, afterKey⟩, hkey, h⟩ := Option.bind_eq_some_iff.mp h
  obtain ⟨afterColon, hcolon, h⟩ := Option.bind_eq_some_iff.mp h
  obtain ⟨⟨value, afterValue⟩, hvalue, h⟩ := Option.bind_eq_some_iff.mp h
  simp only [readString_of_whole hkey, hcolon, ih.value hvalue, Option.bind_eq_bind,
    Option.bind_some]
  dsimp only at h
  split at h
  · cases h
  · split at h
    · next hcomma =>
      obtain ⟨⟨later, last⟩, hlater, h⟩ := Option.bind_eq_some_iff.mp h
      rw [if_pos hcomma, ih.entries hlater]
      exact h
    · next hcomma =>
      rw [if_neg hcomma]
      exact h

end WholeReading

theorem wholeReading (half : Option Char) (fuel : Nat) : WholeReading half fuel := by
  induction fuel with
  | zero => constructor <;> intro _ _ _ h <;> cases h
  | succ fuel ih => exact ⟨ih.readValue, ih.readItems, ih.readEntries⟩

/-- A text that has a value has the same value whatever halves of characters are read as. -/
theorem readWith_of_read {text : String} {v : Value} (h : read text = some v)
    (half : Option Char) : readWith half text = some v := by
  obtain ⟨⟨value, rest⟩, hread, h⟩ := Option.bind_eq_some_iff.mp h
  simp only [readWith, (wholeReading half _).value hread, Option.bind_eq_bind, Option.bind_some]
  exact h

/-- In a text that spells no half of a character, to be JSON is to have a value. -/
theorem isText_eq_isSome_read {text : String} (hwhole : spellsHalf text = false) :
    isText text = (read text).isSome := by
  cases hread : read text with
  | none =>
    rw [spellsHalf, hread, Option.isNone_none, Bool.and_true] at hwhole
    exact hwhole
  | some v =>
    rw [isText, readWith_of_read hread]

-- With half a character the two are not the same.
example : isText "\"\\ud800\"" = true ∧ (read "\"\\ud800\"").isSome = false := by
  decide +kernel

end

/-! ### What can be written -/

section

variable {layout : Layout} {floats : Bool}

theorem exists_writeItems {items : List Value}
    (h : ∀ v ∈ items, ∀ level, ∃ text, writeAt layout level v = .ok text) (level : Nat) :
    ∃ texts, writeItems layout level items = .ok texts := by
  induction items with
  | nil => exact ⟨[], rfl⟩
  | cons v rest ih =>
    obtain ⟨hv, hrest⟩ := List.forall_mem_cons.mp h
    obtain ⟨text, htext⟩ := hv level
    obtain ⟨texts, htexts⟩ := ih hrest
    refine ⟨text :: texts, ?_⟩
    rw [writeItems, htext, htexts]
    rfl

theorem exists_writeEntries {entries : Entries String Value}
    (h : ∀ entry ∈ entries, ∀ level, ∃ text, writeAt layout level entry.2 = .ok text)
    (level : Nat) : ∃ texts, writeEntries layout level
      (entries.map fun entry => (Value.str entry.1, entry.2)) = .ok texts := by
  induction entries with
  | nil => exact ⟨[], rfl⟩
  | cons entry rest ih =>
    obtain ⟨hentry, hrest⟩ := List.forall_mem_cons.mp h
    obtain ⟨text, htext⟩ := hentry level
    obtain ⟨texts, htexts⟩ := ih hrest
    refine ⟨(writeString entry.1 ++ layout.colon ++ text) :: texts, ?_⟩
    rw [List.map_cons, writeEntries, htext, htexts]
    rfl

/-- What is spelled can be written at every level. -/
theorem exists_writeAt {v : Value} (h : v.Spelled floats) (level : Nat) :
    ∃ text, writeAt layout level v = .ok text := by
  induction h generalizing level with
  | null => exact ⟨_, rfl⟩
  | bool b => cases b <;> exact ⟨_, rfl⟩
  | int n => exact ⟨_, rfl⟩
  | float x => exact ⟨_, rfl⟩
  | str s => exact ⟨_, rfl⟩
  | list items _ ih =>
    obtain ⟨texts, htexts⟩ := exists_writeItems ih (level + 1)
    refine ⟨layout.enclose level '[' ']' texts, ?_⟩
    rw [writeAt, htexts]
    rfl
  | record entries _ _ ih =>
    obtain ⟨texts, htexts⟩ := exists_writeEntries ih (level + 1)
    refine ⟨layout.enclose level (Char.ofNat 123) (Char.ofNat 125) texts, ?_⟩
    rw [Value.record, writeAt, htexts]
    rfl

theorem exists_write {v : Value} (h : v.Spelled floats) :
    ∃ text, write layout v = .ok text := by
  obtain ⟨text, htext⟩ := exists_writeAt h 0
  refine ⟨String.ofList text, ?_⟩
  rw [write, htext]
  rfl

end

end Json

end Motif
