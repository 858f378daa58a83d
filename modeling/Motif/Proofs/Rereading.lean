import Mathlib.Data.List.Forall2
import Motif.Proofs.Spelling
import Motif.Proofs.Tokens

/-!
Reading what was written. The text that is written for a value, in whatever layout, is read as that
value, as long as no floating-point number is in it.
-/

namespace Motif.Json

open Layout (following)

/-! ### Scalars -/

/-- A text that is read as a value, whatever follows that does not continue a number. It starts
with neither a blank nor a closing bracket. -/
structure ReadsBack (text : List Char) (v : Value) : Prop where
  head : ∃ c rest, text = c :: rest ∧ isBlank c = false ∧ c ≠ ']'
  read : ∀ (fuel : Nat) {rest : List Char}, text.length ≤ fuel → Stops rest →
    readValue none fuel (text ++ rest) = some (v, rest)

theorem readValue_scalar {c : Char} (hc : c ≠ '"' ∧ c ≠ '[' ∧ c ≠ Char.ofNat 123) (fuel : Nat)
    (text : List Char) :
    readValue none (fuel + 1) (c :: text) = (readWord (c :: text)).or (readNumber (c :: text)) := by
  rw [readValue, if_neg hc.1, if_neg hc.2.1, if_neg hc.2.2]

namespace ReadsBack

theorem of_cons {c : Char} {text : List Char} {v : Value}
    (hhead : isBlank c = false ∧ c ≠ ']')
    (h : ∀ fuel rest, text.length ≤ fuel → Stops rest →
      readValue none (fuel + 1) (c :: text ++ rest) = some (v, rest)) :
    ReadsBack (c :: text) v where
  head := ⟨c, text, rfl, hhead⟩
  read := by
    intro fuel rest hfuel hstops
    obtain ⟨fuel, rfl⟩ := Nat.exists_eq_add_one.mpr (Nat.zero_lt_of_lt hfuel)
    exact h fuel rest (Nat.le_of_succ_le_succ hfuel) hstops

theorem null : ReadsBack "null".toList .null :=
  .of_cons (by decide) fun _ _ _ _ => readValue_scalar (by decide) _ _

theorem bool (b : Bool) : ReadsBack (toString b).toList (.bool b) := by
  cases b with
  | false => exact .of_cons (by decide) fun _ _ _ _ => readValue_scalar (by decide) _ _
  | true => exact .of_cons (by decide) fun _ _ _ _ => readValue_scalar (by decide) _ _

theorem str (s : String) : ReadsBack (writeString s) (.str s) := by
  have htext : writeString s = '"' :: (s.toList.flatMap escapeChar ++ ['"']) := rfl
  have hread (rest : List Char) := readString_writeString none s rest
  rw [htext] at hread ⊢
  refine .of_cons (by decide) fun fuel rest _ _ => ?_
  rw [List.cons_append, readValue, if_pos rfl, ← List.cons_append, hread]
  rfl

theorem int (n : Int) : ReadsBack (toString n).toList (.int n) := by
  cases n with
  | ofNat n =>
    obtain ⟨c, ds, hds, hc⟩ := exists_digits n
    rw [toList_toString_ofNat, hds]
    refine .of_cons ⟨?_, ne_of_isDigit hc (by decide)⟩ fun fuel rest _ hstops => ?_
    · exact isBlank_of_isDigit hc
    · have hnumber := readNumber_digits n hstops
      rw [hds] at hnumber
      rw [List.cons_append] at hnumber ⊢
      rw [readValue_scalar _ fuel, readWord_of_isDigit hc, Option.none_or, hnumber]
      · rfl
      · exact ⟨ne_of_isDigit hc (by decide), ne_of_isDigit hc (by decide),
          ne_of_isDigit hc (by decide)⟩
  | negSucc n =>
    obtain ⟨c, ds, hds, hc⟩ := exists_digits (n + 1)
    rw [toList_toString_negSucc]
    refine .of_cons (by decide) fun fuel rest _ hstops => ?_
    have hnumber := readNumber_negative (n + 1) hstops
    rw [hds] at hnumber ⊢
    simp only [List.cons_append] at hnumber ⊢
    rw [readValue_scalar (by decide), readWord_negative hc, Option.none_or, hnumber]
    rfl

end ReadsBack

/-! ### Containers -/

theorem stops_cons {c : Char} (h : isDigit c = false ∧ c ≠ '.' ∧ c ≠ 'e' ∧ c ≠ 'E')
    (rest : List Char) : Stops (c :: rest) := by
  intro d hd
  cases hd
  exact h

theorem stops_append {blanks rest : List Char} (hblanks : ∀ c ∈ blanks, isBlank c = true)
    (h : Stops rest) : Stops (blanks ++ rest) := by
  cases blanks with
  | nil => exact h
  | cons c blanks =>
    have hc := hblanks c List.mem_cons_self
    simp only [isBlank, Bool.or_eq_true, beq_iff_eq] at hc
    refine stops_cons ?_ _
    rcases hc with ((rfl | rfl) | rfl) | rfl <;> decide

/-- No blank is skipped before what is read back. -/
theorem ReadsBack.starts {text : List Char} {v : Value} (h : ReadsBack text v)
    (rest : List Char) : skipBlanks (text ++ rest) = text ++ rest := by
  obtain ⟨c, text, rfl, hc, -⟩ := h.head
  exact skipBlanks_cons hc (text ++ rest)

section

variable {gap trail : List Char}

theorem following_cons (gap part : List Char) (parts : List (List Char)) (rest : List Char) :
    following gap (part :: parts) ++ rest =
      ',' :: (gap ++ (part ++ (following gap parts ++ rest))) := by
  simp [following]

theorem length_following_cons (gap part : List Char) (parts : List (List Char)) :
    (following gap (part :: parts)).length =
      gap.length + part.length + (following gap parts).length + 1 := by
  simp [following, Nat.add_assoc]

theorem stops_following (gap : List Char) (htrail : ∀ c ∈ trail, isBlank c = true)
    {closing : Char} (hclosing : closing = ']' ∨ closing = Char.ofNat 125)
    (parts : List (List Char)) (rest : List Char) :
    Stops (following gap parts ++ (trail ++ closing :: rest)) := by
  cases parts with
  | nil =>
    show Stops (trail ++ closing :: rest)
    refine stops_append htrail (stops_cons ?_ rest)
    rcases hclosing with rfl | rfl <;> decide
  | cons part parts => exact stops_cons (by decide) _

theorem readItems_following (hgap : ∀ c ∈ gap, isBlank c = true)
    (htrail : ∀ c ∈ trail, isBlank c = true) {text : List Char} {v : Value}
    (hfirst : ReadsBack text v) {texts : List (List Char)} {items : List Value}
    (hrest : List.Forall₂ ReadsBack texts items) {fuel : Nat}
    (hfuel : text.length + (following gap texts).length < fuel) (rest : List Char) :
    readItems none fuel (text ++ (following gap texts ++ (trail ++ ']' :: rest))) =
      some (v :: items, rest) := by
  induction hrest generalizing text v fuel with
  | nil =>
    obtain ⟨fuel, rfl⟩ := Nat.exists_eq_add_one.mpr (Nat.zero_lt_of_lt hfuel)
    have hread := hfirst.read fuel (by omega) (stops_following gap htrail (Or.inl rfl) [] rest)
    have hclosing : skipBlanks (following gap [] ++ (trail ++ ']' :: rest)) = ']' :: rest :=
      (skipBlanks_append htrail _).trans (skipBlanks_cons (by decide) rest)
    rw [readItems, hread]
    simp only [Option.bind_eq_bind, Option.bind_some, hclosing]
    rfl
  | @cons next w texts items hnext hothers ih =>
    -- One turn is one unit of fuel, and the comma is one character.
    obtain ⟨fuel, rfl⟩ := Nat.exists_eq_add_one.mpr (Nat.zero_lt_of_lt hfuel)
    rw [length_following_cons] at hfuel
    have hread := hfirst.read fuel (by omega)
      (stops_following gap htrail (Or.inl rfl) (next :: texts) rest)
    have hlater := ih hnext (show next.length + (following gap texts).length < fuel by omega)
    rw [readItems, hread]
    simp only [Option.bind_eq_bind, Option.bind_some, following_cons]
    rw [skipBlanks_cons (by decide)]
    simp only [skipBlanks_append hgap, hnext.starts, hlater]
    rfl

/-- An entry of an object: its key, the colon and the text of its value. -/
def Labelled (layout : Layout) (part : List Char) (entry : String × Value) : Prop :=
  ∃ text, part = writeString entry.1 ++ layout.colon ++ text ∧ ReadsBack text entry.2

theorem colon_eq (layout : Layout) :
    ∃ blanks, layout.colon = ':' :: blanks ∧ ∀ c ∈ blanks, isBlank c = true := by
  cases layout with
  | compact => exact ⟨[], rfl, List.forall_mem_nil _⟩
  | spaced | indented => exact ⟨[' '], rfl, List.forall_mem_singleton.mpr rfl⟩

/-- A labelled value is read up to where what follows decides how to go on. -/
theorem Labelled.readEntries {layout : Layout} {part : List Char} {entry : String × Value}
    (h : Labelled layout part entry) {fuel : Nat} (hfuel : part.length ≤ fuel) {rest : List Char}
    (hstops : Stops rest) {next : Char} {after : List Char}
    (hrest : skipBlanks rest = next :: after) :
    Json.readEntries none (fuel + 1) (part ++ rest) =
      if next = ',' then do
        let (entries, rest) ← Json.readEntries none fuel (skipBlanks after)
        return ((.str entry.1, entry.2) :: entries, rest)
      else if next = Char.ofNat 125 then return ([(.str entry.1, entry.2)], after)
      else none := by
  obtain ⟨text, rfl, htext⟩ := h
  obtain ⟨blanks, hcolon, hblanks⟩ := colon_eq layout
  have hkey : readString none (writeString entry.1 ++ layout.colon ++ text ++ rest) =
      some (entry.1, ':' :: (blanks ++ (text ++ rest))) := by
    rw [List.append_assoc, List.append_assoc, readString_writeString, hcolon]
    rfl
  have hmark : afterWord? [':'] (skipBlanks (':' :: (blanks ++ (text ++ rest)))) =
      some (blanks ++ (text ++ rest)) := by
    rw [skipBlanks_cons (by decide), afterWord?_cons]
    rfl
  have hvalue := htext.read fuel (by
    simp only [List.length_append] at hfuel
    omega) hstops
  rw [Json.readEntries, hkey]
  simp only [Option.bind_eq_bind, Option.bind_some, hmark, skipBlanks_append hblanks,
    htext.starts, hvalue, hrest]

/-- Every labelled value starts with the mark of its key. -/
theorem Labelled.starts {layout : Layout} {part : List Char} {entry : String × Value}
    (h : Labelled layout part entry) (rest : List Char) :
    skipBlanks (part ++ rest) = part ++ rest := by
  obtain ⟨text, rfl, -⟩ := h
  exact skipBlanks_cons (by decide) _

theorem readEntries_following {layout : Layout} (hgap : ∀ c ∈ gap, isBlank c = true)
    (htrail : ∀ c ∈ trail, isBlank c = true) {part : List Char} {entry : String × Value}
    (hfirst : Labelled layout part entry) {parts : List (List Char)}
    {entries : Entries String Value} (hrest : List.Forall₂ (Labelled layout) parts entries)
    {fuel : Nat} (hfuel : part.length + (following gap parts).length < fuel)
    (rest : List Char) :
    readEntries none fuel (part ++ (following gap parts ++ (trail ++ Char.ofNat 125 :: rest))) =
      some ((entry :: entries).map fun entry => (Value.str entry.1, entry.2), rest) := by
  induction hrest generalizing part entry fuel with
  | nil =>
    obtain ⟨fuel, rfl⟩ := Nat.exists_eq_add_one.mpr (Nat.zero_lt_of_lt hfuel)
    have hclosing : skipBlanks (following gap [] ++ (trail ++ Char.ofNat 125 :: rest)) =
        Char.ofNat 125 :: rest :=
      (skipBlanks_append htrail _).trans (skipBlanks_cons (by decide) rest)
    rw [hfirst.readEntries (by omega) (stops_following gap htrail (Or.inr rfl) [] rest) hclosing]
    rfl
  | @cons next other parts entries hnext hothers ih =>
    obtain ⟨fuel, rfl⟩ := Nat.exists_eq_add_one.mpr (Nat.zero_lt_of_lt hfuel)
    rw [length_following_cons] at hfuel
    have hlater := ih hnext (show next.length + (following gap parts).length < fuel by omega)
    have hcomma : skipBlanks (following gap (next :: parts) ++ (trail ++ Char.ofNat 125 :: rest)) =
        ',' :: (gap ++ (next ++ (following gap parts ++ (trail ++ Char.ofNat 125 :: rest)))) := by
      rw [following_cons, skipBlanks_cons (by decide)]
    rw [hfirst.readEntries (by omega) (stops_following gap htrail (Or.inr rfl) _ rest) hcomma,
      if_pos rfl, skipBlanks_append hgap, hnext.starts, hlater]
    rfl

end

/-! ### Whole texts -/

section

variable {layout : Layout} {level : Nat}

theorem ReadsBack.list {texts : List (List Char)} {items : List Value}
    (h : List.Forall₂ ReadsBack texts items) :
    ReadsBack (layout.enclose level '[' ']' texts) (.seq .list items) := by
  cases h with
  | nil => exact .of_cons (by decide) fun _ _ _ _ => rfl
  | @cons text v texts items hfirst hrest =>
    rw [Layout.enclose_cons]
    refine .of_cons (by decide) fun fuel rest hfuel _ => ?_
    simp only [List.length_append, List.length_singleton] at hfuel
    have hread := readItems_following (layout.isBlank_gap level) (layout.isBlank_margin level)
      hfirst hrest (show _ < fuel by omega) rest
    simp only [List.cons_append, List.append_assoc, List.nil_append]
    rw [readValue, if_neg (by decide), if_pos rfl, skipBlanks_append (layout.isBlank_margin _),
      hfirst.starts]
    -- The first item is no closing bracket, so the array is not taken for an empty one.
    obtain ⟨c, text, rfl, -, hc⟩ := hfirst.head
    split
    · next heq => exact absurd (List.cons.inj heq).1 hc
    · rw [hread]
      rfl

theorem ReadsBack.record {parts : List (List Char)} {entries : Entries String Value}
    (hkeys : entries.keys.Nodup) (h : List.Forall₂ (Labelled layout) parts entries) :
    ReadsBack (layout.enclose level (Char.ofNat 123) (Char.ofNat 125) parts)
      (.record entries) := by
  cases h with
  | nil => exact .of_cons (by decide) fun _ _ _ _ => rfl
  | @cons part entry parts entries hfirst hrest =>
    rw [Layout.enclose_cons]
    refine .of_cons (by decide) fun fuel rest hfuel _ => ?_
    simp only [List.length_append, List.length_singleton] at hfuel
    have hread := readEntries_following (layout.isBlank_gap level) (layout.isBlank_margin level)
      hfirst hrest (show _ < fuel by omega) rest
    simp only [List.cons_append, List.append_assoc, List.nil_append]
    rw [readValue, if_neg (by decide), if_neg (by decide), if_pos rfl,
      skipBlanks_append (layout.isBlank_margin _), hfirst.starts]
    obtain ⟨text, rfl, -⟩ := hfirst
    simp only [writeString, List.cons_append] at hread ⊢
    rw [if_neg (by decide), hread, Option.bind_eq_bind, Option.bind_some,
      Entries.ofPairs_str, Entries.ofPairs_of_nodup hkeys]
    rfl

theorem readsBack_writeItems {items : List Value}
    (h : ∀ v ∈ items, ∀ level text, writeAt layout level v = .ok text → ReadsBack text v)
    {texts : List (List Char)} (hwrite : writeItems layout level items = .ok texts) :
    List.Forall₂ ReadsBack texts items := by
  induction items generalizing texts with
  | nil =>
    cases hwrite
    exact .nil
  | cons v rest ih =>
    obtain ⟨hv, hrest⟩ := List.forall_mem_cons.mp h
    rw [writeItems] at hwrite
    obtain ⟨text, htext, hwrite⟩ := exists_of_bind_eq_ok hwrite
    obtain ⟨later, hlater, hwrite⟩ := exists_of_bind_eq_ok hwrite
    cases hwrite
    exact .cons (hv level text htext) (ih hrest hlater)

theorem labelled_writeEntries {entries : Entries String Value}
    (h : ∀ entry ∈ entries, ∀ level text,
      writeAt layout level entry.2 = .ok text → ReadsBack text entry.2)
    {parts : List (List Char)} (hwrite : writeEntries layout level
      (entries.map fun entry => (Value.str entry.1, entry.2)) = .ok parts) :
    List.Forall₂ (Labelled layout) parts entries := by
  induction entries generalizing parts with
  | nil =>
    cases hwrite
    exact .nil
  | cons entry rest ih =>
    obtain ⟨hentry, hrest⟩ := List.forall_mem_cons.mp h
    rw [List.map_cons, writeEntries] at hwrite
    obtain ⟨key, hkey, hwrite⟩ := exists_of_bind_eq_ok hwrite
    obtain ⟨text, htext, hwrite⟩ := exists_of_bind_eq_ok hwrite
    obtain ⟨later, hlater, hwrite⟩ := exists_of_bind_eq_ok hwrite
    cases hkey
    cases hwrite
    exact .cons ⟨text, rfl, hentry level text htext⟩ (ih hrest hlater)

/-- What is written for a value without floating-point numbers is read as that value. -/
theorem readsBack_writeAt {v : Value} (h : v.Spelled false) {text : List Char}
    (hwrite : writeAt layout level v = .ok text) : ReadsBack text v := by
  induction h generalizing level text with
  | null =>
    cases hwrite
    exact .null
  | bool b =>
    cases b with
    | false =>
      cases hwrite
      exact .bool false
    | true =>
      cases hwrite
      exact .bool true
  | int n =>
    cases hwrite
    exact .int n
  | float _ h => cases h
  | str s =>
    cases hwrite
    exact .str s
  | list items _ ih =>
    rw [writeAt] at hwrite
    obtain ⟨texts, htexts, hwrite⟩ := exists_of_bind_eq_ok hwrite
    cases hwrite
    exact .list (readsBack_writeItems (fun v hv _ _ => ih v hv) htexts)
  | record entries hkeys _ ih =>
    rw [Value.record, writeAt] at hwrite
    obtain ⟨parts, hparts, hwrite⟩ := exists_of_bind_eq_ok hwrite
    cases hwrite
    exact .record hkeys (labelled_writeEntries (fun entry hentry _ _ => ih entry hentry) hparts)

end

theorem read_of_readsBack {text : List Char} {v : Value} (h : ReadsBack text v)
    {blanks : List Char} (hblanks : ∀ c ∈ blanks, isBlank c = true) :
    read (String.ofList (text ++ blanks)) = some v := by
  have hend : skipBlanks blanks = [] := by
    have hskip := skipBlanks_append hblanks []
    rwa [List.append_nil] at hskip
  have hstops : Stops blanks := by
    have hnil : Stops [] := fun _ hnone => by cases hnone
    have happend := stops_append hblanks hnil
    rwa [List.append_nil] at happend
  have hread := h.read ((text ++ blanks).length + 1) (by
    rw [List.length_append]
    omega) hstops
  rw [read, readWith, String.toList_ofList, h.starts, hread]
  simp [hend]

/-- A written text is read as what it was written for. -/
theorem read_write {layout : Layout} {v : Value} (h : v.Spelled false) {text : String}
    (hwrite : write layout v = .ok text) : read text = some v := by
  obtain ⟨characters, hcharacters, hwrite⟩ := exists_of_bind_eq_ok hwrite
  cases hwrite
  have hread := read_of_readsBack (readsBack_writeAt h hcharacters) (List.forall_mem_nil _)
  rwa [List.append_nil] at hread

/-- So is the text with a line break after it. -/
theorem read_write_line {layout : Layout} {v : Value} (h : v.Spelled false) {text : String}
    (hwrite : write layout v = .ok text) : read (text ++ "\n") = some v := by
  obtain ⟨characters, hcharacters, hwrite⟩ := exists_of_bind_eq_ok hwrite
  cases hwrite
  have hbreak : ∀ c ∈ ['\n'], isBlank c = true := List.forall_mem_singleton.mpr rfl
  have hread := read_of_readsBack (readsBack_writeAt h hcharacters) hbreak
  rwa [String.ofList_append] at hread

end Motif.Json
