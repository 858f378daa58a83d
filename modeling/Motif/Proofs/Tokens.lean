import Motif.Json.Reader
import Motif.Json.Writer

/-!
The parts of a written text as they are read. Every layout puts nothing but blanks between them,
strings escape what would end them, integers stand in decimal digits, and no number starts like a
word.
-/

namespace Motif.Json

/-! ### Blanks -/

theorem skipBlanks_append {blanks : List Char} (h : ∀ c ∈ blanks, isBlank c = true)
    (rest : List Char) : skipBlanks (blanks ++ rest) = skipBlanks rest :=
  List.dropWhile_append_of_pos h

theorem skipBlanks_cons {c : Char} (h : isBlank c = false) (rest : List Char) :
    skipBlanks (c :: rest) = c :: rest :=
  List.dropWhile_cons_of_neg (by simp [h])

namespace Layout

/-- What follows the opening bracket and comes before the closing one. -/
def margin (layout : Layout) (level : Nat) : List Char :=
  match layout with
  | .compact | .spaced => []
  | .indented => lineAt level

/-- What follows a comma. -/
def gap (layout : Layout) (level : Nat) : List Char :=
  match layout with
  | .compact => []
  | .spaced => [' ']
  | .indented => lineAt (level + 1)

theorem isBlank_lineAt (level : Nat) : ∀ c ∈ lineAt level, isBlank c = true := by
  intro c hc
  rcases List.mem_cons.mp hc with rfl | hspace
  · rfl
  · rw [List.eq_of_mem_replicate hspace]
    rfl

theorem isBlank_margin (layout : Layout) (level : Nat) :
    ∀ c ∈ layout.margin level, isBlank c = true := by
  cases layout with
  | compact | spaced => simp [margin]
  | indented => exact isBlank_lineAt level

theorem isBlank_gap (layout : Layout) (level : Nat) :
    ∀ c ∈ layout.gap level, isBlank c = true := by
  cases layout with
  | compact => simp [gap]
  | spaced => simp [gap, isBlank]
  | indented => exact isBlank_lineAt (level + 1)

theorem separator_eq (layout : Layout) (level : Nat) :
    layout.separator level = ',' :: layout.gap level := by
  cases layout <;> rfl

theorem intercalate_cons (separator part : List Char) (parts : List (List Char)) :
    separator.intercalate (part :: parts) = part ++ parts.flatMap (separator ++ ·) := by
  induction parts generalizing part with
  | nil => simp
  | cons next rest ih =>
    rw [List.intercalate_cons_cons, ih, List.flatMap_cons]
    simp only [List.append_assoc]

/-- The parts after the first one, each with its comma. -/
def following (gap : List Char) (parts : List (List Char)) : List Char :=
  parts.flatMap fun part => ',' :: (gap ++ part)

/-- The text of a container with a first part. -/
theorem enclose_cons (layout : Layout) (level : Nat) (opening closing : Char)
    (part : List Char) (parts : List (List Char)) :
    layout.enclose level opening closing (part :: parts) =
      opening :: (layout.margin (level + 1) ++ (part ++ (following (layout.gap level) parts ++
        (layout.margin level ++ [closing])))) := by
  cases layout <;> simp [enclose, separator_eq, intercalate_cons, margin, gap, following]

theorem exists_enclose (layout : Layout) (level : Nat) (opening closing : Char)
    (parts : List (List Char)) :
    ∃ rest, layout.enclose level opening closing parts = opening :: rest := by
  cases parts with
  | nil => exact ⟨[closing], rfl⟩
  | cons part parts => exact ⟨_, enclose_cons layout level opening closing part parts⟩

end Layout

/-! ### Strings -/

theorem hexValue?_digitChar : ∀ d < 16, hexValue? (Nat.digitChar d) = some d := by decide

/-- A control character is read from the four digits that it is written with. -/
theorem readUnit_escaped {n : Nat} (h : n < 32) (rest : List Char) :
    readUnit ('0' :: '0' :: Nat.digitChar (n / 16) :: Nat.digitChar (n % 16) :: rest) =
      some (n, rest) := by
  have hhigh := hexValue?_digitChar (n / 16) (by omega)
  have hlow := hexValue?_digitChar (n % 16) (by omega)
  have hzero : hexValue? '0' = some 0 := by decide
  have hsum : ((0 * 16 + 0) * 16 + n / 16) * 16 + n % 16 = n := by omega
  simp only [readUnit, hzero, hhigh, hlow, Option.bind_eq_bind, Option.bind_some, hsum]
  rfl

theorem readEscape_control (half : Option Char) {c : Char} (h : c.toNat < 32) (rest : List Char) :
    readEscape half ('u' :: '0' :: '0' :: Nat.digitChar (c.toNat / 16) ::
      Nat.digitChar (c.toNat % 16) :: rest) = some (c, rest) := by
  have hlow : ¬ (0xD800 ≤ c.toNat ∧ c.toNat ≤ 0xDBFF) := by omega
  have hhigh : ¬ (0xDC00 ≤ c.toNat ∧ c.toNat ≤ 0xDFFF) := by omega
  simp [readEscape, readUnit_escaped h, hlow, hhigh, Char.ofNat_toNat]

/-- A character is read from the way that it is written in a string. -/
theorem readCharacters_escapeChar (half : Option Char) (c : Char) (fuel : Nat)
    (rest : List Char) :
    readCharacters half (fuel + 1) (escapeChar c ++ rest) =
      (readCharacters half fuel rest).map fun read => (c :: read.1, read.2) := by
  have hread {text : List Char} (h : readEscape half text = some (c, rest)) :
      readCharacters half (fuel + 1) ('\\' :: text) =
        (readCharacters half fuel rest).map fun read => (c :: read.1, read.2) := by
    have hmark : ('\\' : Char) ≠ '"' := by decide
    rw [readCharacters, if_neg hmark, if_pos rfl, h]
    simp only [Option.bind_eq_bind, Option.bind_some]
    cases readCharacters half fuel rest <;> rfl
  unfold escapeChar
  split
  · next hmark => exact hread (by rcases hmark with rfl | rfl <;> rfl)
  · next hmark =>
    split
    · next hc => exact hread (by rw [hc]; rfl)
    · split
      · next hc => exact hread (by rw [hc]; rfl)
      · split
        · next hc => exact hread (by rw [hc]; rfl)
        · split
          · next hc => exact hread (by rw [hc]; rfl)
          · split
            · next hc => exact hread (by rw [hc]; rfl)
            · split
              · next hcontrol => exact hread (readEscape_control half hcontrol rest)
              · next hcontrol =>
                rw [not_or] at hmark
                simp only [List.singleton_append, readCharacters, hmark, hcontrol, if_false]
                cases readCharacters half fuel rest <;> rfl

theorem readCharacters_flatMap (half : Option Char) (cs : List Char) {fuel : Nat}
    (hfuel : cs.length < fuel) (rest : List Char) :
    readCharacters half fuel (cs.flatMap escapeChar ++ '"' :: rest) = some (cs, rest) := by
  induction cs generalizing fuel with
  | nil =>
    obtain ⟨fuel, rfl⟩ := Nat.exists_eq_add_one.mpr hfuel
    rfl
  | cons c cs ih =>
    obtain ⟨fuel, rfl⟩ := Nat.exists_eq_add_one.mpr (Nat.zero_lt_of_lt hfuel)
    rw [List.flatMap_cons, List.append_assoc, readCharacters_escapeChar,
      ih (Nat.lt_of_succ_lt_succ hfuel)]
    rfl

theorem one_le_length_escapeChar (c : Char) : 1 ≤ (escapeChar c).length := by
  unfold escapeChar
  repeat' split
  all_goals simp

theorem length_le_length_flatMap (cs : List Char) :
    cs.length ≤ (cs.flatMap escapeChar).length := by
  induction cs with
  | nil => exact Nat.le_refl 0
  | cons c cs ih =>
    have hfirst := one_le_length_escapeChar c
    rw [List.flatMap_cons, List.length_append, List.length_cons]
    omega

/-- A string is read as it was written. -/
theorem readString_writeString (half : Option Char) (s : String) (rest : List Char) :
    readString half (writeString s ++ rest) = some (s, rest) := by
  have hfuel : s.toList.length < (s.toList.flatMap escapeChar ++ '"' :: rest).length + 1 := by
    have hlength := length_le_length_flatMap s.toList
    rw [List.length_append]
    omega
  have hread := readCharacters_flatMap half s.toList hfuel rest
  simp only [writeString, List.cons_append, List.append_assoc, List.nil_append, readString, hread]
  simp

/-! ### Integers -/

/-- The text does not go on with what could belong to a number. -/
def Stops (text : List Char) : Prop :=
  ∀ c ∈ text.head?, isDigit c = false ∧ c ≠ '.' ∧ c ≠ 'e' ∧ c ≠ 'E'

theorem isDigit_of_charIsDigit {c : Char} (h : c.isDigit = true) : isDigit c = true := by
  simp only [Char.isDigit, Bool.and_eq_true, decide_eq_true_eq] at h
  have hlow : '0'.toNat ≤ c.toNat := UInt32.le_iff_toNat_le.mp h.1
  have hhigh : c.toNat ≤ '9'.toNat := UInt32.le_iff_toNat_le.mp h.2
  rw [isDigit, Text.asciiDigit?, if_pos ⟨hlow, hhigh⟩]
  rfl

/-- The digits of a number, as they are written. -/
def digits (n : Nat) : List Char := Nat.toDigits 10 n

theorem isDigit_of_mem_digits {n : Nat} {c : Char} (h : c ∈ digits n) : isDigit c = true :=
  isDigit_of_charIsDigit (Nat.isDigit_of_mem_toDigits (by decide) (by decide) h)

theorem naturalOf_digits (n : Nat) : naturalOf (digits n) = n :=
  Nat.ofDigitChars_toDigits (by decide) (by decide)

theorem digits_of_pos {n : Nat} (h : 0 < n) : ∃ c rest, digits n = c :: rest ∧ c ≠ '0' := by
  induction n using Nat.strongRecOn with
  | ind n ih =>
    rcases Nat.lt_or_ge n 10 with hsmall | hlarge
    · refine ⟨Nat.digitChar n, [], Nat.toDigits_of_lt_base hsmall, ?_⟩
      have hchars : ∀ d < 10, 0 < d → Nat.digitChar d ≠ '0' := by decide
      exact hchars n hsmall h
    · obtain ⟨c, rest, hhead, hc⟩ := ih (n / 10) (by omega) (by omega)
      refine ⟨c, rest ++ [Nat.digitChar (n % 10)], ?_, hc⟩
      rw [digits, Nat.toDigits_of_base_le (by decide) hlarge]
      exact congrArg (· ++ [Nat.digitChar (n % 10)]) hhead

/-- Only zero starts with a zero. -/
theorem digits_eq (n : Nat) : digits n = ['0'] ∨ ∃ c rest, digits n = c :: rest ∧ c ≠ '0' := by
  rcases Nat.eq_zero_or_pos n with rfl | hpos
  · exact Or.inl rfl
  · exact Or.inr (digits_of_pos hpos)

theorem takeWhile_digits {ds rest : List Char} (hdigits : ∀ c ∈ ds, isDigit c = true)
    (hstops : Stops rest) : (ds ++ rest).takeWhile isDigit = ds := by
  rw [List.takeWhile_append_of_pos hdigits]
  cases rest with
  | nil => simp
  | cons c rest => simp [(hstops c rfl).1]

theorem dropWhile_digits {ds rest : List Char} (hdigits : ∀ c ∈ ds, isDigit c = true)
    (hstops : Stops rest) : (ds ++ rest).dropWhile isDigit = rest := by
  rw [List.dropWhile_append_of_pos hdigits]
  cases rest with
  | nil => simp
  | cons c rest => simp [(hstops c rfl).1]

theorem readWhole_digits (n : Nat) {rest : List Char} (hstops : Stops rest) :
    readWhole (digits n ++ rest) = some (digits n, rest) := by
  rcases digits_eq n with hzero | ⟨c, ds, hds, hc⟩
  · rw [hzero]
    rfl
  · have hdigits : ∀ d ∈ c :: ds, isDigit d = true := by
      intro d hd
      exact isDigit_of_mem_digits (hds ▸ hd)
    obtain ⟨hfirst, hrest⟩ := List.forall_mem_cons.mp hdigits
    rw [hds, List.cons_append, readWhole, if_neg hc, if_pos hfirst,
      takeWhile_digits hrest hstops, dropWhile_digits hrest hstops]

theorem readFraction_of_stops {rest : List Char} (h : Stops rest) : readFraction rest = none := by
  unfold readFraction
  split
  · next found => exact absurd rfl (h '.' rfl).2.1
  · rfl

theorem readExponent_of_stops {rest : List Char} (h : Stops rest) : readExponent rest = none := by
  cases rest with
  | nil => rfl
  | cons c rest =>
    obtain ⟨-, -, he, hE⟩ := h c rfl
    simp [readExponent, he, hE]

theorem exists_digits (n : Nat) : ∃ c rest, digits n = c :: rest ∧ isDigit c = true := by
  cases hdigits : digits n with
  | nil => exact absurd hdigits Nat.toDigits_ne_nil
  | cons c rest => exact ⟨c, rest, rfl, isDigit_of_mem_digits (hdigits ▸ List.mem_cons_self)⟩

theorem readNumber_digits (n : Nat) {rest : List Char} (hstops : Stops rest) :
    readNumber (digits n ++ rest) = some (.int n, rest) := by
  obtain ⟨c, ds, hds, hc⟩ := exists_digits n
  have hwhole := readWhole_digits n hstops
  have hsign : c ≠ '-' := by
    rintro rfl
    cases hc
  unfold readNumber
  split
  · next found heq =>
    split at heq
    · next negative unsigned after hcons =>
      rw [hds, List.cons_append] at hcons
      exact absurd (List.cons.inj hcons).1 hsign
    · next negative unsigned hnot =>
      cases heq
      simp [hwhole, readFraction_of_stops hstops, readExponent_of_stops hstops, naturalOf_digits]

theorem readNumber_negative (n : Nat) {rest : List Char} (hstops : Stops rest) :
    readNumber ('-' :: digits n ++ rest) = some (.int (-(n : Int)), rest) := by
  have hwhole := readWhole_digits n hstops
  unfold readNumber
  split
  next negative unsigned heq =>
    split at heq
    · next after hcons =>
      cases heq
      obtain rfl : digits n ++ rest = unsigned := (List.cons.inj hcons).2
      simp [hwhole, readFraction_of_stops hstops, readExponent_of_stops hstops, naturalOf_digits]
    · next hnot => exact absurd rfl (hnot (digits n ++ rest))

theorem toList_toString_ofNat (n : Nat) : (toString (Int.ofNat n)).toList = digits n := by
  have htext : toString (Int.ofNat n) = String.ofList (Nat.toDigits 10 n) :=
    Nat.toString_eq_ofList_toDigits
  rw [htext, String.toList_ofList]
  rfl

theorem toList_toString_negSucc (n : Nat) :
    (toString (Int.negSucc n)).toList = '-' :: digits (n + 1) := by
  have htext : toString (Int.negSucc n) = "-" ++ String.ofList (Nat.toDigits 10 (n + 1)) :=
    congrArg ("-" ++ ·) Nat.toString_eq_ofList_toDigits
  simp only [htext, String.toList_append, String.toList_ofList]
  rfl

/-! ### Scalars -/

theorem afterWord?_of_head_ne {c d : Char} (h : c ≠ d) (word text : List Char) :
    afterWord? (d :: word) (c :: text) = none := by
  have hprefix : (d :: word).isPrefixOf (c :: text) = false := by
    simp [List.isPrefixOf, Ne.symm h]
  rw [afterWord?, hprefix]
  rfl

theorem afterWord?_cons (c : Char) (word text : List Char) :
    afterWord? (c :: word) (c :: text) = afterWord? word text := by
  simp [afterWord?, List.isPrefixOf]

theorem ne_of_isDigit {c d : Char} (hc : isDigit c = true) (hd : isDigit d = false) : c ≠ d := by
  rintro rfl
  rw [hc] at hd
  cases hd

theorem isBlank_of_isDigit {c : Char} (h : isDigit c = true) : isBlank c = false := by
  have hne {d : Char} (hd : isDigit d = false) : (c == d) = false :=
    beq_eq_false_iff_ne.mpr (ne_of_isDigit h hd)
  have hspace := hne (d := ' ') (by decide)
  have htab := hne (d := '\t') (by decide)
  have hnewline := hne (d := '\n') (by decide)
  have hreturn := hne (d := '\r') (by decide)
  rw [isBlank, hspace, htab, hnewline, hreturn]
  rfl

theorem readWord_of_isDigit {c : Char} (h : isDigit c = true) (text : List Char) :
    readWord (c :: text) = none := by
  have hnone {d : Char} (hd : isDigit d = false) (word : List Char) :
      afterWord? (d :: word) (c :: text) = none := afterWord?_of_head_ne (ne_of_isDigit h hd) _ _
  refine List.findSome?_eq_none_iff.mpr fun word hword => Option.map_eq_none_iff.mpr ?_
  simp only [wordValues, List.mem_cons, List.not_mem_nil, or_false] at hword
  rcases hword with rfl | rfl | rfl | rfl | rfl | rfl <;> exact hnone (by decide) _

theorem readWord_negative {c : Char} (h : isDigit c = true) (text : List Char) :
    readWord ('-' :: c :: text) = none := by
  have hnone {d : Char} (hd : d ≠ '-') (word : List Char) :
      afterWord? (d :: word) ('-' :: c :: text) = none := afterWord?_of_head_ne hd.symm _ _
  have hinfinity : afterWord? "-Infinity".toList ('-' :: c :: text) = none := by
    have hword : "-Infinity".toList = '-' :: "Infinity".toList := rfl
    rw [hword, afterWord?_cons]
    exact afterWord?_of_head_ne (ne_of_isDigit h (by decide)) _ _
  refine List.findSome?_eq_none_iff.mpr fun word hword => Option.map_eq_none_iff.mpr ?_
  simp only [wordValues, List.mem_cons, List.not_mem_nil, or_false] at hword
  rcases hword with rfl | rfl | rfl | rfl | rfl | rfl
  · exact hnone (by decide) _
  · exact hnone (by decide) _
  · exact hnone (by decide) _
  · exact hnone (by decide) _
  · exact hnone (by decide) _
  · exact hinfinity

end Motif.Json
