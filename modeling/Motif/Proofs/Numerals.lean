import Mathlib.Data.List.TakeWhile
import Mathlib.Data.Nat.Digits.Defs
import Motif.Text.Integer

/-!
Which integers texts denote, said by a grammar. A numeral has a digit of any script in each place,
and between two of them there may be one underscore. A sign may stand before it, and blanks around
both. The reader finds the integer that a text denotes, and no other text is read.
-/

namespace Motif.Text

/-- A numeral, and its digits from the first to the last one. -/
inductive Numeral : List Char → List Nat → Prop
  | last {c d} (hdigit : digitValue? c = some d) : Numeral [c] [d]
  | digit {c d rest ds} (hdigit : digitValue? c = some d) (h : Numeral rest ds) :
    Numeral (c :: rest) (d :: ds)
  | underscore {c d rest ds} (hdigit : digitValue? c = some d) (h : Numeral rest ds) :
    Numeral (c :: '_' :: rest) (d :: ds)

/-- The number with given digits, the one that counts most first. -/
def decimal (ds : List Nat) : Nat := Nat.ofDigits 10 ds.reverse

/-- A numeral with or without a sign. -/
inductive Signed : List Char → Int → Prop
  | plain {cs ds} (h : Numeral cs ds) : Signed cs (decimal ds)
  | plus {cs ds} (h : Numeral cs ds) : Signed ('+' :: cs) (decimal ds)
  | minus {cs ds} (h : Numeral cs ds) : Signed ('-' :: cs) (-(decimal ds : Int))

/-- A text denotes an integer when, but for the padding around it, it is a numeral with or without a
sign. -/
def Denotes (text : String) (n : Int) : Prop :=
  ∃ before cs after, text.toList = before ++ cs ++ after ∧
    (∀ c ∈ before, isPadding c = true) ∧ (∀ c ∈ after, isPadding c = true) ∧ Signed cs n

/-! ### Digits -/

/-- What comes of a number when another digit is put behind it. -/
def extend (value d : Nat) : Nat := 10 * value + d

theorem decimal_eq_foldl (ds : List Nat) : decimal ds = ds.foldl extend 0 := by
  rw [decimal, Nat.ofDigits_eq_foldr, List.foldr_reverse]
  refine congrArg (fun f => ds.foldl f 0) ?_
  funext value d
  exact Nat.add_comm d (10 * value)

theorem exists_zero_of_digitValue? {c : Char} {d : Nat} (h : digitValue? c = some d) :
    ∃ first ∈ digitZeros, first ≤ c.toNat ∧ c.toNat < first + 10 := by
  obtain ⟨first, hfirst, -⟩ := Option.map_eq_some_iff.mp h
  have hrange := List.find?_some hfirst
  simp only [Bool.and_eq_true, decide_eq_true_eq] at hrange
  exact ⟨first, List.mem_of_find?_eq_some hfirst, hrange⟩

/-- No digit of any script is a blank. -/
theorem isPadding_of_digitValue? {c : Char} {d : Nat} (h : digitValue? c = some d) :
    isPadding c = false := by
  have hapart : ∀ first ∈ digitZeros, ∀ run ∈ blankRuns,
      run.2 < first ∨ first + 10 ≤ run.1 := by decide
  obtain ⟨first, hfirst, hlow, hhigh⟩ := exists_zero_of_digitValue? h
  have hblank : isBlank c = false := by
    refine List.any_eq_false.mpr fun run hrun => ?_
    have hrange := hapart first hfirst run hrun
    simp only [Bool.and_eq_true, decide_eq_true_eq]
    omega
  rw [isPadding, hblank, Bool.false_and]

/-! ### Reading numerals -/

theorem continueNatural_digit {c : Char} {d : Nat} (h : digitValue? c = some d) (value : Nat)
    (rest : List Char) :
    continueNatural value (c :: rest) = continueNatural (extend value d) rest := by
  rw [continueNatural.eq_def]
  simp only [h, extend]

/-- An underscore is passed over when a digit follows. -/
theorem continueNatural_underscore {c : Char} {d : Nat} (h : digitValue? c = some d) (value : Nat)
    (rest : List Char) :
    continueNatural value ('_' :: c :: rest) = continueNatural value (c :: rest) := by
  have hunderscore : digitValue? '_' = none := by decide
  rw [continueNatural_digit h, continueNatural.eq_def]
  simp only [hunderscore, h, if_true, extend]

theorem Numeral.exists_head {cs : List Char} {ds : List Nat} (h : Numeral cs ds) :
    ∃ c d rest, cs = c :: rest ∧ digitValue? c = some d := by
  cases h with
  | last hdigit | digit hdigit _ | underscore hdigit _ => exact ⟨_, _, _, rfl, hdigit⟩

theorem Numeral.continueNatural_eq {cs : List Char} {ds : List Nat} (h : Numeral cs ds)
    (value : Nat) : continueNatural value cs = some (ds.foldl extend value) := by
  induction h generalizing value with
  | last hdigit => exact continueNatural_digit hdigit value []
  | digit hdigit _ ih => rw [continueNatural_digit hdigit, ih, List.foldl_cons]
  | underscore hdigit h ih =>
    obtain ⟨next, _, rest, rfl, hnext⟩ := h.exists_head
    rw [continueNatural_digit hdigit, continueNatural_underscore hnext, ih, List.foldl_cons]

/-- What a number goes on with: nothing, or a numeral, with or without an underscore before it. -/
theorem exists_numeral_of_continueNatural {value n : Nat} {cs : List Char}
    (h : continueNatural value cs = some n) :
    cs = [] ∧ n = value ∨
      ∃ rest ds, (cs = rest ∨ cs = '_' :: rest) ∧ Numeral rest ds ∧ n = ds.foldl extend value := by
  have hnumeral {c : Char} {d value : Nat} {rest : List Char} (hdigit : digitValue? c = some d)
      (hlater : rest = [] ∧ n = extend value d ∨ ∃ later ds, (rest = later ∨ rest = '_' :: later) ∧
        Numeral later ds ∧ n = ds.foldl extend (extend value d)) :
      ∃ ds, Numeral (c :: rest) ds ∧ n = ds.foldl extend value := by
    rcases hlater with ⟨rfl, rfl⟩ | ⟨later, ds, rfl | rfl, hlater, rfl⟩
    · exact ⟨[d], .last hdigit, rfl⟩
    · exact ⟨d :: ds, .digit hdigit hlater, rfl⟩
    · exact ⟨d :: ds, .underscore hdigit hlater, rfl⟩
  fun_induction continueNatural value cs with
  | case1 value => exact .inl ⟨rfl, (Option.some.inj h).symm⟩
  | case2 value c rest d hdigit ih =>
    obtain ⟨ds, hds, hn⟩ := hnumeral hdigit (ih h)
    exact .inr ⟨_, ds, .inl rfl, hds, hn⟩
  | case3 | case5 | case6 => cases h
  | case4 value next rest d hdigit hunderscore ih =>
    obtain ⟨ds, hds, hn⟩ := hnumeral hdigit (ih h)
    exact .inr ⟨_, ds, .inr rfl, hds, hn⟩

theorem readNatural?_eq_some_iff {cs : List Char} {n : Nat} :
    readNatural? cs = some n ↔ ∃ ds, Numeral cs ds ∧ decimal ds = n := by
  simp only [decimal_eq_foldl]
  constructor
  · intro h
    unfold readNatural? at h
    split at h
    · cases h
    · next c rest =>
      split at h
      · next d hdigit =>
        have hfirst : extend 0 d = d := by simp [extend]
        rcases exists_numeral_of_continueNatural h with
          ⟨rfl, rfl⟩ | ⟨later, ds, rfl | rfl, hlater, rfl⟩
        · exact ⟨[n], .last hdigit, hfirst⟩
        · exact ⟨d :: ds, .digit hdigit hlater, by rw [List.foldl_cons, hfirst]⟩
        · exact ⟨d :: ds, .underscore hdigit hlater, by rw [List.foldl_cons, hfirst]⟩
      · cases h
  · rintro ⟨ds, h, rfl⟩
    obtain ⟨c, d, rest, rfl, hdigit⟩ := h.exists_head
    have hread := h.continueNatural_eq 0
    rw [continueNatural_digit hdigit] at hread
    have hfirst : extend 0 d = d := by simp [extend]
    simp only [readNatural?, hdigit]
    rwa [hfirst] at hread

/-! ### Signs and padding -/

theorem Numeral.ne_of_not_digit {c : Char} {cs : List Char} {ds : List Nat} (h : Numeral cs ds)
    (hnone : digitValue? c = none) (rest : List Char) : cs ≠ c :: rest := by
  rintro rfl
  obtain ⟨_, _, _, heq, hdigit⟩ := h.exists_head
  rw [← (List.cons.inj heq).1, hnone] at hdigit
  cases hdigit

theorem map_readNatural?_iff {cs : List Char} {make : Nat → Int} {n : Int} :
    (readNatural? cs).map make = some n ↔ ∃ ds, Numeral cs ds ∧ make (decimal ds) = n := by
  rw [Option.map_eq_some_iff]
  constructor
  · rintro ⟨value, hread, rfl⟩
    obtain ⟨ds, hds, rfl⟩ := readNatural?_eq_some_iff.mp hread
    exact ⟨ds, hds, rfl⟩
  · rintro ⟨ds, hds, rfl⟩
    exact ⟨decimal ds, readNatural?_eq_some_iff.mpr ⟨ds, hds, rfl⟩, rfl⟩

/-- Without its padding, a text that is read is a numeral with or without a sign. -/
theorem readInteger?_iff_signed {text : String} {n : Int} :
    readInteger? text = some n ↔ Signed (strip isPadding text.toList) n := by
  have hplus : digitValue? '+' = none := by decide
  have hminus : digitValue? '-' = none := by decide
  unfold readInteger?
  generalize strip isPadding text.toList = cs
  split
  · next rest =>
    rw [map_readNatural?_iff]
    constructor
    · rintro ⟨ds, hds, rfl⟩
      exact .plus hds
    · intro h
      cases h with
      | plain h => exact absurd rfl (h.ne_of_not_digit hplus rest)
      | plus h => exact ⟨_, h, rfl⟩
  · next rest =>
    have hnegative : (readNatural? rest >>= fun value => pure (value : Int)).map (fun n => -n) =
        (readNatural? rest).map fun value : Nat => -(value : Int) := by
      cases readNatural? rest <;> rfl
    rw [hnegative, map_readNatural?_iff]
    constructor
    · rintro ⟨ds, hds, rfl⟩
      exact .minus hds
    · intro h
      cases h with
      | plain h => exact absurd rfl (h.ne_of_not_digit hminus rest)
      | minus h => exact ⟨_, h, rfl⟩
  · next hnotPlus hnotMinus =>
    rw [map_readNatural?_iff]
    constructor
    · rintro ⟨ds, hds, rfl⟩
      exact .plain hds
    · intro h
      cases h with
      | plain h => exact ⟨_, h, rfl⟩
      | plus _ => exact absurd rfl (hnotPlus _)
      | minus _ => exact absurd rfl (hnotMinus _)

theorem Numeral.isPadding_eq {cs : List Char} {ds : List Nat} (h : Numeral cs ds) :
    ∀ c ∈ cs, isPadding c = false := by
  have hunderscore : isPadding '_' = false := by decide
  induction h with
  | last hdigit => exact List.forall_mem_singleton.mpr (isPadding_of_digitValue? hdigit)
  | digit hdigit _ ih => exact List.forall_mem_cons.mpr ⟨isPadding_of_digitValue? hdigit, ih⟩
  | underscore hdigit _ ih =>
    exact List.forall_mem_cons.mpr
      ⟨isPadding_of_digitValue? hdigit, List.forall_mem_cons.mpr ⟨hunderscore, ih⟩⟩

theorem Signed.isPadding_eq {cs : List Char} {n : Int} (h : Signed cs n) :
    ∀ c ∈ cs, isPadding c = false := by
  cases h with
  | plain h => exact h.isPadding_eq
  | plus h | minus h => exact List.forall_mem_cons.mpr ⟨by decide, h.isPadding_eq⟩

section

variable {class? : Char → Bool}

theorem exists_strip (class? : Char → Bool) (text : List Char) :
    ∃ before after, text = before ++ strip class? text ++ after ∧
      (∀ c ∈ before, class? c = true) ∧ ∀ c ∈ after, class? c = true := by
  let rest := text.dropWhile class?
  refine ⟨text.takeWhile class?, (rest.reverse.takeWhile class?).reverse, ?_, ?_, ?_⟩
  · have hrest : strip class? text ++ (rest.reverse.takeWhile class?).reverse = rest := by
      rw [strip, ← List.reverse_append, List.takeWhile_append_dropWhile, List.reverse_reverse]
    rw [List.append_assoc, hrest, List.takeWhile_append_dropWhile]
  · exact fun c hc => List.mem_takeWhile_imp hc
  · exact fun c hc => List.mem_takeWhile_imp (List.mem_reverse.mp hc)

theorem dropWhile_append_of_starts {cs : List Char} (h : ∀ c ∈ cs, class? c = false)
    (hne : cs ≠ []) (later : List Char) : (cs ++ later).dropWhile class? = cs ++ later := by
  obtain ⟨c, rest, rfl⟩ := List.exists_cons_of_ne_nil hne
  rw [List.cons_append, List.dropWhile_cons_of_neg (by simp [h c List.mem_cons_self])]

/-- Only what stands around a text is stripped from it. -/
theorem strip_append {before cs after : List Char} (hbefore : ∀ c ∈ before, class? c = true)
    (hafter : ∀ c ∈ after, class? c = true) (h : ∀ c ∈ cs, class? c = false) :
    strip class? (before ++ cs ++ after) = cs := by
  have hafterReverse : ∀ c ∈ after.reverse, class? c = true :=
    fun c hc => hafter c (List.mem_reverse.mp hc)
  rw [strip, List.append_assoc, List.dropWhile_append_of_pos hbefore]
  rcases eq_or_ne cs [] with rfl | hne
  · have hall : after.dropWhile class? = [] := List.dropWhile_eq_nil_iff.mpr hafter
    simp [hall]
  · have hreverse : cs.reverse.dropWhile class? = cs.reverse := by
      have hcs := dropWhile_append_of_starts (fun c hc => h c (List.mem_reverse.mp hc))
        (by simpa using hne) []
      rwa [List.append_nil] at hcs
    rw [dropWhile_append_of_starts h hne, List.reverse_append,
      List.dropWhile_append_of_pos hafterReverse, hreverse, List.reverse_reverse]

end

/-- The reader finds the integer that a text denotes, and reads no text that denotes none. -/
theorem readInteger?_eq_some_iff {text : String} {n : Int} :
    readInteger? text = some n ↔ Denotes text n := by
  rw [readInteger?_iff_signed]
  constructor
  · intro h
    obtain ⟨before, after, htext, hbefore, hafter⟩ := exists_strip isPadding text.toList
    exact ⟨before, _, after, htext, hbefore, hafter, h⟩
  · rintro ⟨before, cs, after, htext, hbefore, hafter, h⟩
    rwa [htext, strip_append hbefore hafter h.isPadding_eq]

end Motif.Text
