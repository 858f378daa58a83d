import Motif.Value.Equality

/-!
Equal values stand for each other. What equals one of two equal values equals the other one as
well, so the loose equality is an equivalence, as far as no two keys of a mapping are equal.
Entries of equal mappings can then be paired one to one. The strict equality does not follow the
loose one, since it tells types apart; but values that are equal and of the same types, all the way
down, are strictly equal to the same values.
-/

namespace Motif

theorem Place.stepsPerUnit_pos : 0 < stepsPerUnit := by
  apply Nat.pow_pos
  decide

namespace Value

mutual

/-- Whether no two keys of a mapping are equal, in a value and everything in it. -/
def isWellKeyed : Value → Bool
  | .seq _ items => allWellKeyed items
  | .dict entries => entriesWellKeyed entries
  | .pattern p => patternWellKeyed p
  | .null | .bool _ | .int _ | .float _ | .str _ | .bytes _ | .object _ | .marker _ => true
termination_by structural v => v

def allWellKeyed : List Value → Bool
  | [] => true
  | v :: rest => isWellKeyed v && allWellKeyed rest
termination_by structural vs => vs

def entriesWellKeyed : List (Value × Value) → Bool
  | [] => true
  | (k, v) :: rest =>
    isWellKeyed k && isWellKeyed v && rest.all (fun other => !looselyEqual k other.1) &&
      entriesWellKeyed rest
termination_by structural entries => entries

def patternWellKeyed : Pattern Value → Bool
  | .literal value | .misfit _ value => isWellKeyed value
  | .alternation parts | .sequence parts => allPatternsWellKeyed parts
  | .choiceFrom source parts => isWellKeyed source && allPatternsWellKeyed parts
  | .repeated inner _ _ | .arrayOf inner _ | .named _ inner => patternWellKeyed inner
  | .wildcard | .typeCheck _ | .unspecified _ => true
termination_by structural p => p

def allPatternsWellKeyed : List (Pattern Value) → Bool
  | [] => true
  | p :: rest => patternWellKeyed p && allPatternsWellKeyed rest
termination_by structural ps => ps

end

mutual

/-- Whether two values are of the same types, all the way down. The keys of mappings do not count;
values under equal keys are compared. -/
def sameTypes : Value → Value → Bool
  | .seq f xs, .seq g ys => f == g && allSameTypes xs ys
  | .dict xs, .dict ys => entriesSameTypes xs ys
  | v, w => v.typeName == w.typeName
termination_by structural v => v

def allSameTypes : List Value → List Value → Bool
  | [], [] => true
  | x :: xs, y :: ys => sameTypes x y && allSameTypes xs ys
  | _, _ => false
termination_by structural vs => vs

def entriesSameTypes : List (Value × Value) → List (Value × Value) → Bool
  | [], _ => true
  | (k, v) :: rest, others =>
    (match lookUp? k others with
      | some other => sameTypes v other
      | none => false) && entriesSameTypes rest others
termination_by structural entries => entries

end

/-- What can be exchanged for anything that equals it: it equals itself, and what equals it
equals the same things. -/
structure Exchangeable {α : Type} (equal : α → α → Bool) (x : α) : Prop where
  refl : equal x x = true
  congr : ∀ {y}, equal x y = true → ∀ z, equal x z = equal y z

namespace Exchangeable

variable {α : Type} {equal : α → α → Bool} {x y : α}

theorem symm (h : Exchangeable equal x) (hequal : equal x y = true) : equal y x = true := by
  rw [← h.congr hequal x]
  exact h.refl

/-- What is built from one part, when only what is built likewise can equal it. -/
theorem of_part {β : Type} {part : β → β → Bool} {a : β} (build : β → α)
    (h : Exchangeable part a) (hpart : ∀ a b, equal (build a) (build b) = part a b)
    (honly : ∀ a y, equal (build a) y = true → ∃ b, y = build b) :
    Exchangeable equal (build a) where
  refl := by rw [hpart, h.refl]
  congr := by
    intro y hequal z
    obtain ⟨b, rfl⟩ := honly a y hequal
    rw [hpart] at hequal
    rw [Bool.eq_iff_iff]
    constructor
    · intro hz
      obtain ⟨c, rfl⟩ := honly a z hz
      rwa [hpart, ← h.congr hequal, ← hpart]
    · intro hz
      obtain ⟨c, rfl⟩ := honly b z hz
      rwa [hpart, h.congr hequal, ← hpart]

/-- What equals nothing but itself. -/
theorem of_eq (hrefl : equal x x = true) (heq : ∀ y, equal x y = true → y = x) :
    Exchangeable equal x where
  refl := hrefl
  congr hequal z := by rw [heq _ hequal]

/-- What can be exchanged one by one can be exchanged together. -/
theorem cons {all : List α → List α → Bool} {rest : List α}
    (hcons : ∀ a as b bs, all (a :: as) (b :: bs) = (equal a b && all as bs))
    (hnil : ∀ a as, all (a :: as) [] = false) (hx : Exchangeable equal x)
    (hrest : Exchangeable all rest) : Exchangeable all (x :: rest) where
  refl := by rw [hcons, hx.refl, hrest.refl, Bool.true_and]
  congr := by
    intro ys hequal zs
    cases ys with
    | nil => simp [hnil] at hequal
    | cons y ys =>
      rw [hcons, Bool.and_eq_true] at hequal
      cases zs with
      | nil => rw [hnil, hnil]
      | cons z zs => rw [hcons, hcons, hx.congr hequal.1, hrest.congr hequal.2]

end Exchangeable

/-- Numbers are equal to what stands at the same place. -/
theorem looselyEqual_of_place? {v : Value} {place : Place} (h : v.place? = some place)
    (w : Value) : looselyEqual v w = true ↔ w.place? = some place := by
  cases v with
  | bool b => cases w <;> simp_all [looselyEqual, place?] <;> grind
  | int n => cases w <;> simp_all [looselyEqual, place?] <;> grind
  | float x =>
    cases x with
    | nan tag => cases h
    | infinite negative => cases w <;> simp_all [looselyEqual, place?] <;> grind
    | finite negative steps => cases w <;> simp_all [looselyEqual, place?] <;> grind
  | _ => cases h

theorem exchangeable_of_place? {v : Value} {place : Place} (h : v.place? = some place) :
    Exchangeable looselyEqual v where
  refl := (looselyEqual_of_place? h v).mpr h
  congr := by
    intro w hequal u
    have hw := (looselyEqual_of_place? h w).mp hequal
    rw [Bool.eq_iff_iff, looselyEqual_of_place? h, looselyEqual_of_place? hw]

theorem exchangeable_nan (tag : Nat) : Exchangeable looselyEqual (.float (.nan tag)) := by
  refine .of_eq (by simp [looselyEqual]) fun w h => ?_
  cases w with
  | float x => cases x <;> simp_all [looselyEqual, place?, Binary64.place?]
  | _ => simp_all [looselyEqual, place?, Binary64.place?]

/-! ### Entries of equal mappings -/

theorem lookUp?_eq_some {key v : Value} {entries : List (Value × Value)}
    (h : lookUp? key entries = some v) :
    ∃ k, (k, v) ∈ entries ∧ looselyEqual key k = true := by
  obtain ⟨⟨k, w⟩, hfound, rfl⟩ := Option.map_eq_some_iff.mp h
  exact ⟨k, List.mem_of_find?_eq_some hfound, by simpa using List.find?_some hfound⟩

theorem lookUp?_congr {k l : Value} (h : Exchangeable looselyEqual k)
    (hequal : looselyEqual k l = true) (entries : List (Value × Value)) :
    lookUp? k entries = lookUp? l entries := by
  simp only [lookUp?, h.congr hequal]

/-- An entry under another key can be taken away. -/
theorem lookUp?_append_cons_of_ne {k : Value} {entry : Value × Value}
    (hne : looselyEqual k entry.1 = false) (before after : List (Value × Value)) :
    lookUp? k (before ++ entry :: after) = lookUp? k (before ++ after) := by
  simp [lookUp?, List.find?_append, hne]

theorem looselyWithin_iff (xs ys : List (Value × Value)) :
    looselyWithin xs ys = true ↔
      ∀ entry ∈ xs, ∃ v, lookUp? entry.1 ys = some v ∧ looselyEqual entry.2 v = true := by
  induction xs with
  | nil => simp [looselyWithin]
  | cons entry rest ih =>
    rw [looselyWithin, Bool.and_eq_true, ih, List.forall_mem_cons, lookUp?]
    cases ys.find? fun other => looselyEqual entry.1 other.1 <;> simp

theorem strictlyWithin_iff (xs ys : List (Value × Value)) :
    strictlyWithin xs ys = true ↔
      ∀ entry ∈ xs, ∃ v, lookUp? entry.1 ys = some v ∧ strictlyEqual entry.2 v = true := by
  induction xs with
  | nil => simp [strictlyWithin]
  | cons entry rest ih =>
    rw [strictlyWithin, Bool.and_eq_true, ih, List.forall_mem_cons]
    cases lookUp? entry.1 ys <;> simp

theorem looselyEqual_dict (xs ys : List (Value × Value)) :
    looselyEqual (.dict xs) (.dict ys) = true ↔ xs.length = ys.length ∧
      ∀ entry ∈ xs, ∃ v, lookUp? entry.1 ys = some v ∧ looselyEqual entry.2 v = true := by
  simp only [looselyEqual, Bool.and_eq_true, beq_iff_eq, looselyWithin_iff]

theorem strictlyEqual_dict (xs ys : List (Value × Value)) :
    strictlyEqual (.dict xs) (.dict ys) = true ↔ xs.length = ys.length ∧
      ∀ entry ∈ xs, ∃ v, lookUp? entry.1 ys = some v ∧ strictlyEqual entry.2 v = true := by
  simp only [strictlyEqual, Bool.and_eq_true, beq_iff_eq, strictlyWithin_iff]

theorem entriesSameTypes_iff (xs ys : List (Value × Value)) :
    entriesSameTypes xs ys = true ↔
      ∀ entry ∈ xs, ∃ v, lookUp? entry.1 ys = some v ∧ sameTypes entry.2 v = true := by
  induction xs with
  | nil => simp [entriesSameTypes]
  | cons entry rest ih =>
    rw [entriesSameTypes, Bool.and_eq_true, ih, List.forall_mem_cons]
    cases lookUp? entry.1 ys <;> simp

/-- The keys can be exchanged for equal ones, and no two of them are equal. -/
structure Keyed (entries : List (Value × Value)) : Prop where
  exchangeable : ∀ entry ∈ entries, Exchangeable looselyEqual entry.1
  distinct : entries.Pairwise fun entry other => looselyEqual entry.1 other.1 = false

namespace Keyed

theorem tail {entry : Value × Value} {rest : List (Value × Value)} (h : Keyed (entry :: rest)) :
    Keyed rest where
  exchangeable := (List.forall_mem_cons.mp h.exchangeable).2
  distinct := (List.pairwise_cons.mp h.distinct).2

/-- Under a key that is equal to one of the keys, the entry of that key is found. -/
theorem find?_of_mem {entries : List (Value × Value)} (h : Keyed entries) {entry : Value × Value}
    (hmem : entry ∈ entries) {key : Value} (hkey : Exchangeable looselyEqual key)
    (hequal : looselyEqual key entry.1 = true) :
    (entries.find? fun other => looselyEqual key other.1) = some entry := by
  have hexchange := h.exchangeable entry hmem
  obtain ⟨before, after, rfl⟩ := List.append_of_mem hmem
  have hbefore : ∀ other ∈ before, looselyEqual key other.1 = false := by
    intro other hother
    refine Bool.eq_false_iff.mpr fun hother' => ?_
    have hne := (List.pairwise_append.mp h.distinct).2.2 other hother entry List.mem_cons_self
    rw [hkey.congr hequal] at hother'
    rw [hexchange.symm hother'] at hne
    cases hne
  have hnone : (before.find? fun other => looselyEqual key other.1) = none := by
    simpa using hbefore
  simp [List.find?_append, hnone, hequal]

theorem lookUp?_of_mem {entries : List (Value × Value)} (h : Keyed entries)
    {entry : Value × Value} (hmem : entry ∈ entries) :
    lookUp? entry.1 entries = some entry.2 := by
  have hexchange := h.exchangeable entry hmem
  rw [lookUp?, h.find?_of_mem hmem hexchange hexchange.refl, Option.map_some]

/-- When all keys of `xs` are keys of `ys`, which has no more entries, each entry of `ys` is the
one that some entry of `xs` finds. No two keys of `xs` find the same one, since then they would be
equal. -/
theorem exists_of_mem {xs ys : List (Value × Value)} (h : Keyed xs)
    (hlength : xs.length = ys.length) (hkeys : ∀ entry ∈ xs, ∃ v, lookUp? entry.1 ys = some v)
    {other : Value × Value} (hother : other ∈ ys) :
    ∃ entry ∈ xs, looselyEqual entry.1 other.1 = true ∧ lookUp? entry.1 ys = some other.2 := by
  induction xs generalizing ys with
  | nil =>
    obtain rfl : ys = [] := List.length_eq_zero_iff.mp hlength.symm
    cases hother
  | cons entry rest ih =>
    obtain ⟨value, hvalue⟩ := hkeys entry List.mem_cons_self
    obtain ⟨partner, hfound, -⟩ := Option.map_eq_some_iff.mp hvalue
    obtain ⟨hequal, before, after, rfl, -⟩ := List.find?_eq_some_iff_append.mp hfound
    have hne : ∀ later ∈ rest, looselyEqual later.1 partner.1 = false := by
      intro later hlater
      refine Bool.eq_false_iff.mpr fun hlaterEqual => ?_
      have hback := (h.tail.exchangeable later hlater).symm hlaterEqual
      have hdistinct := (List.pairwise_cons.mp h.distinct).1 later hlater
      rw [(h.exchangeable entry List.mem_cons_self).congr hequal, hback] at hdistinct
      cases hdistinct
    rw [List.mem_append, List.mem_cons, or_left_comm, ← List.mem_append] at hother
    obtain rfl | hother := hother
    · exact ⟨entry, List.mem_cons_self, hequal, by simp [lookUp?, hfound]⟩
    · have hrest : ∀ later ∈ rest, ∃ v, lookUp? later.1 (before ++ after) = some v := by
        intro later hlater
        rw [← lookUp?_append_cons_of_ne (hne later hlater)]
        exact hkeys later (List.mem_cons_of_mem _ hlater)
      obtain ⟨later, hlater, hlaterEqual, hlaterFound⟩ :=
        ih h.tail (by simpa [← Nat.add_assoc] using hlength) hrest hother
      refine ⟨later, List.mem_cons_of_mem _ hlater, hlaterEqual, ?_⟩
      rw [lookUp?_append_cons_of_ne (hne later hlater), hlaterFound]

end Keyed

/-- The values under equal keys are found from either side: what all entries of one mapping find in
a third one, all entries of an equal mapping find there. -/
theorem Keyed.forall_find_iff {xs ys : List (Value × Value)} (h : Keyed xs)
    (hlength : xs.length = ys.length) (hkeys : ∀ entry ∈ xs, ∃ v, lookUp? entry.1 ys = some v)
    (holds : Value → Value → Prop)
    (hvalues : ∀ entry ∈ xs, ∀ v, lookUp? entry.1 ys = some v →
      ∀ w, holds entry.2 w ↔ holds v w) (zs : List (Value × Value)) :
    (∀ entry ∈ xs, ∃ v, lookUp? entry.1 zs = some v ∧ holds entry.2 v) ↔
      ∀ entry ∈ ys, ∃ v, lookUp? entry.1 zs = some v ∧ holds entry.2 v := by
  constructor
  · intro hxs other hother
    obtain ⟨entry, hentry, hequal, hfound⟩ := h.exists_of_mem hlength hkeys hother
    obtain ⟨v, hv, hholds⟩ := hxs entry hentry
    rw [lookUp?_congr (h.exchangeable entry hentry) hequal] at hv
    exact ⟨v, hv, (hvalues entry hentry _ hfound v).mp hholds⟩
  · intro hys entry hentry
    obtain ⟨w, hw⟩ := hkeys entry hentry
    obtain ⟨k, hmem, hequal⟩ := lookUp?_eq_some hw
    obtain ⟨v, hv, hholds⟩ := hys (k, w) hmem
    rw [← lookUp?_congr (h.exchangeable entry hentry) hequal] at hv
    exact ⟨v, hv, (hvalues entry hentry w hw v).mpr hholds⟩

/-- A mapping can be exchanged where its values can, for an equality by which mappings are equal if
they have as many entries and equal values under loosely equal keys. -/
theorem Keyed.exchangeable_dict {equal : Value → Value → Bool} {entries : List (Value × Value)}
    (h : Keyed entries)
    (hdict : ∀ xs ys, equal (.dict xs) (.dict ys) = true ↔ xs.length = ys.length ∧
      ∀ entry ∈ xs, ∃ v, lookUp? entry.1 ys = some v ∧ equal entry.2 v = true)
    (honly : ∀ xs w, equal (.dict xs) w = true → ∃ ys, w = .dict ys)
    (hvalues : ∀ entry ∈ entries, Exchangeable equal entry.2) :
    Exchangeable equal (.dict entries) where
  refl := by
    refine (hdict entries entries).mpr ⟨rfl, fun entry hentry => ?_⟩
    exact ⟨entry.2, h.lookUp?_of_mem hentry, (hvalues entry hentry).refl⟩
  congr := by
    intro w hequal u
    obtain ⟨ys, rfl⟩ := honly entries w hequal
    obtain ⟨hlength, hwithin⟩ := (hdict entries ys).mp hequal
    have hkeys : ∀ entry ∈ entries, ∃ v, lookUp? entry.1 ys = some v := by
      intro entry hentry
      obtain ⟨v, hv, -⟩ := hwithin entry hentry
      exact ⟨v, hv⟩
    have hsame : ∀ zs, equal (.dict entries) (.dict zs) = true ↔
        equal (.dict ys) (.dict zs) = true := by
      intro zs
      rw [hdict, hdict, hlength]
      refine and_congr_right fun _ => h.forall_find_iff hlength hkeys (equal · ·) ?_ zs
      intro entry hentry v hv w
      obtain ⟨_, hv', hequal⟩ := hwithin entry hentry
      obtain rfl := Option.some.inj (hv.symm.trans hv')
      rw [(hvalues entry hentry).congr hequal]
    rw [Bool.eq_iff_iff]
    constructor
    · intro hu
      obtain ⟨zs, rfl⟩ := honly entries u hu
      exact (hsame zs).mp hu
    · intro hu
      obtain ⟨zs, rfl⟩ := honly ys u hu
      exact (hsame zs).mpr hu

/-! ### The loose equality is an equivalence -/

theorem exists_dict_of_looselyEqual (xs : List (Value × Value)) (w : Value)
    (h : looselyEqual (.dict xs) w = true) : ∃ ys, w = .dict ys := by
  cases w <;> simp_all [looselyEqual, place?]

theorem exchangeable_choiceFrom {source : Value} {options : List (Pattern Value)}
    (h : Exchangeable looselyEqual source) :
    Exchangeable patternsEqual (.choiceFrom source options) where
  refl := by simp [patternsEqual, h.refl]
  congr := by
    intro q hequal r
    cases q with
    | choiceFrom b _ =>
      cases r with
      | choiceFrom c _ => exact h.congr (by simpa [patternsEqual] using hequal) c
      | _ => rfl
    | _ => cases hequal

mutual

/-- The loose equality is an equivalence on the values without equal keys. -/
theorem exchangeable : (v : Value) → isWellKeyed v = true → Exchangeable looselyEqual v
  | .null, _ => .of_eq rfl fun w h => by cases w <;> simp_all [looselyEqual, place?]
  | .bool _, _ => exchangeable_of_place? rfl
  | .int _, _ => exchangeable_of_place? rfl
  | .float (.nan _), _ => exchangeable_nan _
  | .float (.infinite true), _ => exchangeable_of_place? rfl
  | .float (.infinite false), _ => exchangeable_of_place? rfl
  | .float (.finite true _), _ => exchangeable_of_place? rfl
  | .float (.finite false _), _ => exchangeable_of_place? rfl
  | .str _, _ => .of_eq (by simp [looselyEqual]) fun w h => by
      cases w <;> simp_all [looselyEqual, place?]
  | .bytes _, _ => .of_eq (by simp [looselyEqual]) fun w h => by
      cases w <;> simp_all [looselyEqual, place?]
  | .object _, _ => .of_eq (by simp [looselyEqual]) fun w h => by
      cases w <;> simp_all [looselyEqual, place?]
  | .marker _, _ => .of_eq (by simp [looselyEqual]) fun w h => by
      cases w <;> simp_all [looselyEqual, place?]
  | .seq form items, h =>
      .of_part (Value.seq form) (allExchangeable items (by simpa [isWellKeyed] using h))
        (by simp [looselyEqual]) fun a w h => by cases w <;> simp_all [looselyEqual, place?]
  | .dict entries, h =>
      have hentries := entriesExchangeable entries (by simpa [isWellKeyed] using h)
      hentries.1.exchangeable_dict looselyEqual_dict exists_dict_of_looselyEqual hentries.2
  | .pattern p, h =>
      .of_part Value.pattern (patternExchangeable p (by simpa [isWellKeyed] using h))
        (by simp [looselyEqual]) fun a w h => by cases w <;> simp_all [looselyEqual, place?]
termination_by structural v => v

theorem allExchangeable :
    (vs : List Value) → allWellKeyed vs = true → Exchangeable allLooselyEqual vs
  | [], _ => .of_eq rfl fun ws h => by cases ws <;> simp_all [allLooselyEqual]
  | v :: rest, h => by
      rw [allWellKeyed, Bool.and_eq_true] at h
      exact (exchangeable v h.1).cons (fun _ _ _ _ => rfl) (fun _ _ => rfl)
        (allExchangeable rest h.2)
termination_by structural vs => vs

theorem entriesExchangeable :
    (entries : List (Value × Value)) → entriesWellKeyed entries = true →
    Keyed entries ∧ ∀ entry ∈ entries, Exchangeable looselyEqual entry.2
  | [], _ => ⟨⟨by simp, .nil⟩, by simp⟩
  | (k, v) :: rest, h => by
      simp only [entriesWellKeyed, Bool.and_eq_true, List.all_eq_true, Bool.not_eq_true'] at h
      obtain ⟨⟨⟨hkey, hvalue⟩, hdistinct⟩, hrest⟩ := h
      obtain ⟨hkeyed, hvalues⟩ := entriesExchangeable rest hrest
      refine ⟨⟨?_, .cons hdistinct hkeyed.distinct⟩, ?_⟩
      · exact List.forall_mem_cons.mpr ⟨exchangeable k hkey, hkeyed.exchangeable⟩
      · exact List.forall_mem_cons.mpr ⟨exchangeable v hvalue, hvalues⟩
termination_by structural entries => entries

theorem patternExchangeable :
    (p : Pattern Value) → patternWellKeyed p = true → Exchangeable patternsEqual p
  | .wildcard, _ => .of_eq rfl fun q h => by cases q <;> simp_all [patternsEqual]
  | .typeCheck _, _ => .of_eq (by simp [patternsEqual]) fun q h => by
      cases q <;> simp_all [patternsEqual]
  | .unspecified _, _ => .of_eq (by simp [patternsEqual]) fun q h => by
      cases q <;> simp_all [patternsEqual]
  | .literal value, h =>
      .of_part Pattern.literal (exchangeable value (by simpa [patternWellKeyed] using h))
        (by simp [patternsEqual]) fun a q h => by cases q <;> simp_all [patternsEqual]
  | .misfit flaw value, h =>
      .of_part (Pattern.misfit flaw) (exchangeable value (by simpa [patternWellKeyed] using h))
        (by simp [patternsEqual]) fun a q h => by cases q <;> simp_all [patternsEqual]
  | .alternation options, h =>
      .of_part Pattern.alternation
        (allPatternsExchangeable options (by simpa [patternWellKeyed] using h))
        (by simp [patternsEqual]) fun a q h => by cases q <;> simp_all [patternsEqual]
  | .sequence elements, h =>
      .of_part Pattern.sequence
        (allPatternsExchangeable elements (by simpa [patternWellKeyed] using h))
        (by simp [patternsEqual]) fun a q h => by cases q <;> simp_all [patternsEqual]
  | .repeated inner mode bounds, h =>
      .of_part (Pattern.repeated · mode bounds)
        (patternExchangeable inner (by simpa [patternWellKeyed] using h))
        (by simp [patternsEqual]) fun a q h => by cases q <;> simp_all [patternsEqual]
  | .arrayOf inner bounds, h =>
      .of_part (Pattern.arrayOf · bounds)
        (patternExchangeable inner (by simpa [patternWellKeyed] using h))
        (by simp [patternsEqual]) fun a q h => by cases q <;> simp_all [patternsEqual]
  | .named label inner, h =>
      .of_part (Pattern.named label)
        (patternExchangeable inner (by simpa [patternWellKeyed] using h))
        (by simp [patternsEqual]) fun a q h => by cases q <;> simp_all [patternsEqual]
  | .choiceFrom source options, h =>
      exchangeable_choiceFrom (exchangeable source (by simp_all [patternWellKeyed]))
termination_by structural p => p

theorem allPatternsExchangeable : (ps : List (Pattern Value)) →
    allPatternsWellKeyed ps = true → Exchangeable allPatternsEqual ps
  | [], _ => .of_eq rfl fun qs h => by cases qs <;> simp_all [allPatternsEqual]
  | p :: rest, h => by
      rw [allPatternsWellKeyed, Bool.and_eq_true] at h
      exact (patternExchangeable p h.1).cons (fun _ _ _ _ => rfl) (fun _ _ => rfl)
        (allPatternsExchangeable rest h.2)
termination_by structural ps => ps

end

/-! ### Equal values of the same types -/

theorem ofInt_inj {m n : Int} (h : Place.ofInt m = Place.ofInt n) : m = n :=
  Int.eq_of_mul_eq_mul_right (Int.ne_of_gt (Int.natCast_pos.mpr Place.stepsPerUnit_pos))
    (Place.steps.inj h)

theorem strictlyEqual_float_congr {x y : Binary64} (h : x.place? = y.place?) (v : Value) :
    strictlyEqual (.float x) v = strictlyEqual (.float y) v := by
  cases v <;> simp [strictlyEqual, Binary64.equals, h]

theorem float_place?_of_looselyEqual {x y : Binary64}
    (h : looselyEqual (.float x) (.float y) = true) : x.place? = y.place? := by
  cases hx : x.place? with
  | some place =>
    have hplace : Value.place? (.float x) = some place := hx
    exact ((looselyEqual_of_place? hplace _).mp h).symm
  | none =>
    cases hy : y.place? with
    | none => rfl
    | some place => cases x <;> cases y <;> simp_all [looselyEqual, place?, Binary64.place?]

theorem exists_float_of_sameTypes {x : Binary64} {y : Value}
    (hequal : looselyEqual (.float x) y = true) (htypes : sameTypes (.float x) y = true) :
    ∃ other, y = .float other := by
  cases x <;> cases y <;> simp_all [looselyEqual, place?, sameTypes, typeName]

theorem allStrictlyEqual_cons_congr {x y : Value} {xs ys : List Value}
    (h : ∀ v, strictlyEqual x v = strictlyEqual y v)
    (hrest : ∀ vs, allStrictlyEqual xs vs = allStrictlyEqual ys vs) (vs : List Value) :
    allStrictlyEqual (x :: xs) vs = allStrictlyEqual (y :: ys) vs := by
  cases vs with
  | nil => rfl
  | cons v vs => rw [allStrictlyEqual, allStrictlyEqual, h, hrest]

mutual

/-- Equal values of the same types are strictly equal to the same values. -/
theorem strictlyEqual_congr : (x : Value) → isWellKeyed x = true → ∀ {y},
    looselyEqual x y = true → sameTypes x y = true →
      ∀ v, strictlyEqual x v = strictlyEqual y v
  | .null, _, y, hequal, _, v => by
      obtain rfl : y = .null := by cases y <;> simp_all [looselyEqual, place?]
      rfl
  | .bool _, _, y, hequal, htypes, v => by
      cases y with
      | bool b =>
        have hplace := (looselyEqual_of_place? (v := .bool _) rfl _).mp hequal
        have hnumber := ofInt_inj (Option.some.inj hplace)
        grind
      | _ => simp_all [looselyEqual, place?, sameTypes, typeName]
  | .int _, _, y, hequal, htypes, v => by
      cases y with
      | int b =>
        have hplace := (looselyEqual_of_place? (v := .int _) rfl _).mp hequal
        rw [ofInt_inj (Option.some.inj hplace)]
      | _ => simp_all [looselyEqual, place?, sameTypes, typeName]
  | .float _, _, y, hequal, htypes, v => by
      obtain ⟨other, rfl⟩ := exists_float_of_sameTypes hequal htypes
      exact strictlyEqual_float_congr (float_place?_of_looselyEqual hequal) v
  | .str _, _, y, hequal, _, v => by
      cases y <;> simp_all [looselyEqual, place?]
  | .bytes _, _, y, hequal, _, v => by
      cases y <;> simp_all [looselyEqual, place?]
  | .object _, _, y, hequal, _, v => by
      cases y <;> simp_all [looselyEqual, place?]
  | .marker _, _, y, hequal, _, v => by
      cases y <;> simp_all [looselyEqual, place?]
  | .seq form items, hkeyed, y, hequal, htypes, v => by
      cases y with
      | seq g ys =>
        simp only [looselyEqual, sameTypes, isWellKeyed, Bool.and_eq_true, beq_iff_eq]
          at hequal htypes hkeyed
        obtain ⟨rfl, hitems⟩ := hequal
        cases v with
        | seq g zs =>
          rw [strictlyEqual, strictlyEqual, allStrictlyEqual_congr items hkeyed hitems htypes.2]
        | _ => rfl
      | _ => cases hequal
  | .dict entries, hkeyed, y, hequal, htypes, v => by
      cases y with
      | dict ys =>
        simp only [sameTypes, isWellKeyed, entriesSameTypes_iff] at htypes hkeyed
        obtain ⟨hlength, hwithin⟩ := (looselyEqual_dict entries ys).mp hequal
        cases v with
        | dict zs =>
          rw [Bool.eq_iff_iff, strictlyEqual_dict, strictlyEqual_dict, hlength]
          refine and_congr_right fun _ =>
            (entriesExchangeable entries hkeyed).1.forall_find_iff hlength ?_
              (strictlyEqual · ·) ?_ zs
          · intro entry hentry
            obtain ⟨v, hv, -⟩ := hwithin entry hentry
            exact ⟨v, hv⟩
          · intro entry hentry v hv w
            obtain ⟨_, hv', hequal⟩ := hwithin entry hentry
            obtain ⟨_, hv'', hsame⟩ := htypes entry hentry
            obtain rfl := Option.some.inj (hv.symm.trans hv')
            obtain rfl := Option.some.inj (hv.symm.trans hv'')
            rw [entriesStrictlyEqual_congr entries hkeyed entry hentry hequal hsame]
        | _ => rfl
      | _ => cases hequal
  | .pattern p, hkeyed, y, hequal, _, v => by
      cases y with
      | pattern q =>
        simp only [looselyEqual, isWellKeyed] at hequal hkeyed
        cases v with
        | pattern r => exact (patternExchangeable p hkeyed).congr hequal r
        | _ => rfl
      | _ => cases hequal
termination_by structural x => x

theorem allStrictlyEqual_congr : (xs : List Value) → allWellKeyed xs = true → ∀ {ys},
    allLooselyEqual xs ys = true → allSameTypes xs ys = true →
      ∀ vs, allStrictlyEqual xs vs = allStrictlyEqual ys vs
  | [], _, ys, hequal, _, vs => by
      obtain rfl : ys = [] := by cases ys <;> simp_all [allLooselyEqual]
      rfl
  | x :: xs, hkeyed, ys, hequal, htypes, vs => by
      cases ys with
      | nil => cases hequal
      | cons y ys =>
        simp only [allLooselyEqual, allSameTypes, allWellKeyed, Bool.and_eq_true]
          at hequal htypes hkeyed
        exact allStrictlyEqual_cons_congr (strictlyEqual_congr x hkeyed.1 hequal.1 htypes.1)
          (allStrictlyEqual_congr xs hkeyed.2 hequal.2 htypes.2) vs
termination_by structural xs => xs

theorem entriesStrictlyEqual_congr : (xs : List (Value × Value)) → entriesWellKeyed xs = true →
    ∀ entry ∈ xs, ∀ {y}, looselyEqual entry.2 y = true → sameTypes entry.2 y = true →
      ∀ v, strictlyEqual entry.2 v = strictlyEqual y v
  | [], _, _, hentry, _, _, _, _ => by cases hentry
  | (k, x) :: xs, hkeyed, entry, hentry, y, hequal, htypes, v => by
      simp only [entriesWellKeyed, Bool.and_eq_true] at hkeyed
      obtain rfl | hentry := List.mem_cons.mp hentry
      · exact strictlyEqual_congr x hkeyed.1.1.2 hequal htypes v
      · exact entriesStrictlyEqual_congr xs hkeyed.2 entry hentry hequal htypes v
termination_by structural xs => xs

end

end Value

end Motif
