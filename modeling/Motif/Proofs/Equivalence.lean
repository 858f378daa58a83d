import Motif.Matching
import Motif.Proofs.Equality

/-!
The strict equality is an equivalence. It looks the keys of one mapping up in another one by the
loose equality, and from either side the same entries are found, since no two keys of a mapping are
equal. So what holds of the values under the keys holds of the mappings. Nothing that is not a
number may be compared, since that differs from itself.

The strict equality implies the loose one, and it takes no notice of the order of entries. A
literal matches just what is strictly equal to its value, so literals of strictly equal values
match alike.
-/

namespace Motif

namespace Value

/-- Induction over a value, down to the keys and values of mappings. What patterns hold does not
count as a part. -/
theorem induction {motive : Value → Prop}
    (null : motive .null)
    (bool : ∀ b, motive (.bool b))
    (int : ∀ n, motive (.int n))
    (float : ∀ x, motive (.float x))
    (str : ∀ text, motive (.str text))
    (bytes : ∀ bytes, motive (.bytes bytes))
    (seq : ∀ form items, (∀ v ∈ items, motive v) → motive (.seq form items))
    (dict : ∀ entries, (∀ entry ∈ entries, motive entry.1 ∧ motive entry.2) →
      motive (.dict entries))
    (object : ∀ name, motive (.object name))
    (pattern : ∀ p, motive (.pattern p))
    (marker : ∀ m, motive (.marker m))
    (v : Value) : motive v :=
  @Value.rec motive (fun vs => ∀ v ∈ vs, motive v)
    (fun entries => ∀ entry ∈ entries, motive entry.1 ∧ motive entry.2) (fun _ => True)
    (fun entry => motive entry.1 ∧ motive entry.2) (fun _ => True)
    null bool int float str bytes seq dict object (fun p _ => pattern p) marker
    (by simp) (fun _ _ hfirst hrest => List.forall_mem_cons.mpr ⟨hfirst, hrest⟩)
    (by simp) (fun _ _ hfirst hrest => List.forall_mem_cons.mpr ⟨hfirst, hrest⟩)
    trivial (fun _ _ => trivial) (fun _ => trivial) (fun _ _ => trivial) (fun _ _ => trivial)
    (fun _ _ _ _ => trivial) (fun _ _ _ => trivial) (fun _ _ _ => trivial) (fun _ => trivial)
    (fun _ _ _ => trivial) (fun _ _ _ _ => trivial) (fun _ _ hkey hvalue => ⟨hkey, hvalue⟩)
    trivial (fun _ _ _ _ => trivial) v

mutual

/-- Whether everything in a value that is a float is a number, keys of mappings included. Patterns
are compared by the loose equality, so what they hold does not matter. -/
def isNaNFree : Value → Bool
  | .float (.nan _) => false
  | .seq _ items => allNaNFree items
  | .dict entries => entriesNaNFree entries
  | .null | .bool _ | .int _ | .float _ | .str _ | .bytes _ | .object _ | .pattern _
  | .marker _ => true
termination_by structural v => v

def allNaNFree : List Value → Bool
  | [] => true
  | v :: rest => isNaNFree v && allNaNFree rest
termination_by structural vs => vs

def entriesNaNFree : List (Value × Value) → Bool
  | [] => true
  | (k, v) :: rest => isNaNFree k && isNaNFree v && entriesNaNFree rest
termination_by structural entries => entries

end

theorem allNaNFree_iff (vs : List Value) :
    allNaNFree vs = true ↔ ∀ v ∈ vs, isNaNFree v = true := by
  induction vs with
  | nil => simp [allNaNFree]
  | cons v rest ih => rw [allNaNFree, Bool.and_eq_true, ih, List.forall_mem_cons]

theorem entriesNaNFree_iff (entries : List (Value × Value)) :
    entriesNaNFree entries = true ↔
      ∀ entry ∈ entries, isNaNFree entry.1 = true ∧ isNaNFree entry.2 = true := by
  induction entries with
  | nil => simp [entriesNaNFree]
  | cons entry rest ih =>
    rw [entriesNaNFree, Bool.and_eq_true, Bool.and_eq_true, ih, List.forall_mem_cons]

theorem allWellKeyed_iff (vs : List Value) :
    allWellKeyed vs = true ↔ ∀ v ∈ vs, isWellKeyed v = true := by
  induction vs with
  | nil => simp [allWellKeyed]
  | cons v rest ih => rw [allWellKeyed, Bool.and_eq_true, ih, List.forall_mem_cons]

theorem entriesWellKeyed_iff (entries : List (Value × Value)) :
    entriesWellKeyed entries = true ↔
      (∀ entry ∈ entries, isWellKeyed entry.1 = true ∧ isWellKeyed entry.2 = true) ∧
        entries.Pairwise fun entry other => looselyEqual entry.1 other.1 = false := by
  induction entries with
  | nil => simp [entriesWellKeyed]
  | cons entry rest ih =>
    simp only [entriesWellKeyed, Bool.and_eq_true, ih, List.forall_mem_cons, List.pairwise_cons,
      List.all_eq_true, Bool.not_eq_true']
    exact and_and_and_comm

/-- A value in which no two keys of a mapping are equal and every float is a number. -/
structure Proper (v : Value) : Prop where
  wellKeyed : isWellKeyed v = true
  nanFree : isNaNFree v = true

theorem proper_seq {form : Form} {items : List Value} :
    Proper (.seq form items) ↔ ∀ v ∈ items, Proper v := by
  constructor
  · rintro ⟨hkeyed, hfree⟩ v hv
    exact ⟨(allWellKeyed_iff items).mp hkeyed v hv, (allNaNFree_iff items).mp hfree v hv⟩
  · intro h
    exact ⟨(allWellKeyed_iff items).mpr fun v hv => (h v hv).wellKeyed,
      (allNaNFree_iff items).mpr fun v hv => (h v hv).nanFree⟩

theorem proper_dict {entries : List (Value × Value)} :
    Proper (.dict entries) ↔ (∀ entry ∈ entries, Proper entry.1 ∧ Proper entry.2) ∧
      entries.Pairwise fun entry other => looselyEqual entry.1 other.1 = false := by
  constructor
  · rintro ⟨hkeyed, hfree⟩
    obtain ⟨hparts, hdistinct⟩ := (entriesWellKeyed_iff entries).mp hkeyed
    refine ⟨fun entry hentry => ?_, hdistinct⟩
    obtain ⟨hkey, hvalue⟩ := hparts entry hentry
    obtain ⟨hkeyFree, hvalueFree⟩ := (entriesNaNFree_iff entries).mp hfree entry hentry
    exact ⟨⟨hkey, hkeyFree⟩, hvalue, hvalueFree⟩
  · rintro ⟨hparts, hdistinct⟩
    refine ⟨(entriesWellKeyed_iff entries).mpr ⟨fun entry hentry => ?_, hdistinct⟩,
      (entriesNaNFree_iff entries).mpr fun entry hentry => ?_⟩
    · obtain ⟨hkey, hvalue⟩ := hparts entry hentry
      exact ⟨hkey.wellKeyed, hvalue.wellKeyed⟩
    · obtain ⟨hkey, hvalue⟩ := hparts entry hentry
      exact ⟨hkey.nanFree, hvalue.nanFree⟩

theorem Proper.keyed {entries : List (Value × Value)} (h : Proper (.dict entries)) :
    Keyed entries where
  exchangeable entry hentry :=
    entry.1.exchangeable ((proper_dict.mp h).1 entry hentry).1.wellKeyed
  distinct := (proper_dict.mp h).2

/-! ### The strict equality is an equivalence -/

theorem Exchangeable.all {items : List Value}
    (h : ∀ v ∈ items, Exchangeable strictlyEqual v) : Exchangeable allStrictlyEqual items := by
  induction items with
  | nil => exact .of_eq rfl fun vs hvs => by cases vs <;> simp_all [allStrictlyEqual]
  | cons v rest ih =>
    obtain ⟨hv, hrest⟩ := List.forall_mem_cons.mp h
    exact hv.cons (fun _ _ _ _ => rfl) (fun _ _ => rfl) (ih hrest)

theorem exchangeable_float {x : Binary64} (h : isNaNFree (.float x) = true) :
    Exchangeable strictlyEqual (.float x) where
  refl := by
    rcases x with tag | negative | ⟨negative, steps⟩
    · cases h
    · cases negative <;> rfl
    · cases negative <;> simp [strictlyEqual, Binary64.equals, Binary64.place?]
  congr := by
    intro w hequal u
    cases w with
    | float y =>
      have hplace : x.place? = y.place? := by
        simp only [strictlyEqual, Binary64.equals] at hequal
        split at hequal
        · next p q hp hq => rw [hp, hq, beq_iff_eq.mp hequal]
        · cases hequal
      exact strictlyEqual_float_congr hplace u
    | _ => cases hequal

theorem Proper.exchangeable {v : Value} (h : Proper v) : Exchangeable strictlyEqual v := by
  induction v using Value.induction with
  | null => exact .of_eq rfl fun w hw => by cases w <;> simp_all [strictlyEqual]
  | bool b | int n | str text | bytes bytes | object name | marker m =>
    exact .of_eq (by simp [strictlyEqual]) fun w hw => by cases w <;> simp_all [strictlyEqual]
  | float x => exact exchangeable_float h.nanFree
  | seq form items ih =>
    have hitems := Exchangeable.all fun v hv => ih v hv (proper_seq.mp h v hv)
    exact .of_part (Value.seq form) hitems (by simp [strictlyEqual])
      fun a w hw => by cases w <;> simp_all [strictlyEqual]
  | dict entries ih =>
    refine h.keyed.exchangeable_dict strictlyEqual_dict ?_ fun entry hentry => ?_
    · intro xs w hw
      cases w <;> simp_all [strictlyEqual]
    · exact (ih entry hentry).2 ((proper_dict.mp h).1 entry hentry).2
  | pattern p =>
    exact .of_part Value.pattern (patternExchangeable p h.wellKeyed) (by simp [strictlyEqual])
      fun a w hw => by cases w <;> simp_all [strictlyEqual]

theorem allLooselyEqual_of_allStrictlyEqual {xs ys : List Value}
    (h : ∀ x ∈ xs, ∀ y, strictlyEqual x y = true → looselyEqual x y = true)
    (hequal : allStrictlyEqual xs ys = true) : allLooselyEqual xs ys = true := by
  induction xs generalizing ys with
  | nil =>
    cases ys with
    | nil => rfl
    | cons y ys => cases hequal
  | cons x xs ih =>
    cases ys with
    | nil => cases hequal
    | cons y ys =>
      obtain ⟨hx, hxs⟩ := List.forall_mem_cons.mp h
      rw [allStrictlyEqual, Bool.and_eq_true] at hequal
      rw [allLooselyEqual, Bool.and_eq_true]
      exact ⟨hx y hequal.1, ih hxs hequal.2⟩

/-- What is strictly equal is equal. -/
theorem looselyEqual_of_strictlyEqual {v w : Value} (h : strictlyEqual v w = true) :
    looselyEqual v w = true := by
  induction v using Value.induction generalizing w with
  | null | bool b | int n | str text | bytes bytes | object name | pattern p | marker m =>
    cases w <;> simp_all [strictlyEqual, looselyEqual, place?]
  | float x =>
    cases w with
    | float y =>
      simp only [strictlyEqual, Binary64.equals] at h
      split at h
      · next p q hp hq =>
        have hplace : Value.place? (.float x) = some p := hp
        exact (looselyEqual_of_place? hplace _).mpr (beq_iff_eq.mp h ▸ hq)
      · cases h
    | _ => cases h
  | seq form items ih =>
    cases w with
    | seq form' others =>
      rw [strictlyEqual, Bool.and_eq_true] at h
      rw [looselyEqual, Bool.and_eq_true]
      exact ⟨h.1, allLooselyEqual_of_allStrictlyEqual (fun v hv w => ih v hv) h.2⟩
    | _ => cases h
  | dict entries ih =>
    cases w with
    | dict others =>
      obtain ⟨hlength, hwithin⟩ := (strictlyEqual_dict entries others).mp h
      refine (looselyEqual_dict entries others).mpr ⟨hlength, fun entry hentry => ?_⟩
      obtain ⟨v, hv, hequal⟩ := hwithin entry hentry
      exact ⟨v, hv, (ih entry hentry).2 hequal⟩
    | _ => cases h

/-! ### The order of entries -/

/-- The same value, but for the order of the entries of mappings, on any level. Keys are hashed and
hold no mappings, so they stay as they are. -/
inductive Reordered : Value → Value → Prop where
  | refl (v : Value) : Reordered v v
  | trans {u v w : Value} (first : Reordered u v) (second : Reordered v w) : Reordered u w
  | entries {xs ys : List (Value × Value)} (h : xs.Perm ys) : Reordered (.dict xs) (.dict ys)
  | item {v w : Value} (form : Form) (before after : List Value) (h : Reordered v w) :
    Reordered (.seq form (before ++ v :: after)) (.seq form (before ++ w :: after))
  | value {v w : Value} (key : Value) (before after : List (Value × Value))
    (h : Reordered v w) :
    Reordered (.dict (before ++ (key, v) :: after)) (.dict (before ++ (key, w) :: after))

/-- Entries of other values under the same keys, in the same places. -/
theorem proper_dict_congr {xs ys : List (Value × Value)} (h : Proper (.dict xs))
    (hkeys : xs.map (·.1) = ys.map (·.1)) (hparts : ∀ entry ∈ ys, Proper entry.1 ∧ Proper entry.2) :
    Proper (.dict ys) := by
  have hdistinct : (xs.map (·.1)).Pairwise fun k l => looselyEqual k l = false :=
    List.pairwise_map.mpr (proper_dict.mp h).2
  rw [hkeys] at hdistinct
  exact proper_dict.mpr ⟨hparts, List.pairwise_map.mp hdistinct⟩

theorem Proper.perm {xs ys : List (Value × Value)} (h : Proper (.dict xs)) (hperm : xs.Perm ys) :
    Proper (.dict ys) := by
  obtain ⟨hparts, hdistinct⟩ := proper_dict.mp h
  refine proper_dict.mpr ⟨fun entry hentry => hparts entry (hperm.mem_iff.mpr hentry), ?_⟩
  -- That two keys differ can only be turned around where the equality is known to be symmetric.
  have hdiffer : xs.Pairwise fun entry other => Exchangeable looselyEqual entry.1 →
      Exchangeable looselyEqual other.1 → looselyEqual entry.1 other.1 = false :=
    hdistinct.imp fun hne _ _ => hne
  have hturned := hperm.pairwise hdiffer fun {entry other} hne hother hentry => by
    refine Bool.eq_false_iff.mpr fun hequal => ?_
    have hback := hne hentry hother
    rw [hother.symm hequal] at hback
    cases hback
  refine hturned.imp_of_mem fun {entry other} hentry hother hne => hne ?_ ?_
  · exact h.keyed.exchangeable entry (hperm.mem_iff.mpr hentry)
  · exact h.keyed.exchangeable other (hperm.mem_iff.mpr hother)

theorem allStrictlyEqual_append_cons {v w : Value} {before after : List Value}
    (hbefore : ∀ item ∈ before, Exchangeable strictlyEqual item)
    (hafter : ∀ item ∈ after, Exchangeable strictlyEqual item) (h : strictlyEqual v w = true) :
    allStrictlyEqual (before ++ v :: after) (before ++ w :: after) = true := by
  induction before with
  | nil =>
    rw [List.nil_append, List.nil_append, allStrictlyEqual, h, (Exchangeable.all hafter).refl]
    rfl
  | cons item rest ih =>
    obtain ⟨hitem, hrest⟩ := List.forall_mem_cons.mp hbefore
    rw [List.cons_append, List.cons_append, allStrictlyEqual, hitem.refl, ih hrest]
    rfl

/-- Reordering keeps a value as proper as it is, and strictly equal. -/
theorem Reordered.strictlyEqual {v w : Value} (h : Reordered v w) (hv : Proper v) :
    Proper w ∧ v.strictlyEqual w = true := by
  induction h with
  | refl v => exact ⟨hv, hv.exchangeable.refl⟩
  | trans _ _ ihfirst ihsecond =>
    obtain ⟨hbetween, hfirst⟩ := ihfirst hv
    obtain ⟨hw, hsecond⟩ := ihsecond hbetween
    exact ⟨hw, by rw [hv.exchangeable.congr hfirst, hsecond]⟩
  | @entries xs ys hperm =>
    have hys := hv.perm hperm
    refine ⟨hys, (strictlyEqual_dict xs ys).mpr ⟨hperm.length_eq, fun entry hentry => ?_⟩⟩
    have hvalue := ((proper_dict.mp hv).1 entry hentry).2
    exact ⟨entry.2, hys.keyed.lookUp?_of_mem (hperm.mem_iff.mp hentry), hvalue.exchangeable.refl⟩
  | item form before after _ ih =>
    obtain ⟨hbefore, hrest⟩ := List.forall_mem_append.mp (proper_seq.mp hv)
    obtain ⟨hv, hafter⟩ := List.forall_mem_cons.mp hrest
    obtain ⟨hw, hequal⟩ := ih hv
    refine ⟨proper_seq.mpr (List.forall_mem_append.mpr
      ⟨hbefore, List.forall_mem_cons.mpr ⟨hw, hafter⟩⟩), ?_⟩
    rw [Value.strictlyEqual, beq_self_eq_true, Bool.true_and]
    exact allStrictlyEqual_append_cons (fun item hitem => (hbefore item hitem).exchangeable)
      (fun item hitem => (hafter item hitem).exchangeable) hequal
  | @value v w key before after _ ih =>
    obtain ⟨hbefore, hrest⟩ := List.forall_mem_append.mp (proper_dict.mp hv).1
    obtain ⟨⟨hkey, hvalue⟩, hafter⟩ := List.forall_mem_cons.mp hrest
    obtain ⟨hw, hequal⟩ := ih hvalue
    have hnew : Proper (.dict (before ++ (key, w) :: after)) :=
      proper_dict_congr hv (by simp) (List.forall_mem_append.mpr
        ⟨hbefore, List.forall_mem_cons.mpr ⟨⟨hkey, hw⟩, hafter⟩⟩)
    refine ⟨hnew, (strictlyEqual_dict _ _).mpr ⟨by simp, fun entry hentry => ?_⟩⟩
    have hproper := ((proper_dict.mp hv).1 entry hentry).2
    rw [List.mem_append, List.mem_cons, or_left_comm, ← List.mem_append] at hentry
    obtain rfl | hentry := hentry
    · have hmem : (key, w) ∈ before ++ (key, w) :: after := by simp
      exact ⟨w, hnew.keyed.lookUp?_of_mem hmem, hequal⟩
    · refine ⟨entry.2, hnew.keyed.lookUp?_of_mem ?_, hproper.exchangeable.refl⟩
      rw [List.mem_append, List.mem_cons, or_left_comm, ← List.mem_append]
      exact Or.inr hentry

theorem strictlyEqual_reordered {a b a' b' : Value} (ha : Proper a) (hb : Proper b)
    (hfirst : Reordered a a') (hsecond : Reordered b b') :
    strictlyEqual a' b' = strictlyEqual a b := by
  have hequal : strictlyEqual b b' = true := (hsecond.strictlyEqual hb).2
  rw [← ha.exchangeable.congr (hfirst.strictlyEqual ha).2, Bool.eq_iff_iff]
  constructor
  · intro h
    rw [ha.exchangeable.congr h]
    exact hb.exchangeable.symm hequal
  · intro h
    rw [ha.exchangeable.congr h]
    exact hequal

/-- The strict equality is an equivalence on proper values. It is finer than the loose equality, and
the order of entries makes no difference to it. So literals of strictly equal values match the
same values, in the same way, and the literal of a value matches that value. -/
theorem strictlyEqual_equivalence {a b : Value} (ha : Proper a) (hb : Proper b) :
    strictlyEqual a a = true ∧
      (strictlyEqual a b = true → strictlyEqual b a = true) ∧
      (∀ c, strictlyEqual a b = true → strictlyEqual b c = true → strictlyEqual a c = true) ∧
      (strictlyEqual a b = true → looselyEqual a b = true) ∧
      (∀ a' b', Reordered a a' → Reordered b b' → strictlyEqual a' b' = strictlyEqual a b) ∧
      (strictlyEqual a b = true → ∀ v limits tracer,
        (Pattern.literal a).matchAgainst v limits tracer =
          (Pattern.literal b).matchAgainst v limits tracer) ∧
      ∀ limits tracer,
        ((Pattern.literal a).matchAgainst a limits tracer).outcome = .matched [] := by
  have hexchange : Exchangeable strictlyEqual a := ha.exchangeable
  refine ⟨hexchange.refl, hexchange.symm, fun c hequal hnext => ?_, looselyEqual_of_strictlyEqual,
    fun a' b' => strictlyEqual_reordered ha hb, fun hequal v limits tracer => ?_,
    fun limits tracer => ?_⟩
  · rw [hexchange.congr hequal]
    exact hnext
  · simp only [Pattern.matchAgainst, Pattern.bind, Pattern.bindWith, hexchange.congr hequal v]
  · simp only [Pattern.matchAgainst, Pattern.bind, Pattern.bindWith, hexchange.refl, Run.guard,
      if_true, Run.succeed]

/-- Two mappings with their entries in different orders. One of the keys is equal to the other's
without being of its type. -/
theorem strictlyEqual_equivalence_mapping :
    let a := Value.dict [(.int 1, .list [.str "x"]), (.str "k", .float (.finite true 0))]
    let b := Value.dict [(.str "k", .float (.finite false 0)), (.bool true, .list [.str "x"])]
    Proper a ∧ Proper b ∧ strictlyEqual a b = true ∧ strictlyEqual b a = true ∧
      looselyEqual a b = true := by
  intro a b
  have ha : Proper a := ⟨by decide +kernel, by decide +kernel⟩
  have hb : Proper b := ⟨by decide +kernel, by decide +kernel⟩
  have hequal : strictlyEqual a b = true := by decide +kernel
  obtain ⟨-, hsymm, -, hloose, -⟩ := strictlyEqual_equivalence ha hb
  exact ⟨ha, hb, hequal, hsymm hequal, hloose hequal⟩

end Value

end Motif
