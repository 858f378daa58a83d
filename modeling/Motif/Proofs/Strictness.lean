import Mathlib.Data.List.Perm.Subperm
import Motif.Proofs.Equivalence

/-!
How strict the strict equality is. Two values are alike when they are of one type, all the way
down: sequences item by item, and mappings entry by entry, once their entries are paired, with
their keys as much as with their values. What is alike is strictly equal. The other way round, the
strict equality pairs the entries of two mappings by the loose equality of their keys and compares
the values only. So it falls short of likeness where two keys are equal without being of the same
types, and nowhere else.
-/

namespace Motif

namespace Value

/-- What is compared as a whole and is no pattern. -/
def isAtom : Value → Bool
  | .seq .. | .dict _ | .pattern _ => false
  | .null | .bool _ | .int _ | .float _ | .str _ | .bytes _ | .object _ | .marker _ => true

/-- Values of one type that are equal, with alike parts. The entries of a mapping may be paired with
those of another one in any order. Patterns that are equal are of one kind. -/
inductive Alike : Value → Value → Prop where
  | atom {v w : Value} (hatom : v.isAtom = true) (htype : v.typeName = w.typeName)
    (hequal : looselyEqual v w = true) : Alike v w
  | pattern {p q : Pattern Value} (hequal : patternsEqual p q = true) :
    Alike (.pattern p) (.pattern q)
  | seq (form : Form) {pairs : List (Value × Value)}
    (hpairs : ∀ pair ∈ pairs, Alike pair.1 pair.2) :
    Alike (.seq form (pairs.map (·.1))) (.seq form (pairs.map (·.2)))
  | dict {pairs : List ((Value × Value) × (Value × Value))} {entries : List (Value × Value)}
    (hperm : (pairs.map (·.2)).Perm entries)
    (hkeys : ∀ pair ∈ pairs, Alike pair.1.1 pair.2.1)
    (hvalues : ∀ pair ∈ pairs, Alike pair.1.2 pair.2.2) :
    Alike (.dict (pairs.map (·.1))) (.dict entries)

mutual

/-- Whether keys that are equal are strictly equal, wherever the strict equality of two values has
to do with mappings. -/
def keysAlike : Value → Value → Bool
  | .seq _ xs, .seq _ ys => allKeysAlike xs ys
  | .dict xs, .dict ys => entriesKeysAlike xs ys
  | _, _ => true
termination_by structural v => v

def allKeysAlike : List Value → List Value → Bool
  | x :: xs, y :: ys => keysAlike x y && allKeysAlike xs ys
  | _, _ => true
termination_by structural vs => vs

def entriesKeysAlike : List (Value × Value) → List (Value × Value) → Bool
  | [], _ => true
  | (k, v) :: rest, others =>
    (match others.find? fun other => looselyEqual k other.1 with
      | some other => strictlyEqual k other.1 && keysAlike k other.1 && keysAlike v other.2
      | none => true) && entriesKeysAlike rest others
termination_by structural entries => entries

end

/-- Two values are strictly equal, and so are the keys in them. -/
def Agree (v w : Value) : Prop := strictlyEqual v w = true ∧ keysAlike v w = true

theorem entriesKeysAlike_iff (xs ys : List (Value × Value)) :
    entriesKeysAlike xs ys = true ↔ ∀ entry ∈ xs, ∀ other,
      (ys.find? fun other => looselyEqual entry.1 other.1) = some other →
        Agree entry.1 other.1 ∧ keysAlike entry.2 other.2 = true := by
  induction xs with
  | nil => simp [entriesKeysAlike]
  | cons entry rest ih =>
    rw [entriesKeysAlike, Bool.and_eq_true, ih, List.forall_mem_cons]
    cases ys.find? fun other => looselyEqual entry.1 other.1 <;> simp [Agree]

theorem agree_atom {v w : Value} (hv : Proper v) (hw : Proper w) (hatom : v.isAtom = true)
    (htype : v.typeName = w.typeName) (hequal : looselyEqual v w = true) : Agree v w := by
  have hsame : sameTypes v w = true := by
    cases v with
    | seq | dict | pattern => cases hatom
    | _ => simp [sameTypes, htype]
  refine ⟨?_, ?_⟩
  · rw [strictlyEqual_congr v hv.wellKeyed hequal hsame]
    exact hw.exchangeable.refl
  · cases v with
    | seq | dict | pattern => cases hatom
    | _ => rfl

theorem typeName_of_strictlyEqual {v w : Value} (h : strictlyEqual v w = true)
    (hatom : v.isAtom = true) : v.typeName = w.typeName := by
  cases v with
  | seq | dict | pattern => cases hatom
  | _ =>
    cases w with
    | null | bool | int | float | str | bytes | object | marker => first | rfl | cases h
    | _ => cases h

/-- Sequences agree when their items do, paired in their order. -/
theorem allStrictlyEqual_iff_pairs (xs ys : List Value) :
    allStrictlyEqual xs ys = true ∧ allKeysAlike xs ys = true ↔
      ∃ pairs : List (Value × Value), pairs.map (·.1) = xs ∧ pairs.map (·.2) = ys ∧
        ∀ pair ∈ pairs, Agree pair.1 pair.2 := by
  constructor
  · rintro ⟨hequal, hkeys⟩
    induction xs generalizing ys with
    | nil =>
      cases ys with
      | nil => exact ⟨[], rfl, rfl, by simp⟩
      | cons y ys => cases hequal
    | cons x xs ih =>
      cases ys with
      | nil => cases hequal
      | cons y ys =>
        rw [allStrictlyEqual, Bool.and_eq_true] at hequal
        rw [allKeysAlike, Bool.and_eq_true] at hkeys
        obtain ⟨pairs, rfl, rfl, hpairs⟩ := ih ys hequal.2 hkeys.2
        exact ⟨(x, y) :: pairs, rfl, rfl,
          List.forall_mem_cons.mpr ⟨⟨hequal.1, hkeys.1⟩, hpairs⟩⟩
  · rintro ⟨pairs, rfl, rfl, hpairs⟩
    induction pairs with
    | nil => exact ⟨rfl, rfl⟩
    | cons pair rest ih =>
      obtain ⟨⟨hequal, hkeys⟩, hrest⟩ := List.forall_mem_cons.mp hpairs
      obtain ⟨hrestEqual, hrestKeys⟩ := ih hrest
      simp only [List.map_cons, allStrictlyEqual, allKeysAlike, hequal, hkeys, hrestEqual,
        hrestKeys, Bool.and_self, and_self]

theorem agree_seq_iff {form form' : Form} {xs ys : List Value} :
    Agree (.seq form xs) (.seq form' ys) ↔ form = form' ∧
      ∃ pairs : List (Value × Value), pairs.map (·.1) = xs ∧ pairs.map (·.2) = ys ∧
        ∀ pair ∈ pairs, Agree pair.1 pair.2 := by
  rw [Agree, strictlyEqual, keysAlike, Bool.and_eq_true, beq_iff_eq, and_assoc,
    allStrictlyEqual_iff_pairs]

/-- If each has a partner, they can be paired with their partners, all at once. -/
theorem exists_pairs {α β : Type} {related : α → β → Prop} {xs : List α}
    (h : ∀ x ∈ xs, ∃ y, related x y) :
    ∃ pairs : List (α × β), pairs.map (·.1) = xs ∧ ∀ pair ∈ pairs, related pair.1 pair.2 := by
  induction xs with
  | nil => exact ⟨[], rfl, by simp⟩
  | cons x xs ih =>
    obtain ⟨⟨y, hy⟩, hxs⟩ := List.forall_mem_cons.mp h
    obtain ⟨pairs, rfl, hpairs⟩ := ih hxs
    exact ⟨(x, y) :: pairs, rfl, List.forall_mem_cons.mpr ⟨hy, hpairs⟩⟩

/-- Partners under equal keys are different entries for different keys. So when there are as many
entries on the other side, all of them are partners. -/
theorem Keyed.perm_partners {pairs : List ((Value × Value) × (Value × Value))}
    {ys : List (Value × Value)} (h : Keyed (pairs.map (·.1))) (hlength : pairs.length = ys.length)
    (hpairs : ∀ pair ∈ pairs, pair.2 ∈ ys ∧ looselyEqual pair.1.1 pair.2.1 = true) :
    (pairs.map (·.2)).Perm ys := by
  have hdistinct := List.pairwise_map.mp h.distinct
  have hnodup : (pairs.map (·.2)).Nodup := by
    -- Two keys with one partner would be equal to each other.
    refine List.pairwise_map.mpr (hdistinct.imp_of_mem fun {pair later} hpair hlater hne heq => ?_)
    have hexchange := h.exchangeable pair.1 (List.mem_map_of_mem hpair)
    have hlaterExchange := h.exchangeable later.1 (List.mem_map_of_mem hlater)
    have hback := hlaterExchange.symm (hpairs later hlater).2
    rw [hexchange.congr (hpairs pair hpair).2, heq, hback] at hne
    cases hne
  have hsubset : pairs.map (·.2) ⊆ ys := by
    intro other hother
    obtain ⟨pair, hpair, rfl⟩ := List.mem_map.mp hother
    exact (hpairs pair hpair).1
  refine (List.subperm_of_subset hnodup hsubset).perm_of_length_le ?_
  rw [List.length_map]
  exact Nat.le_of_eq hlength.symm

/-- Mappings agree when their entries can be paired one to one so that keys and values agree. -/
theorem agree_dict_iff {xs ys : List (Value × Value)} (hxs : Keyed xs) (hys : Keyed ys) :
    Agree (.dict xs) (.dict ys) ↔
      ∃ pairs : List ((Value × Value) × (Value × Value)), pairs.map (·.1) = xs ∧
        (pairs.map (·.2)).Perm ys ∧
        ∀ pair ∈ pairs, Agree pair.1.1 pair.2.1 ∧ Agree pair.1.2 pair.2.2 := by
  rw [Agree, strictlyEqual_dict, keysAlike, entriesKeysAlike_iff]
  constructor
  · rintro ⟨⟨hlength, hwithin⟩, hkeys⟩
    have hpartner : ∀ entry ∈ xs, ∃ other : Value × Value, (other ∈ ys ∧
        looselyEqual entry.1 other.1 = true) ∧
        Agree entry.1 other.1 ∧ Agree entry.2 other.2 := by
      intro entry hentry
      obtain ⟨v, hv, hequal⟩ := hwithin entry hentry
      obtain ⟨other, hfound, rfl⟩ := Option.map_eq_some_iff.mp hv
      obtain ⟨hagree, halike⟩ := hkeys entry hentry other hfound
      have hloose : looselyEqual entry.1 other.1 = true := by simpa using List.find?_some hfound
      exact ⟨other, ⟨List.mem_of_find?_eq_some hfound, hloose⟩, hagree, hequal, halike⟩
    obtain ⟨pairs, rfl, hpairs⟩ := exists_pairs hpartner
    rw [List.length_map] at hlength
    exact ⟨pairs, rfl, hxs.perm_partners hlength fun pair hpair => (hpairs pair hpair).1,
      fun pair hpair => (hpairs pair hpair).2⟩
  · rintro ⟨pairs, rfl, hperm, hpairs⟩
    -- Strictly equal keys are equal, so what a key finds is its partner.
    have hfound : ∀ pair ∈ pairs,
        (ys.find? fun other => looselyEqual pair.1.1 other.1) = some pair.2 := by
      intro pair hpair
      have hloose := looselyEqual_of_strictlyEqual (hpairs pair hpair).1.1
      exact hys.find?_of_mem (hperm.mem_iff.mp (List.mem_map_of_mem hpair))
        (hxs.exchangeable pair.1 (List.mem_map_of_mem hpair)) hloose
    refine ⟨⟨?_, fun entry hentry => ?_⟩, fun entry hentry other hother => ?_⟩
    · rw [← hperm.length_eq, List.length_map, List.length_map]
    · obtain ⟨pair, hpair, rfl⟩ := List.mem_map.mp hentry
      exact ⟨pair.2.2, by rw [lookUp?, hfound pair hpair, Option.map_some],
        (hpairs pair hpair).2.1⟩
    · obtain ⟨pair, hpair, rfl⟩ := List.mem_map.mp hentry
      obtain rfl := Option.some.inj ((hfound pair hpair).symm.trans hother)
      exact ⟨(hpairs pair hpair).1, (hpairs pair hpair).2.2⟩

/-- What is alike is strictly equal, keys and all. -/
theorem Alike.agree {v w : Value} (h : Alike v w) (hv : Proper v) (hw : Proper w) : Agree v w := by
  induction h with
  | atom hatom htype hequal => exact agree_atom hv hw hatom htype hequal
  | pattern hequal => exact ⟨hequal, rfl⟩
  | @seq form pairs _ ih =>
    refine agree_seq_iff.mpr ⟨rfl, pairs, rfl, rfl, fun pair hpair => ih pair hpair ?_ ?_⟩
    · exact proper_seq.mp hv _ (List.mem_map_of_mem hpair)
    · exact proper_seq.mp hw _ (List.mem_map_of_mem hpair)
  | @dict pairs entries hperm _ _ ihkeys ihvalues =>
    refine (agree_dict_iff hv.keyed hw.keyed).mpr ⟨pairs, rfl, hperm, fun pair hpair => ?_⟩
    obtain ⟨hkey, hvalue⟩ := (proper_dict.mp hv).1 _ (List.mem_map_of_mem hpair)
    obtain ⟨hotherKey, hotherValue⟩ :=
      (proper_dict.mp hw).1 _ (hperm.mem_iff.mp (List.mem_map_of_mem hpair))
    exact ⟨ihkeys pair hpair hkey hotherKey, ihvalues pair hpair hvalue hotherValue⟩

/-- What is strictly equal, keys and all, is alike. -/
theorem Agree.alike {v w : Value} (h : Agree v w) (hv : Proper v) (hw : Proper w) : Alike v w := by
  induction v using Value.induction generalizing w with
  | null | bool b | int n | float x | str text | bytes bytes | object name | marker m =>
    have htype : Value.typeName _ = w.typeName := typeName_of_strictlyEqual h.1 rfl
    exact .atom rfl htype (looselyEqual_of_strictlyEqual h.1)
  | pattern p =>
    cases w with
    | pattern q => exact .pattern h.1
    | _ => cases h.1
  | seq form items ih =>
    cases w with
    | seq form' others =>
      obtain ⟨rfl, pairs, rfl, rfl, hpairs⟩ := agree_seq_iff.mp h
      refine .seq form fun pair hpair => ?_
      have hitem : pair.1 ∈ pairs.map (·.1) := List.mem_map_of_mem hpair
      have hother : pair.2 ∈ pairs.map (·.2) := List.mem_map_of_mem hpair
      exact ih _ hitem (hpairs pair hpair) (proper_seq.mp hv _ hitem) (proper_seq.mp hw _ hother)
    | _ => cases h.1
  | dict entries ih =>
    cases w with
    | dict others =>
      obtain ⟨pairs, rfl, hperm, hpairs⟩ := (agree_dict_iff hv.keyed hw.keyed).mp h
      have hparts : ∀ pair ∈ pairs, Alike pair.1.1 pair.2.1 ∧ Alike pair.1.2 pair.2.2 := by
        intro pair hpair
        have hentry : pair.1 ∈ pairs.map (·.1) := List.mem_map_of_mem hpair
        have hother : pair.2 ∈ others := hperm.mem_iff.mp (List.mem_map_of_mem hpair)
        obtain ⟨hkey, hvalue⟩ := (proper_dict.mp hv).1 pair.1 hentry
        obtain ⟨hotherKey, hotherValue⟩ := (proper_dict.mp hw).1 pair.2 hother
        obtain ⟨hkeys, hvalues⟩ := hpairs pair hpair
        exact ⟨(ih pair.1 hentry).1 hkeys hkey hotherKey,
          (ih pair.1 hentry).2 hvalues hvalue hotherValue⟩
      exact .dict hperm (fun pair hpair => (hparts pair hpair).1)
        fun pair hpair => (hparts pair hpair).2
    | _ => cases h.1

/-- Two values are alike just where the strict equality holds and the keys that it pairs are
strictly equal, which it leaves open. So it is as strict as it can be wherever no two keys that
stand for the same differ in type. -/
theorem alike_iff_strictlyEqual {v w : Value} (hv : Proper v) (hw : Proper w) :
    Alike v w ↔ strictlyEqual v w = true ∧ keysAlike v w = true :=
  ⟨fun h => h.agree hv hw, fun h => Agree.alike h hv hw⟩

/-- A mapping with a list in it, and the same one with its entries in the other order. -/
theorem alike_iff_strictlyEqual_mapping :
    let v := Value.dict [(.int 1, .list [.str "x"]), (.str "k", .float (.finite true 0))]
    let w := Value.dict [(.str "k", .float (.finite false 0)), (.int 1, .list [.str "x"])]
    Proper v ∧ Proper w ∧ strictlyEqual v w = true ∧ keysAlike v w = true ∧ Alike v w := by
  intro v w
  have hv : Proper v := ⟨by decide +kernel, by decide +kernel⟩
  have hw : Proper w := ⟨by decide +kernel, by decide +kernel⟩
  have hequal : strictlyEqual v w = true := by decide +kernel
  have hkeys : keysAlike v w = true := by decide +kernel
  exact ⟨hv, hw, hequal, hkeys, (alike_iff_strictlyEqual hv hw).mpr ⟨hequal, hkeys⟩⟩

/-- A mapping from one and a mapping from truth are strictly equal, and they are not alike. -/
theorem not_alike_one_true :
    let v := Value.dict [(.int 1, .str "x")]
    let w := Value.dict [(.bool true, .str "x")]
    Proper v ∧ Proper w ∧ strictlyEqual v w = true ∧ ¬ Alike v w := by
  intro v w
  have hv : Proper v := ⟨by decide +kernel, by decide +kernel⟩
  have hw : Proper w := ⟨by decide +kernel, by decide +kernel⟩
  have hkeys : keysAlike v w = false := by decide +kernel
  refine ⟨hv, hw, by decide +kernel, fun h => ?_⟩
  rw [(h.agree hv hw).2] at hkeys
  cases hkeys

end Value

end Motif
