import Mathlib.Data.List.Perm.Basic
import Motif.Proofs.Building
import Motif.Sorting

/-!
Sorting rearranges and does nothing else. Whatever the comparison says, and even if it contradicts
itself, as many elements of each sort come out as went in. The elements pass through runs, bursts
and merges; each of these hands on all that it is given, so whatever test is made of the elements,
the number of those that pass it stays the same.
-/

namespace Motif.Sorting

variable {α ε : Type} {before : Comparison α ε}

theorem countP_take_add_drop (test : α → Bool) (count : Nat) (xs : List α) :
    (xs.take count).countP test + (xs.drop count).countP test = xs.countP test := by
  rw [← List.countP_append, List.take_append_drop]

/-! ### Runs -/

theorem countP_continueRun (test : α → Bool) {descending : Bool} {run elements out rest : List α}
    {last : α} (h : continueRun before descending run last elements = .ok (out, rest)) :
    out.countP test + rest.countP test =
      (last :: run).countP test + elements.countP test := by
  induction elements generalizing run last with
  | nil =>
    cases h
    rfl
  | cons next elements ih =>
    obtain ⟨comes, -, h⟩ := exists_of_bind_eq_ok h
    split at h
    · have hlater := ih h
      simp only [List.countP_cons] at hlater ⊢
      omega
    · cases h
      rfl

theorem countP_leadingRun (test : α → Bool) {elements out rest : List α}
    (h : leadingRun before elements = .ok (out, rest)) :
    out.countP test + rest.countP test = elements.countP test := by
  match elements with
  | [] | [only] =>
    cases h
    rfl
  | first :: second :: later =>
    obtain ⟨descending, -, h⟩ := exists_of_bind_eq_ok h
    obtain ⟨⟨run, rest⟩, hrun, h⟩ := exists_of_bind_eq_ok h
    cases h
    have hall := countP_continueRun test hrun
    simp only [apply_ite (List.countP test), List.countP_reverse, ite_self]
    simp only [List.countP_cons, List.countP_nil] at hall ⊢
    omega

theorem continueRun_ne_nil {descending : Bool} {run elements out rest : List α} {last : α}
    (h : continueRun before descending run last elements = .ok (out, rest)) : out ≠ [] := by
  induction elements generalizing run last with
  | nil =>
    cases h
    exact List.cons_ne_nil _ _
  | cons next elements ih =>
    obtain ⟨comes, -, h⟩ := exists_of_bind_eq_ok h
    split at h
    · exact ih h
    · cases h
      exact List.cons_ne_nil _ _

theorem leadingRun_ne_nil {elements out rest : List α} (hne : elements ≠ [])
    (h : leadingRun before elements = .ok (out, rest)) : out ≠ [] := by
  match elements with
  | [] => exact absurd rfl hne
  | [only] =>
    cases h
    exact List.cons_ne_nil _ _
  | first :: second :: later =>
    obtain ⟨descending, -, h⟩ := exists_of_bind_eq_ok h
    obtain ⟨⟨run, rest⟩, hrun, h⟩ := exists_of_bind_eq_ok h
    cases h
    have hsome := continueRun_ne_nil hrun
    split <;> simpa using hsome

/-- The two parts of a split make the whole again. -/
theorem append_of_splitFor {pivot : α} {fuel : Nat} {sorted left right : List α}
    (h : splitFor before pivot fuel sorted = .ok (left, right)) : left ++ right = sorted := by
  induction fuel generalizing sorted left right with
  | zero =>
    cases h
    exact List.append_nil _
  | succ fuel ih =>
    unfold splitFor at h
    split at h
    · next hempty =>
      cases h
      have hlength := List.drop_eq_nil_iff.mp hempty
      exact (List.eq_nil_of_length_eq_zero (by omega)).symm
    · next middle above hupper =>
      obtain ⟨comes, -, h⟩ := exists_of_bind_eq_ok h
      split at h
      · obtain ⟨⟨l, r⟩, hsplit, h⟩ := exists_of_bind_eq_ok h
        cases h
        rw [← List.append_assoc, ih hsplit, ← hupper, List.take_append_drop]
      · obtain ⟨⟨l, r⟩, hsplit, h⟩ := exists_of_bind_eq_ok h
        cases h
        rw [List.append_assoc, List.cons_append, ih hsplit, ← hupper, List.take_append_drop]

theorem countP_placeAll (test : α → Bool) {sorted pivots out : List α}
    (h : placeAll before sorted pivots = .ok out) :
    out.countP test = sorted.countP test + pivots.countP test := by
  induction pivots generalizing sorted with
  | nil =>
    cases h
    rfl
  | cons pivot pivots ih =>
    obtain ⟨⟨left, right⟩, hsplit, h⟩ := exists_of_bind_eq_ok h
    have hall := ih h
    rw [← append_of_splitFor hsplit]
    simp only [List.countP_append, List.countP_cons] at hall ⊢
    omega

theorem countP_leadingRunOf (test : α → Bool) {least : Nat} {elements out rest : List α}
    (h : leadingRunOf before least elements = .ok (out, rest)) :
    out.countP test + rest.countP test = elements.countP test := by
  obtain ⟨⟨run, later⟩, hrun, h⟩ := exists_of_bind_eq_ok h
  obtain ⟨longer, hplace, h⟩ := exists_of_bind_eq_ok h
  cases h
  have hlead := countP_leadingRun test hrun
  have hlong := countP_placeAll test hplace
  have hcut := countP_take_add_drop test (least - run.length) later
  omega

/-- Each run takes something off, so the elements get used up. -/
theorem length_lt_of_leadingRunOf {least : Nat} {elements out rest : List α} (hne : elements ≠ [])
    (h : leadingRunOf before least elements = .ok (out, rest)) :
    rest.length < elements.length := by
  obtain ⟨⟨run, later⟩, hrun, h⟩ := exists_of_bind_eq_ok h
  obtain ⟨longer, -, h⟩ := exists_of_bind_eq_ok h
  cases h
  have hall := countP_leadingRun (fun _ => true) hrun
  have hsome := List.length_pos_of_ne_nil (leadingRun_ne_nil hne hrun)
  simp only [List.countP_true] at hall
  rw [List.length_drop]
  omega

/-! ### Merges -/

namespace Merging

variable {m m' : Merging α} {direction : Direction} {count : Nat}

/-- How many elements of a merge pass a test, whether they have been taken or not. -/
def countP (test : α → Bool) (m : Merging α) : Nat :=
  m.taken.countP test + m.left.countP test + m.right.countP test

@[simp] theorem countP_takeLeft (test : α → Bool) (m : Merging α) (count : Nat) :
    (m.takeLeft count).countP test = m.countP test := by
  have hcut := countP_take_add_drop test count m.left
  simp only [countP, takeLeft, List.countP_append, List.countP_reverse]
  omega

@[simp] theorem countP_takeRight (test : α → Bool) (m : Merging α) (count : Nat) :
    (m.takeRight count).countP test = m.countP test := by
  have hcut := countP_take_add_drop test count m.right
  simp only [countP, takeRight, List.countP_append, List.countP_reverse]
  omega

@[simp] theorem countP_result (test : α → Bool) (m : Merging α) (direction : Direction) :
    (m.result direction).countP test = m.countP test := by
  cases direction <;>
    simp only [countP, result, List.countP_append, List.countP_reverse] <;> omega

theorem countP_leftBurst (test : α → Bool)
    (h : m.leftBurst before direction = .ok (m', count)) : m'.countP test = m.countP test := by
  unfold leftBurst at h
  split at h
  · obtain ⟨taken, -, h⟩ := exists_of_bind_eq_ok h
    cases h
    split <;> simp
  · cases h
    rfl

theorem countP_rightBurst (test : α → Bool)
    (h : m.rightBurst before direction = .ok (m', count)) : m'.countP test = m.countP test := by
  unfold rightBurst at h
  split at h
  · obtain ⟨taken, -, h⟩ := exists_of_bind_eq_ok h
    cases h
    split <;> simp
  · cases h
    rfl

end Merging

theorem countP_mergeFrom (test : α → Bool) {direction : Direction}
    {fuel patience patience' : Nat} {pace : Pace} {m : Merging α} {out : List α}
    (h : mergeFrom before direction fuel patience pace m = .ok (out, patience')) :
    out.countP test = m.countP test := by
  induction fuel generalizing patience pace m with
  | zero =>
    cases h
    exact m.countP_result test direction
  | succ fuel ih =>
    unfold mergeFrom at h
    split at h
    · obtain ⟨comes, -, h⟩ := exists_of_bind_eq_ok h
      split at h
      · rw [ih h, Merging.countP_takeRight]
      · rw [ih h, Merging.countP_takeLeft]
    · obtain ⟨⟨m₁, fromLeft⟩, hleft, h⟩ := exists_of_bind_eq_ok h
      obtain ⟨⟨m₂, fromRight⟩, hright, h⟩ := exists_of_bind_eq_ok h
      rw [← Merging.countP_leftBurst test hleft, ← Merging.countP_rightBurst test hright]
      dsimp only at h
      split at h
      · cases h
        exact m₂.countP_result test direction
      · split at h <;> exact ih h
    · cases h
      exact m.countP_result test direction

theorem countP_mergeOverlap (test : α → Bool) {patience patience' : Nat} {left right out : List α}
    (h : mergeOverlap before patience left right = .ok (out, patience')) :
    out.countP test = left.countP test + right.countP test := by
  unfold mergeOverlap at h
  dsimp only at h
  split at h
  · rw [countP_mergeFrom test h, Merging.countP_takeRight]
    simp [Merging.countP]
  · rw [countP_mergeFrom test h, Merging.countP_takeLeft]
    simp [Merging.countP]

theorem countP_mergeRuns (test : α → Bool) {patience patience' : Nat} {left right out : List α}
    (h : mergeRuns before patience left right = .ok (out, patience')) :
    out.countP test = left.countP test + right.countP test := by
  cases right with
  | nil =>
    cases h
    rfl
  | cons head later =>
    obtain ⟨kept, -, h⟩ := exists_of_bind_eq_ok h
    split at h
    · cases h
      exact List.countP_append
    · obtain ⟨met, -, h⟩ := exists_of_bind_eq_ok h
      split at h
      · cases h
        exact List.countP_append
      · obtain ⟨⟨merged, later⟩, hmerge, h⟩ := exists_of_bind_eq_ok h
        cases h
        have hmerged := countP_mergeOverlap test hmerge
        have hleft := countP_take_add_drop test kept left
        have hright := countP_take_add_drop test met (head :: later)
        simp only [List.countP_append] at hmerged hleft hright ⊢
        omega

/-! ### Waiting runs -/

/-- How many elements of the runs that wait pass a test. -/
def Pending.countP (test : α → Bool) (waiting : List (Pending α)) : Nat :=
  (waiting.flatMap (·.run)).countP test

theorem countP_collapse (test : α → Bool) {power patience patience' : Nat} {top top' : Pending α}
    {below below' : List (Pending α)}
    (h : collapse before power patience top below = .ok (top', below', patience')) :
    Pending.countP test (top' :: below') = Pending.countP test (top :: below) := by
  induction below generalizing top patience with
  | nil =>
    cases h
    rfl
  | cons next rest ih =>
    unfold collapse at h
    split at h
    · obtain ⟨⟨run, later⟩, hmerge, h⟩ := exists_of_bind_eq_ok h
      have hrun := countP_mergeRuns test hmerge
      rw [ih h]
      simp only [Pending.countP, List.flatMap_cons, List.countP_append, hrun]
      omega
    · cases h
      rfl

theorem countP_mergeAll (test : α → Bool) {fuel patience : Nat} {waiting : List (Pending α)}
    {out : List α} (hfuel : waiting.length ≤ fuel)
    (h : mergeAll before fuel patience waiting = .ok out) :
    out.countP test = Pending.countP test waiting := by
  induction fuel generalizing patience waiting with
  | zero =>
    obtain rfl := List.eq_nil_of_length_eq_zero (Nat.le_zero.mp hfuel)
    cases h
    rfl
  | succ fuel ih =>
    match waiting with
    | [] =>
      cases h
      rfl
    | [only] =>
      cases h
      simp [Pending.countP]
    | [top, next] =>
      obtain ⟨⟨run, later⟩, hmerge, h⟩ := exists_of_bind_eq_ok h
      have hrun := countP_mergeRuns test hmerge
      rw [ih (by simpa using hfuel) h]
      simp only [Pending.countP, List.flatMap_cons, List.countP_append, hrun]
      omega
    | top :: next :: third :: rest =>
      simp only [List.length_cons] at hfuel
      unfold mergeAll at h
      split at h
      · obtain ⟨⟨run, later⟩, hmerge, h⟩ := exists_of_bind_eq_ok h
        have hrun := countP_mergeRuns test hmerge
        rw [ih (by simp only [List.length_cons]; omega) h]
        simp only [Pending.countP, List.flatMap_cons, List.countP_append, hrun]
        omega
      · obtain ⟨⟨run, later⟩, hmerge, h⟩ := exists_of_bind_eq_ok h
        have hrun := countP_mergeRuns test hmerge
        rw [ih (by simp only [List.length_cons]; omega) h]
        simp only [Pending.countP, List.flatMap_cons, List.countP_append, hrun]
        omega

theorem countP_pushRun (test : α → Bool) {total patience patience' start : Nat} {run : List α}
    {waiting waiting' : List (Pending α)}
    (h : pushRun before total patience start run waiting = .ok (waiting', patience')) :
    Pending.countP test waiting' = run.countP test + Pending.countP test waiting := by
  cases waiting with
  | nil =>
    cases h
    simp [Pending.countP]
  | cons top below =>
    obtain ⟨⟨top', below', later⟩, hcollapse, h⟩ := exists_of_bind_eq_ok h
    cases h
    have hall := countP_collapse test hcollapse
    simp only [Pending.countP, List.flatMap_cons, List.countP_append] at hall ⊢
    omega

theorem countP_sortFrom (test : α → Bool) {least total fuel patience start : Nat}
    {waiting : List (Pending α)} {elements out : List α} (hfuel : elements.length ≤ fuel)
    (h : sortFrom before least total fuel patience start waiting elements = .ok out) :
    out.countP test = Pending.countP test waiting + elements.countP test := by
  induction fuel generalizing patience start waiting elements with
  | zero =>
    obtain rfl := List.eq_nil_of_length_eq_zero (Nat.le_zero.mp hfuel)
    exact countP_mergeAll test (Nat.le_refl _) h
  | succ fuel ih =>
    cases elements with
    | nil => exact countP_mergeAll test (Nat.le_refl _) h
    | cons first later =>
      obtain ⟨⟨run, rest⟩, hrun, h⟩ := exists_of_bind_eq_ok h
      obtain ⟨⟨waiting', patience'⟩, hpush, h⟩ := exists_of_bind_eq_ok h
      have hcut := countP_leadingRunOf test hrun
      have hpushed := countP_pushRun test hpush
      have hshorter : rest.length ≤ fuel := by
        have hless := length_lt_of_leadingRunOf (List.cons_ne_nil first later) hrun
        omega
      rw [ih hshorter h, hpushed]
      omega

/-- A sort rearranges its elements, whatever the comparison is. -/
theorem perm_of_sort {elements sorted : List α} (h : sort before elements = .ok sorted) :
    sorted.Perm elements := by
  classical
  refine List.perm_iff_count.mpr fun x => ?_
  have hcount := countP_sortFrom (· == x) (Nat.le_refl elements.length) h
  simpa [Pending.countP, List.count] using hcount

end Motif.Sorting
