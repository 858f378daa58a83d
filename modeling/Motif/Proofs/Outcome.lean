import Motif.Proofs.Structure

/-!
What the outcome of a run says, whatever the state of the search. `Run.Ensures`
gives a run two postconditions: one for what it has captured when it matches, and
one for what holds when it does not. A run that is given up promises nothing,
so there is no word of limits here. Each way to put runs together has one rule.
-/

namespace Motif

/-- Whether a limit was exceeded. -/
def Abort.overBudget : Abort → Bool
  | .maxSteps _ | .maxDepth _ => true
  | .unspecified | .misfit .. => false

namespace Outcome

/-- Whether a search was given up. -/
def isAborted : Outcome → Bool
  | .aborted _ => true
  | _ => false

end Outcome

namespace Run

section

variable {α β : Type}

@[simp] theorem firstOf_nil (run : α → Run) : firstOf [] run = fail := rfl

@[simp] theorem firstOf_cons (way : α) (rest : List α) (run : α → Run) :
    firstOf (way :: rest) run = orElse (run way) (firstOf rest run) := rfl

theorem firstOf_map (f : α → β) (ways : List α) (run : β → Run) :
    firstOf (ways.map f) run = firstOf ways fun way => run (f way) := by
  induction ways with
  | nil => rfl
  | cons way rest ih => rw [List.map_cons, firstOf_cons, firstOf_cons, ih]

@[simp] theorem inTurn_nil (run : α → Captures → Run) : inTurn [] run = succeed := rfl

@[simp] theorem inTurn_cons (part : α) (rest : List α) (run : α → Captures → Run)
    (captures : Captures) :
    inTurn (part :: rest) run captures = andThen (run part captures) (inTurn rest run) := rfl

theorem inTurn_map (f : α → β) (parts : List α) (run : β → Captures → Run) :
    inTurn (parts.map f) run = inTurn parts fun part => run (f part) := by
  induction parts with
  | nil => rfl
  | cons part rest ih =>
    funext captures
    rw [List.map_cons, inTurn_cons, inTurn_cons, ih]

theorem inTurn_append (parts later : List α) (run : α → Captures → Run) (captures : Captures) :
    inTurn (parts ++ later) run captures =
      andThen (inTurn parts run captures) (inTurn later run) := by
  induction parts generalizing captures with
  | nil => rfl
  | cons part rest ih =>
    funext s
    rw [List.cons_append, inTurn_cons, inTurn_cons]
    simp only [andThen]
    rcases run part captures s with ⟨own | _ | reason, between⟩
    · exact congrFun (ih own) between
    · rfl
    · rfl

end

section

variable {body : Run} {s : Search}

theorem counted_of_none (h : s.step.1 = none) : counted body s = body s.step.2 := by
  unfold counted
  rcases hstep : s.step with ⟨_ | reason, stepped⟩
  · rfl
  · rw [hstep] at h
    cases h

theorem counted_of_some {reason : Abort} (h : s.step.1 = some reason) :
    counted body s = (.aborted reason, s.step.2) := by
  unfold counted
  rcases hstep : s.step with ⟨_ | reason, stepped⟩
  · rw [hstep] at h
    cases h
  · rw [hstep] at h
    cases h
    rfl

theorem nested_of_none (h : s.enter.1 = none) :
    nested body s = ((body s.enter.2).1, (body s.enter.2).2.leave) := by
  unfold nested
  rcases henter : s.enter with ⟨_ | reason, entered⟩
  · rfl
  · rw [henter] at h
    cases h

theorem nested_of_some {reason : Abort} (h : s.enter.1 = some reason) :
    nested body s = (.aborted reason, s.enter.2) := by
  unfold nested
  rcases henter : s.enter with ⟨_ | reason, entered⟩
  · rw [henter] at h
    cases h
  · rw [henter] at h
    cases h
    rfl

end

section

variable {first second body : Run} {next : Captures → Run} {s after : Search} {made : Captures}

theorem andThen_eq_matched_iff : andThen first next s = (.matched made, after) ↔
    ∃ own between, first s = (.matched own, between) ∧
      next own between = (.matched made, after) := by
  unfold andThen
  rcases first s with ⟨own | _ | reason, between⟩
  · constructor
    · exact fun h => ⟨own, between, rfl, h⟩
    · rintro ⟨_, _, hown, h⟩
      cases hown
      exact h
  · simp
  · simp

theorem orElse_eq_matched_iff : orElse first second s = (.matched made, after) ↔
    first s = (.matched made, after) ∨
      ∃ between, first s = (.noMatch, between) ∧ second between = (.matched made, after) := by
  unfold orElse
  rcases first s with ⟨own | _ | reason, between⟩ <;> simp

theorem counted_eq_matched_iff : counted body s = (.matched made, after) ↔
    s.step.1 = none ∧ body s.step.2 = (.matched made, after) := by
  unfold counted
  rcases s.step with ⟨_ | reason, stepped⟩ <;> simp

end

/-- What a run promises of its outcome: of its captures when it matches, and in general when it
does not. -/
def Ensures (run : Run) (hit : Captures → Prop) (miss : Prop) : Prop :=
  ∀ s, match (run s).1 with
    | .matched captures => hit captures
    | .noMatch => miss
    | .aborted _ => True

section

variable {α : Type} {run first second : Run} {hit found : Captures → Prop} {miss absent : Prop}

theorem Ensures.matched (h : Ensures run hit miss) {s : Search} {captures : Captures}
    (hrun : (run s).1 = .matched captures) : hit captures := by
  have hs := h s
  rw [hrun] at hs
  exact hs

theorem Ensures.missed (h : Ensures run hit miss) {s : Search} (hrun : (run s).1 = .noMatch) :
    miss := by
  have hs := h s
  rw [hrun] at hs
  exact hs

/-- Promises can be weakened. -/
theorem Ensures.imp (h : Ensures run hit miss) (hhit : ∀ captures, hit captures → found captures)
    (hmiss : miss → absent) : Ensures run found absent := by
  intro s
  have hs := h s
  cases hrun : (run s).1 with
  | matched captures =>
    rw [hrun] at hs
    exact hhit captures hs
  | noMatch =>
    rw [hrun] at hs
    exact hmiss hs
  | aborted reason => trivial

/-- What holds of all captures, a run promises of its own. -/
theorem ensures_of_forall {run : Run} {hit : Captures → Prop} (h : ∀ captures, hit captures) :
    Ensures run hit True := by
  intro s
  split
  · exact h _
  · trivial
  · trivial

theorem ensures_succeed {captures : Captures} (h : hit captures) :
    Ensures (succeed captures) hit miss := fun _ => h

theorem ensures_fail (h : miss) : Ensures fail hit miss := fun _ => h

theorem ensures_abort (reason : Abort) : Ensures (abort reason) hit miss := fun _ => trivial

theorem ensures_guard {holds : Bool} {captures : Captures} (hhit : holds = true → hit captures)
    (hmiss : holds = false → miss) : Ensures (guard holds captures) hit miss := by
  cases holds with
  | true => exact ensures_succeed (hhit rfl)
  | false => exact ensures_fail (hmiss rfl)

/-- The second run starts from captures of which the first one promised something, and may use
that for its own promise. -/
theorem ensures_andThen {next : Captures → Run} (hfirst : Ensures first found miss)
    (hnext : ∀ captures, found captures → Ensures (next captures) hit miss) :
    Ensures (andThen first next) hit miss := by
  intro s
  have hs := hfirst s
  unfold andThen
  rcases hrun : first s with ⟨captures | _ | reason, after⟩
  · rw [hrun] at hs
    exact hnext captures hs after
  · rw [hrun] at hs
    exact hs
  · trivial

theorem ensures_orElse (hfirst : Ensures first hit absent)
    (hsecond : absent → Ensures second hit miss) : Ensures (orElse first second) hit miss := by
  intro s
  have hs := hfirst s
  unfold orElse
  rcases hrun : first s with ⟨captures | _ | reason, after⟩
  · rw [hrun] at hs
    exact hs
  · rw [hrun] at hs
    exact hsecond hs after
  · trivial

theorem ensures_counted (h : Ensures run hit miss) : Ensures (counted run) hit miss := by
  intro s
  unfold counted
  rcases s.step with ⟨_ | reason, after⟩
  · exact h after
  · trivial

theorem ensures_nested (h : Ensures run hit miss) : Ensures (nested run) hit miss := by
  intro s
  unfold nested
  rcases s.enter with ⟨_ | reason, after⟩
  · exact h after
  · trivial

theorem ensures_noting (d : Decision) (h : Ensures run hit miss) :
    Ensures (noting d run) hit miss := fun s => h (s.note d)

/-- The first way that matches is the one that counts: every way before it was tried and has
missed. -/
theorem ensures_firstOf {ways : List α} {attempt : α → Run} {hits : α → Captures → Prop}
    {misses : α → Prop} (h : ∀ way ∈ ways, Ensures (attempt way) (hits way) (misses way)) :
    Ensures (firstOf ways attempt)
      (fun captures => ∃ before way after, ways = before ++ way :: after ∧
        (∀ earlier ∈ before, misses earlier) ∧ hits way captures)
      (∀ way ∈ ways, misses way) := by
  induction ways with
  | nil => exact ensures_fail (by simp)
  | cons way rest ih =>
    have hrest := ih fun other hother => h other (List.mem_cons_of_mem way hother)
    rw [firstOf_cons]
    refine ensures_orElse ((h way List.mem_cons_self).imp (fun captures hhit => ?_) id) ?_
    · exact ⟨[], way, rest, rfl, by simp, hhit⟩
    · intro hmiss
      refine hrest.imp ?_ (fun hall => List.forall_mem_cons.mpr ⟨hmiss, hall⟩)
      rintro captures ⟨before, found, after, rfl, hbefore, hhit⟩
      exact ⟨way :: before, found, after, rfl, List.forall_mem_cons.mpr ⟨hmiss, hbefore⟩, hhit⟩

/-- Whichever way matches, it promises what all of them promise. -/
theorem ensures_firstOf_same {ways : List α} {attempt : α → Run} {hit : Captures → Prop}
    (h : ∀ way ∈ ways, Ensures (attempt way) hit True) :
    Ensures (firstOf ways attempt) hit True := by
  refine (ensures_firstOf h).imp ?_ fun _ => trivial
  rintro captures ⟨-, -, -, -, -, hhit⟩
  exact hhit

end

end Run

end Motif
