import Mathlib.Data.List.Sort
import Motif.Proofs.Decision
import Motif.Proofs.Room

/-!
Leaving out hopeless lengths changes no answer. The exhaustive search tries every
length that there are items for, and leaves it to the repetition to refuse those
that its bounds do not allow. The lengths that the search in use leaves out match
nowhere: either the bounds refuse the slice, or the later chunks are left with too
few items. So wherever the exhaustive search comes to an answer, the search in use
comes to the same one, and with no more steps.
-/

namespace Motif

namespace Repetition

/-- Every length that there are items for, the preferred ones first. -/
def exhaustive (r : Repetition) (remaining _needed : Nat) : List Nat :=
  match r.mode with
  | .greedy => (List.range (remaining + 1)).reverse
  | .lazy => List.range (remaining + 1)

/-- Whether the bounds allow a length and the later chunks are left with enough. -/
def worthwhile (r : Repetition) (remaining needed length : Nat) : Bool :=
  Bounds.allow r.bounds length && decide (length + needed ≤ remaining)

theorem mem_exhaustive (r : Repetition) (remaining needed length : Nat) :
    length ∈ r.exhaustive remaining needed ↔ length ≤ remaining := by
  obtain ⟨_ | _, bounds⟩ := r
  · rw [exhaustive, List.mem_reverse, List.mem_range, Nat.lt_succ_iff]
  · rw [exhaustive, List.mem_range, Nat.lt_succ_iff]

theorem faithful_exhaustive : LengthPolicy.Faithful exhaustive where
  fits hmem := (mem_exhaustive _ _ _ _).mp hmem
  covers _ hfits := (mem_exhaustive _ _ _ _).mpr (Nat.le_trans (Nat.le_add_right _ _) hfits)
  sorted repetition remaining needed := by
    obtain ⟨_ | _, bounds⟩ := repetition
    · exact List.pairwise_reverse.mpr List.pairwise_lt_range
    · exact List.pairwise_lt_range

/-- The lengths in use are those of the exhaustive search that are worth trying, in the same
order. -/
theorem lengths_eq_filter (r : Repetition) (remaining needed : Nat) :
    r.lengths remaining needed =
      (r.exhaustive remaining needed).filter (r.worthwhile remaining needed) := by
  have hlengths : (r.lengths remaining needed).Pairwise r.mode.Prefers :=
    faithful_lengths.sorted r remaining needed
  have hfilter : ((r.exhaustive remaining needed).filter
      (r.worthwhile remaining needed)).Pairwise r.mode.Prefers :=
    (faithful_exhaustive.sorted r remaining needed).filter _
  have hirrefl : Std.Irrefl r.mode.Prefers := ⟨fun a h => h.asymm h⟩
  have hantisymm : Std.Antisymm r.mode.Prefers := ⟨fun a b hab hba => absurd hba hab.asymm⟩
  refine hlengths.eq_of_mem_iff hfilter fun length => ?_
  rw [List.mem_filter, mem_exhaustive, lengths, mem_takes, worthwhile, Bool.and_eq_true,
    decide_eq_true_eq]
  constructor
  · rintro ⟨hallow, havailable⟩
    exact ⟨by omega, hallow, by omega⟩
  · rintro ⟨-, hallow, hfits⟩
    exact ⟨hallow, by omega⟩

end Repetition

/-- Match a value as `Pattern.bind` does, but try every length of a repetition. -/
def Pattern.bindExhaustively (p : Pattern Value) (v : Value) (captures : Captures) : Run :=
  bindWith Repetition.exhaustive p v captures

namespace Search

/-- A search is behind another one when it runs within the same limits and on the same level,
and has counted no more steps. -/
structure Behind (s t : Search) : Prop where
  limits : s.limits = t.limits
  depth : s.depth = t.depth
  steps : s.steps ≤ t.steps

variable {s t : Search}

theorem Behind.refl (s : Search) : Behind s s := ⟨rfl, rfl, Nat.le_refl s.steps⟩

theorem Behind.trans {between : Search} (h : Behind s between) (h' : Behind between t) :
    Behind s t :=
  ⟨h.limits.trans h'.limits, h.depth.trans h'.depth, Nat.le_trans h.steps h'.steps⟩

theorem Behind.note (h : Behind s t) (d d' : Decision) : Behind (s.note d) (t.note d') :=
  ⟨h.limits, h.depth, h.steps⟩

theorem Behind.step (h : Behind s t) : Behind s.step.2 t.step.2 where
  limits := by simp only [limits_step, h.limits]
  depth := by simp only [depth_step, h.depth]
  steps := by
    have hsteps := h.steps
    simp only [steps_step]
    omega

/-- The step that the search ahead may take, the one behind may take too. -/
theorem Behind.may_step (h : Behind s t) (hmay : t.step.1 = none) : s.step.1 = none := by
  have hsteps := h.steps
  simp only [Search.step, h.limits] at hmay ⊢
  split at hmay
  · cases hmay
  · next hwithin =>
    rw [if_neg]
    omega

theorem Behind.enter (h : Behind s t) : Behind s.enter.2 t.enter.2 where
  limits := by simp only [limits_enter, h.limits]
  depth := by simp only [depth_enter, h.depth]
  steps := by simp only [steps_enter, h.steps]

theorem Behind.may_enter (h : Behind s t) (hmay : t.enter.1 = none) : s.enter.1 = none := by
  simp only [Search.enter, h.limits, h.depth] at hmay ⊢
  split at hmay
  · cases hmay
  · next hwithin => rw [if_neg hwithin]

theorem Behind.leave (h : Behind s t) : Behind s.leave t.leave where
  limits := h.limits
  depth := by simp only [Search.leave, h.depth]
  steps := h.steps

end Search

namespace Run

/-- A run refines another one when, starting behind it, it comes to the same outcome and stays
behind, unless the other one is given up. -/
def Refines (run reference : Captures → Run) : Prop :=
  ∀ captures s t, s.Behind t → (reference captures t).1.isAborted = false →
    (run captures s).1 = (reference captures t).1 ∧
      (run captures s).2.Behind (reference captures t).2

section

variable {first next second body first' next' second' body' : Captures → Run}

theorem refines_succeed : Refines succeed succeed := fun _ _ _ hbehind _ => ⟨rfl, hbehind⟩

theorem refines_fail : Refines (fun _ => fail) fun _ => fail :=
  fun _ _ _ hbehind _ => ⟨rfl, hbehind⟩

theorem refines_andThen (hfirst : Refines first first') (hnext : Refines next next') :
    Refines (fun captures => andThen (first captures) next)
      fun captures => andThen (first' captures) next' := by
  intro captures s t hbehind hanswer
  have hboth := hfirst captures s t hbehind
  -- The reference decides the case, since only of its outcome is known that it is an answer.
  rcases hrun : first captures s with ⟨outcome, between⟩
  rcases hreference : first' captures t with ⟨made | _ | reason, between'⟩
  · rw [hrun, hreference] at hboth
    obtain ⟨rfl, hbetween⟩ := hboth rfl
    simp only [andThen, hrun, hreference] at hanswer ⊢
    exact hnext made between between' hbetween hanswer
  · rw [hrun, hreference] at hboth
    obtain ⟨rfl, hbetween⟩ := hboth rfl
    simp only [andThen, hrun, hreference]
    exact ⟨trivial, hbetween⟩
  · simp only [andThen, hreference] at hanswer
    cases hanswer

theorem refines_orElse (hfirst : Refines first first') (hsecond : Refines second second') :
    Refines (fun captures => orElse (first captures) (second captures))
      fun captures => orElse (first' captures) (second' captures) := by
  intro captures s t hbehind hanswer
  have hboth := hfirst captures s t hbehind
  rcases hrun : first captures s with ⟨outcome, between⟩
  rcases hreference : first' captures t with ⟨made | _ | reason, between'⟩
  · rw [hrun, hreference] at hboth
    obtain ⟨rfl, hbetween⟩ := hboth rfl
    simp only [orElse, hrun, hreference]
    exact ⟨trivial, hbetween⟩
  · rw [hrun, hreference] at hboth
    obtain ⟨rfl, hbetween⟩ := hboth rfl
    simp only [orElse, hrun, hreference] at hanswer ⊢
    exact hsecond captures between between' hbetween hanswer
  · simp only [orElse, hreference] at hanswer
    cases hanswer

theorem refines_counted (hbody : Refines body body') :
    Refines (fun captures => counted (body captures)) fun captures => counted (body' captures) := by
  intro captures s t hbehind hanswer
  cases hstep : t.step.1 with
  | none =>
    simp only [counted_of_none hstep, counted_of_none (hbehind.may_step hstep)] at hanswer ⊢
    exact hbody captures s.step.2 t.step.2 hbehind.step hanswer
  | some reason =>
    simp only [counted_of_some hstep] at hanswer
    cases hanswer

theorem refines_nested (hbody : Refines body body') :
    Refines (fun captures => nested (body captures)) fun captures => nested (body' captures) := by
  intro captures s t hbehind hanswer
  cases henter : t.enter.1 with
  | none =>
    simp only [nested_of_none henter, nested_of_none (hbehind.may_enter henter)] at hanswer ⊢
    obtain ⟨hsame, hafter⟩ := hbody captures s.enter.2 t.enter.2 hbehind.enter hanswer
    exact ⟨hsame, hafter.leave⟩
  | some reason =>
    simp only [nested_of_some henter] at hanswer
    cases hanswer

/-- What is recorded has no part in the answer. -/
theorem refines_noting (d : Decision) (hbody : Refines body body') :
    Refines (fun captures => noting d (body captures))
      fun captures => noting d (body' captures) := by
  intro captures s t hbehind hanswer
  exact hbody captures (s.note d) (t.note d) (hbehind.note d d) hanswer

theorem paired_refines : Paired Refines where
  succeed := refines_succeed
  fail := refines_fail
  andThen := refines_andThen
  orElse := refines_orElse
  counted := refines_counted
  noting d _ _ _ := refines_noting d

/-- A run that keeps to its level and never matches may be left out. -/
theorem refines_of_barren (hsteady : Steady body')
    (hbarren : ∀ captures, (body' captures).Ensures (fun _ => False) True) :
    Refines (fun _ => fail) body' := by
  intro captures s t hbehind hanswer
  obtain ⟨hlimits, hsteps, hdepth⟩ := hsteady captures t
  refine ⟨?_, hbehind.limits.trans hlimits.symm, hbehind.depth.trans (hdepth hanswer).symm,
    Nat.le_trans hbehind.steps hsteps⟩
  cases hrun : (body' captures t).1 with
  | matched made => exact ((hbarren captures).matched hrun).elim
  | noMatch => rfl
  | aborted reason =>
    rw [hrun] at hanswer
    cases hanswer

variable {α : Type} {run reference : α → Captures → Run}

/-- Of several ways, those that nothing is lost without may be left out. -/
theorem refines_firstOf {ways : List α} (keep : α → Bool)
    (hkept : ∀ way ∈ ways, keep way = true → Refines (run way) (reference way))
    (hleft : ∀ way ∈ ways, keep way = false → Refines (fun _ => fail) (reference way)) :
    Refines (fun captures => firstOf (ways.filter keep) fun way => run way captures)
      fun captures => firstOf ways fun way => reference way captures := by
  induction ways with
  | nil => exact refines_fail
  | cons way rest ih =>
    obtain ⟨hway, hrest⟩ := List.forall_mem_cons.mp hkept
    obtain ⟨hwayLeft, hrestLeft⟩ := List.forall_mem_cons.mp hleft
    cases hkeep : keep way with
    | true =>
      rw [List.filter_cons_of_pos hkeep]
      exact refines_orElse (hway hkeep) (ih hrest hrestLeft)
    | false =>
      rw [List.filter_cons_of_neg (Bool.eq_false_iff.mp hkeep)]
      exact refines_orElse (hwayLeft hkeep) (ih hrest hrestLeft)

end

end Run

namespace Sequence

open Pattern Run

/-- A length that is not worth trying leads nowhere. -/
theorem barren_attempt {form : Form} {p : Pattern Value} {repetition : Repetition}
    (hrepeats : p.repetition? = some repetition) {rest : List (Chunk (Pattern Value))}
    (haligned : ∀ chunk ∈ rest, chunk.Aligned repetition?)
    (hrest : Finds Repetition.exhaustive form rest) (d : Decision) (ci xi : Nat)
    {items : List Value} {take : Nat} (hfits : take ≤ items.length)
    (hleft : repetition.worthwhile items.length (Chunk.leastTotal rest) take = false)
    (captures : Captures) :
    (noting d (andThen
      (bindExhaustively p (.seq form (items.take take)) captures) fun captures =>
        walk Repetition.exhaustive form ci (rest.map (Chunk.map (matcher Repetition.exhaustive)))
          xi (items.drop take) captures)).Ensures (fun _ => False) True := by
  have hattempt := ensures_attempt (decides Repetition.faithful_exhaustive p) hrest d ci xi take
    items captures
  refine hattempt.imp ?_ fun _ => trivial
  rintro _ ⟨made, later, hmade, ⟨vector, _, hfirst, _, _⟩, rfl⟩
  -- A match of the slice keeps to the bounds, and a valid cut of the rest has enough items.
  have hallow := hmade.matches.allow hrepeats
  have hneeds := leastTotal_le_of_valid haligned hfirst.holds
  rw [List.length_take, Nat.min_eq_left hfits] at hallow
  rw [List.length_drop] at hneeds
  have henough : take + Chunk.leastTotal rest ≤ items.length := by omega
  simp [Repetition.worthwhile, hallow, henough] at hleft

/-- A walk that leaves out the hopeless lengths refines one that tries them all, if the elements
do so. -/
theorem refines_walk {form : Form} {chunks : List (Chunk (Pattern Value))}
    (haligned : ∀ chunk ∈ chunks, chunk.Aligned repetition?)
    (helements : ∀ chunk ∈ chunks, ∀ p ∈ chunk.elements, ∀ v,
      Refines (p.bind v) (p.bindExhaustively v)) (ci xi : Nat) (items : List Value) :
    Refines
      (walk Repetition.lengths form ci (chunks.map (Chunk.map (matcher Repetition.lengths))) xi
        items)
      (walk Repetition.exhaustive form ci
        (chunks.map (Chunk.map (matcher Repetition.exhaustive))) xi items) := by
  induction chunks generalizing ci xi items with
  | nil => exact paired_refines.guard items.isEmpty
  | cons chunk rest ih =>
    obtain ⟨hchunk, hrest⟩ := List.forall_mem_cons.mp haligned
    obtain ⟨hown, hlater⟩ := List.forall_mem_cons.mp helements
    have hwalk := ih hrest hlater
    cases chunk with
    | fixed ps => exact paired_refines.walk_fixed hown (hwalk _ _ _)
    | repeated p repetition =>
      simp only [List.map_cons, Chunk.map, walk, Chunk.leastTotal_map]
      apply refines_counted
      rw [Repetition.lengths_eq_filter]
      -- A length is either tried by both searches, or hopeless and tried by the reference only.
      refine refines_firstOf _ (fun take _ _ => ?_) (fun take htake hleft => ?_)
      · have hslice := hown p List.mem_cons_self (.seq form (items.take take))
        exact refines_noting _ (refines_andThen hslice (hwalk _ _ _))
      · have hfits := (Repetition.mem_exhaustive _ _ _ _).mp htake
        have hfinds := finds Repetition.faithful_exhaustive form hrest fun _ _ p _ =>
          decides Repetition.faithful_exhaustive p
        exact refines_of_barren (steady_attempt _ form p rest rfl _ _ _ _) fun captures =>
          barren_attempt hchunk hrest hfinds _ _ _ hfits hleft captures

end Sequence

namespace Pattern

open Run

theorem refines_options {options : List (Pattern Value)}
    (hoptions : ∀ p ∈ options, ∀ v, Refines (p.bind v) (p.bindExhaustively v)) (v : Value) :
    Refines
      (fun captures => firstOf (matchersWith Repetition.lengths options) fun option =>
        option.bind v captures)
      fun captures => firstOf (matchersWith Repetition.exhaustive options) fun option =>
        option.bind v captures := by
  simp only [matchersWith_eq_map, firstOf_map]
  exact paired_refines.firstOf fun p hp => hoptions p hp v

theorem refines_bind (p : Pattern Value) (v : Value) :
    Refines (p.bind v) (p.bindExhaustively v) := by
  induction p using Pattern.induction generalizing v with
  | wildcard => exact refines_succeed
  | literal expected => exact paired_refines.guard _
  | typeCheck kind => exact paired_refines.guard _
  | alternation options ih => exact refines_options ih v
  | sequence elements ih =>
    cases v with
    | seq form items =>
      have hwalk := @Sequence.refines_walk form _ (Chunk.aligned_cut repetition? elements)
        (fun chunk hchunk p hp => ih p (mem_of_mem_chunks hchunk hp)) 0 0 items
      rw [← chunks, ← cut_matchersWith, ← cut_matchersWith] at hwalk
      exact refines_nested hwalk
    | _ => exact refines_fail
  | repeated inner mode bounds ih => exact paired_refines.bindEach ih bounds v
  | arrayOf inner bounds ih => exact refines_nested (paired_refines.bindEach ih bounds v)
  | named label inner ih =>
    refine refines_andThen (ih v) ?_
    exact fun captures s t hbehind _ => ⟨rfl, hbehind⟩
  | unspecified tag => exact fun _ _ _ _ hanswer => by cases hanswer
  | misfit flaw value => exact fun _ _ _ _ hanswer => by cases hanswer
  | choiceFrom source options ih => exact refines_options ih v

/-- Wherever the exhaustive search comes to an answer, the search in use comes to the same one,
with the same captures in the same order, on the same level and with no more steps. So where the
search in use is given up, the exhaustive one is given up as well, and for a limit, unless the
pattern has a node that cannot be matched. -/
theorem bind_refines_bindExhaustively (p : Pattern Value) (v : Value) (captures : Captures)
    (s : Search) :
    ((p.bindExhaustively v captures s).1.isAborted = false →
      (p.bind v captures s).1 = (p.bindExhaustively v captures s).1 ∧
      (p.bind v captures s).2.depth = (p.bindExhaustively v captures s).2.depth ∧
      (p.bind v captures s).2.steps ≤ (p.bindExhaustively v captures s).2.steps) ∧
    ((p.bind v captures s).1.isAborted = true →
      ∃ reason, (p.bindExhaustively v captures s).1 = .aborted reason ∧
        (p.isSound = true → reason.overBudget = true)) := by
  have hrefines := refines_bind p v captures s s (.refl s)
  refine ⟨fun hanswer => ?_, fun haborted => ?_⟩
  · obtain ⟨hsame, hafter⟩ := hrefines hanswer
    exact ⟨hsame, hafter.depth, hafter.steps⟩
  · cases hreference : (p.bindExhaustively v captures s).1 with
    | aborted reason =>
      exact ⟨reason, rfl, fun hsound =>
        firm_bindWith Repetition.exhaustive hsound v captures s reason hreference⟩
    | _ =>
      obtain ⟨hsame, -⟩ := hrefines (by rw [hreference]; rfl)
      rw [hsame, hreference] at haborted
      cases haborted

/-- Between an item that is too deep to be matched and one that cannot be matched at all, the two
searches may meet different ones first. -/
theorem not_overBudget_bindExhaustively :
    ¬ ∀ (p : Pattern Value) (v : Value) (captures : Captures) (s : Search) (reason : Abort),
      (p.bind v captures s).1 = .aborted reason → reason.overBudget = true →
        ∃ reason, (p.bindExhaustively v captures s).1 = .aborted reason ∧
          reason.overBudget = true := by
  intro hall
  obtain ⟨reason, hreference, hover⟩ := hall
    (.sequence [.repeated (.unspecified 0) .greedy none, .arrayOf .wildcard none])
    (.seq .list [.int 5]) [] (Search.fresh ⟨.number 1, .number 0, by decide⟩ none)
    (.maxDepth (.number 1)) rfl rfl
  have hunspecified : reason = .unspecified := by
    injection hreference.symm
  rw [hunspecified] at hover
  cases hover

end Pattern

end Motif
