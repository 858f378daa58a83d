import Motif.Proofs.Flat

/-!
What a run writes to the record. Decisions are only ever added, so a run can promise something of
the decisions that it adds, together with what it promises of its outcome. The promise covers those
of branches that were given up, and it says where among all these the decisions of the way that
counts begin. Each way to put runs together has one rule, as it has for the outcome alone.
-/

namespace Motif

namespace Run

/-- What a run promises of its outcome and of the decisions that it records: of its captures and
these when it matches, and of these when it does not. -/
def Tells (run : Run) (hit : Captures → List Decision → Prop) (miss : List Decision → Prop) :
    Prop :=
  ∀ s, ∃ ds, (run s).2.tracer = Tracer.told s.tracer ds ∧ match (run s).1 with
    | .matched captures => hit captures ds
    | .noMatch => miss ds
    | .aborted _ => True

section

variable {α : Type} {run first second : Run} {hit found : Captures → List Decision → Prop}
  {miss absent : List Decision → Prop}

theorem Tells.imp (h : Tells run hit miss)
    (hhit : ∀ captures ds, hit captures ds → found captures ds)
    (hmiss : ∀ ds, miss ds → absent ds) : Tells run found absent := by
  intro s
  obtain ⟨ds, htracer, hs⟩ := h s
  refine ⟨ds, htracer, ?_⟩
  cases hrun : (run s).1 with
  | matched captures =>
    rw [hrun] at hs
    exact hhit captures ds hs
  | noMatch =>
    rw [hrun] at hs
    exact hmiss ds hs
  | aborted reason => trivial

/-- What a quiet run promises, it tells with no decision. -/
theorem Ensures.tells {hit : Captures → Prop} {miss : Prop} (h : Ensures run hit miss)
    (hquiet : Quiet run) :
    Tells run (fun captures ds => hit captures ∧ ds = []) (fun ds => miss ∧ ds = []) := by
  intro s
  have hs := h s
  refine ⟨[], by rw [Tracer.told_nil, (hquiet s).2], ?_⟩
  cases hrun : (run s).1 with
  | matched captures =>
    rw [hrun] at hs
    exact ⟨hs, rfl⟩
  | noMatch =>
    rw [hrun] at hs
    exact ⟨hs, rfl⟩
  | aborted reason => trivial

theorem tells_fail (h : miss []) : Tells fail hit miss := fun _ =>
  ⟨[], (Tracer.told_nil _).symm, h⟩

/-- A run that is noted first records that before all else. -/
theorem Tells.noting {d : Decision}
    (h : Tells run (fun captures ds => hit captures (d :: ds)) fun ds => miss (d :: ds)) :
    Tells (noting d run) hit miss := by
  intro s
  obtain ⟨ds, htracer, hs⟩ := h (s.note d)
  exact ⟨d :: ds, by rw [Tracer.told_cons]; exact htracer, hs⟩

theorem tells_andThen {next : Captures → Run} (hfirst : Tells first found absent)
    (hnext : ∀ captures earlier, found captures earlier → Tells (next captures)
      (fun after ds => hit after (earlier ++ ds)) fun ds => miss (earlier ++ ds))
    (habsent : ∀ ds, absent ds → miss ds) : Tells (andThen first next) hit miss := by
  intro s
  obtain ⟨earlier, htracer, hs⟩ := hfirst s
  unfold andThen
  rcases hrun : first s with ⟨captures | _ | reason, between⟩
  · rw [hrun] at htracer hs
    obtain ⟨ds, hlater, hs⟩ := hnext captures earlier hs between
    exact ⟨earlier ++ ds, by rw [hlater, htracer, Tracer.told_append], hs⟩
  · rw [hrun] at htracer hs
    exact ⟨earlier, htracer, habsent earlier hs⟩
  · rw [hrun] at htracer
    exact ⟨earlier, htracer, trivial⟩

theorem tells_orElse (hfirst : Tells first hit absent)
    (hsecond : ∀ earlier, absent earlier → Tells second
      (fun captures ds => hit captures (earlier ++ ds)) fun ds => miss (earlier ++ ds)) :
    Tells (orElse first second) hit miss := by
  intro s
  obtain ⟨earlier, htracer, hs⟩ := hfirst s
  unfold orElse
  rcases hrun : first s with ⟨captures | _ | reason, between⟩
  · rw [hrun] at htracer hs
    exact ⟨earlier, htracer, hs⟩
  · rw [hrun] at htracer hs
    obtain ⟨ds, hlater, hs⟩ := hsecond earlier hs between
    exact ⟨earlier ++ ds, by rw [hlater, htracer, Tracer.told_append], hs⟩
  · rw [hrun] at htracer
    exact ⟨earlier, htracer, trivial⟩

theorem Tells.counted (h : Tells run hit miss) : Tells (counted run) hit miss := by
  intro s
  have hstep : s.step.2.tracer = s.tracer := by rw [Search.step_snd]
  unfold Run.counted
  rcases hstate : s.step with ⟨_ | reason, after⟩
  · rw [hstate] at hstep
    rw [← hstep]
    exact h after
  · rw [hstate] at hstep
    exact ⟨[], by rw [Tracer.told_nil]; exact hstep, trivial⟩

theorem Tells.nested (h : Tells run hit miss) : Tells (nested run) hit miss := by
  intro s
  have henter := s.tracer_enter
  unfold Run.nested
  rcases hstate : s.enter with ⟨_ | reason, after⟩
  · rw [hstate] at henter
    rw [← henter]
    exact h after
  · rw [hstate] at henter
    exact ⟨[], by rw [Tracer.told_nil]; exact henter, trivial⟩

/-- The first way that matches is the one that counts. Before its decisions there are those of the
ways that were tried before it. -/
theorem tells_firstOf {ways : List α} {attempt : α → Run}
    {hits : α → Captures → List Decision → Prop} {misses : α → Prop} {among : Decision → Prop}
    (h : ∀ way ∈ ways, Tells (attempt way) (hits way) fun ds =>
      misses way ∧ ∀ d ∈ ds, among d) :
    Tells (firstOf ways attempt)
      (fun captures ds => ∃ before way after earlier own, ways = before ++ way :: after ∧
        (∀ other ∈ before, misses other) ∧ ds = earlier ++ own ∧ (∀ d ∈ earlier, among d) ∧
        hits way captures own)
      (fun ds => (∀ way ∈ ways, misses way) ∧ ∀ d ∈ ds, among d) := by
  induction ways with
  | nil => exact tells_fail ⟨by simp, by simp⟩
  | cons way rest ih =>
    obtain ⟨hway, hrest⟩ := List.forall_mem_cons.mp h
    rw [firstOf_cons]
    refine tells_orElse (hway.imp (fun captures ds hhit => ?_) fun ds hmiss => hmiss) ?_
    · exact ⟨[], way, rest, [], ds, rfl, by simp, rfl, by simp, hhit⟩
    · rintro earlier ⟨hmiss, hearlier⟩
      refine (ih hrest).imp ?_ ?_
      · rintro captures _ ⟨before, found, after, tried, own, rfl, hbefore, rfl, htried, hhit⟩
        exact ⟨way :: before, found, after, earlier ++ tried, own, rfl,
          List.forall_mem_cons.mpr ⟨hmiss, hbefore⟩, (List.append_assoc _ _ _).symm,
          List.forall_mem_append.mpr ⟨hearlier, htried⟩, hhit⟩
      · rintro ds ⟨hall, hds⟩
        exact ⟨List.forall_mem_cons.mpr ⟨hmiss, hall⟩,
          List.forall_mem_append.mpr ⟨hearlier, hds⟩⟩

end

end Run

end Motif
