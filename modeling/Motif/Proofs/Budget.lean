import Motif.Matching
import Motif.Proofs.Room

/-!
What limits do to a match. Whatever the limits, a match plays one and the same
script, so there are exact thresholds. A limit on steps that is not below the
number of steps changes nothing, and a lower one stops the match at the first step
beyond it. A limit on depth that is not below the number of levels that the script
goes down changes nothing, and a lower one stops the match where it would be
exceeded. A match that is stopped has recorded a beginning of what it would have
recorded.
-/

namespace Motif

namespace Search

variable {s : Search} {m : Count}

/-- The same search with another limit on steps. -/
def limited (s : Search) (m : Count) : Search :=
  { s with limits := { s.limits with maxSteps := m } }

theorem enter_of_lt (h : (s.limits.maxDepth.value : Int) < s.depth + 1) :
    s.enter = (some (.maxDepth s.limits.maxDepth), { s with depth := s.depth + 1 }) := if_pos h

theorem enter_of_not_lt (h : ¬ (s.limits.maxDepth.value : Int) < s.depth + 1) :
    s.enter = (none, { s with depth := s.depth + 1 }) := if_neg h

/-- A limit on steps has no part in going down a level. -/
theorem enter_limited (s : Search) (m : Count) :
    (s.limited m).enter = (s.enter.1, s.enter.2.limited m) := by
  by_cases hdeep : (s.limits.maxDepth.value : Int) < s.depth + 1
  · rw [enter_of_lt hdeep]
    exact enter_of_lt hdeep
  · rw [enter_of_not_lt hdeep]
    exact enter_of_not_lt hdeep

theorem step_limited_of_lt (h : s.steps < m.value) :
    (s.limited m).step = (none, s.step.2.limited m) := by
  have hwithin : ¬ (m.value ≠ 0 ∧ m.value < s.steps + 1) := by omega
  rw [step_snd]
  exact if_neg hwithin

theorem step_limited_of_eq (hm : 0 < m.value) (h : s.steps = m.value) :
    (s.limited m).step = (some (.maxSteps m), s.step.2.limited m) := by
  have hbeyond : m.value ≠ 0 ∧ m.value < s.steps + 1 := by omega
  rw [step_snd]
  exact if_pos hbeyond

end Search

namespace Script

variable {script : Script} {s : Search} {m : Count}

/-- How a play that is stopped by a limit on steps compares with the play of the same script
without that limit. -/
structure CutShort (m : Count) (tracer : Option Tracer) (decisions : List Decision)
    (whole cut : Option Abort × Search) : Prop where
  more : m.value < whole.2.steps
  stopped : cut.1 = some (.maxSteps m)
  steps : cut.2.steps = m.value + 1
  record : ∃ kept chunks, kept <+: chunks ∧ chunks <+: decisions ∧
    cut.2.tracer = Tracer.told tracer kept ∧ whole.2.tracer = Tracer.told tracer chunks

/-- A limit on steps changes nothing about a play, or it cuts it short. -/
def Curbed (m : Count) (tracer : Option Tracer) (decisions : List Decision)
    (whole cut : Option Abort × Search) : Prop :=
  (whole.2.steps ≤ m.value ∧ cut = (whole.1, whole.2.limited m)) ∨
    CutShort m tracer decisions whole cut

variable {tracer : Option Tracer} {first : List Decision} {whole cut : Option Abort × Search}

/-- What was recorded before is recorded either way. -/
theorem Curbed.prepend {decisions : List Decision}
    (h : Curbed m (Tracer.told tracer first) decisions whole cut) :
    Curbed m tracer (first ++ decisions) whole cut := by
  rcases h with hwithin | ⟨hmore, hstopped, hsteps, kept, chunks, hkept, hchunks, hcut, hwhole⟩
  · exact Or.inl hwithin
  · rw [← Tracer.told_append] at hcut hwhole
    exact Or.inr ⟨hmore, hstopped, hsteps, first ++ kept, first ++ chunks,
      (List.prefix_append_right_inj first).mpr hkept,
      (List.prefix_append_right_inj first).mpr hchunks, hcut, hwhole⟩

/-- Whether a limit cuts a play short in its first part or in the rest, the rest only adds to what
is counted and recorded without the limit. -/
theorem Curbed.proceed {rest : Script} (h : Curbed m tracer first whole cut)
    (hrecord : whole.1 = none → whole.2.tracer = Tracer.told tracer first)
    (hrest : whole.1 = none → whole.2.steps ≤ m.value →
      Curbed m whole.2.tracer rest.decisions (rest.play whole.2) (rest.play (whole.2.limited m))) :
    Curbed m tracer (first ++ rest.decisions) (Search.proceed whole rest.play)
      (Search.proceed cut rest.play) := by
  cases hdone : whole.1 with
  | some reason =>
    rw [Search.proceed_of_some hdone]
    rcases h with ⟨hwithin, rfl⟩ | ⟨hmore, hstopped, hsteps, kept, chunks, hkept, hchunks, hboth⟩
    · rw [hdone]
      exact Or.inl ⟨hwithin, by rw [hdone]; rfl⟩
    · rw [Search.proceed_of_some hstopped]
      exact Or.inr ⟨hmore, hstopped, hsteps, kept, chunks, hkept,
        hchunks.trans (List.prefix_append _ _), hboth⟩
  | none =>
    rw [Search.proceed_of_none hdone]
    rcases h with ⟨hwithin, rfl⟩ | ⟨hmore, hstopped, hsteps, kept, chunks, hkept, hchunks, hcut, -⟩
    · have hlater := hrest hdone hwithin
      rw [hrecord hdone] at hlater
      rw [hdone]
      exact hlater.prepend
    · -- What was cut short stays so, while the play without the limit goes on.
      rw [Search.proceed_of_some hstopped]
      obtain ⟨-, hfurther, later, hlater, hwhole⟩ := rest.play_keeps whole.2
      rw [hrecord hdone, ← Tracer.told_append] at hwhole
      exact Or.inr ⟨Nat.lt_of_lt_of_le hmore hfurther, hstopped, hsteps, kept, first ++ later,
        (hkept.trans hchunks).trans (List.prefix_append _ _),
        (List.prefix_append_right_inj first).mpr hlater, hcut, hwhole⟩

theorem Curbed.leave (h : Curbed m tracer first whole cut) :
    Curbed m tracer first (whole.1, whole.2.leave) (cut.1, cut.2.leave) := by
  rcases h with ⟨hwithin, rfl⟩ | hshort
  · exact Or.inl ⟨hwithin, rfl⟩
  · exact Or.inr ⟨hshort.more, hshort.stopped, hshort.steps, hshort.record⟩

/-- A limit that is reached already stops a script at its next step. -/
theorem curbed_step (rest : Script) (hunlimited : s.limits.maxSteps.value = 0)
    (hm : 0 < m.value) (hs : s.steps = m.value) :
    Curbed m s.tracer (step rest).decisions ((step rest).play s)
      ((step rest).play (s.limited m)) := by
  have hcut : (step rest).play (s.limited m) = (some (.maxSteps m), s.step.2.limited m) := by
    simp only [play, Search.step_limited_of_eq hm hs]
    rfl
  obtain ⟨-, hsteps, kept, hkept, hrecord⟩ := rest.play_keeps s.step.2
  rw [Search.steps_step, hs] at hsteps
  rw [hcut, play_step_of_unlimited rest hunlimited]
  refine Or.inr ⟨hsteps, rfl, ?_, [], kept, List.nil_prefix, hkept, ?_, ?_⟩
  · rw [Search.step_snd, ← hs]
    rfl
  · rw [Search.step_snd, Tracer.told_nil]
    rfl
  · rw [hrecord, Search.step_snd]

/-- A limit on steps changes nothing until a script goes beyond it, and stops it there. -/
theorem curbed_play (script : Script) (hunlimited : s.limits.maxSteps.value = 0)
    (hm : 0 < m.value) (hs : s.steps ≤ m.value) :
    Curbed m s.tracer script.decisions (script.play s) (script.play (s.limited m)) := by
  induction script generalizing s with
  | done => exact Or.inl ⟨hs, rfl⟩
  | step rest ih =>
    -- The steps so far are within the limit; whether there is one left decides the case.
    rcases Nat.lt_or_eq_of_le hs with hlt | heq
    · have hcut : (step rest).play (s.limited m) = rest.play (s.step.2.limited m) := by
        simp only [play, Search.step_limited_of_lt hlt]
        rfl
      rw [play_step_of_unlimited rest hunlimited, hcut, Search.step_snd]
      exact ih hunlimited hlt
    · exact curbed_step rest hunlimited hm heq
  | note d rest ih =>
    have hnoted : (s.note d).tracer = Tracer.told s.tracer [d] := by
      rw [Tracer.told_cons, Tracer.told_nil]
      rfl
    have hrest := ih (s := s.note d) hunlimited hs
    rw [hnoted] at hrest
    exact hrest.prepend
  | level body rest ihbody ih =>
    simp only [play, Search.enter_limited]
    cases henter : s.enter.1 with
    | some reason =>
      rw [Search.proceed_of_some henter]
      exact Or.inl ⟨by rw [Search.steps_enter]; exact hs, by rw [henter]; rfl⟩
    | none =>
      -- Levels are not counted, so the limit can only be exceeded in the body or after it.
      rw [Search.proceed_of_none henter]
      have hunlimited' : s.enter.2.limits.maxSteps.value = 0 := by
        rw [Search.limits_enter, hunlimited]
      have hbody := ihbody hunlimited' (Nat.le_trans (Nat.le_of_eq s.steps_enter) hs)
      rw [Search.tracer_enter] at hbody
      refine hbody.leave.proceed (fun hdone => ?_) fun _ hwithin => ih ?_ hwithin
      · simp only [Search.leave, play_of_none hdone, Search.after, Search.tracer_enter]
      · rw [← hunlimited']
        exact congrArg (·.maxSteps.value) (body.play_keeps s.enter.2).1

/-- Without room for its height, a script is stopped for its depth. -/
theorem play_of_cramped (hunlimited : s.limits.maxSteps.value = 0)
    (hdepth : s.depth ≤ s.limits.maxDepth.value)
    (hcramped : (s.limits.maxDepth.value : Int) < s.depth + script.height) :
    (script.play s).1 = some (.maxDepth s.limits.maxDepth) := by
  induction script generalizing s with
  | done =>
    simp only [height] at hcramped
    omega
  | step rest ih =>
    rw [play_step_of_unlimited rest hunlimited, Search.step_snd]
    exact ih hunlimited hdepth hcramped
  | note d rest ih => exact ih hunlimited hdepth hcramped
  | level body rest ihbody ih =>
    by_cases hdeep : (s.limits.maxDepth.value : Int) < s.depth + 1
    · simp only [play, Search.enter_of_lt hdeep, Search.proceed]
    · simp only [play, Search.enter_of_not_lt hdeep, Search.proceed_of_none]
      -- If the body fits, the level that is too deep is in the rest of the script.
      by_cases hbelow : (s.limits.maxDepth.value : Int) < s.depth + 1 + body.height
      · rw [ihbody (s := { s with depth := s.depth + 1 }) hunlimited (Int.not_lt.mp hdeep) hbelow]
        rfl
      · have hbody : (body.play { s with depth := s.depth + 1 }).1 = none :=
          play_of_roomy ⟨hunlimited, Int.not_lt.mp hbelow⟩
        simp only [height] at hcramped
        rw [hbody, play_of_none hbody]
        simp only [Search.proceed, Search.leave, Search.after, Int.add_sub_cancel]
        exact ih hunlimited hdepth (by simp only; omega)

end Script

/-- A search whose tracer has been told of its start. -/
def Search.begun (limits : Limits) (tracer : Option Tracer) : Search :=
  fresh limits (Tracer.told tracer [.started])

namespace Run

/-- What is reported of a run that is watched from its start to its end. -/
def report (run : Run) (limits : Limits) (tracer : Option Tracer) : Report :=
  let (outcome, s) := run (Search.begun limits tracer)
  ⟨outcome, s.steps, Tracer.told s.tracer [.ended outcome.isMatched s.steps]⟩

end Run

/-- A report comes with the record of a match: its start, decisions about chunks, and its end. -/
def Report.Records (report : Report) (tracer : Option Tracer) (chunks : List Decision) : Prop :=
  (∀ d ∈ chunks, d.ofChunk = true) ∧
    report.tracer = Tracer.told tracer
      (.started :: (chunks ++ [.ended report.outcome.isMatched report.steps]))

namespace Script

variable {script : Script} {outcome : Outcome} {limits : Limits} {tracer : Option Tracer}

theorem play_begun_of_ample (hunlimited : limits.maxSteps.value = 0)
    (h : script.height ≤ limits.maxDepth.value) :
    (script.play (Search.begun limits tracer)).1 = none :=
  play_of_roomy ⟨hunlimited, by simp only [Search.begun, Search.fresh]; omega⟩

theorem play_begun_of_scant (hunlimited : limits.maxSteps.value = 0)
    (h : limits.maxDepth.value < script.height) :
    (script.play (Search.begun limits tracer)).1 = some (.maxDepth limits.maxDepth) :=
  play_of_cramped hunlimited (by simp only [Search.begun, Search.fresh]; omega)
    (by simp only [Search.begun, Search.fresh]; omega)

theorem report_steps : ((script.run outcome).report limits tracer).steps =
    (script.play (Search.begun limits tracer)).2.steps := by
  simp only [Run.report, run_snd]

theorem report_records {chunks : List Decision} (hchunks : ∀ d ∈ chunks, d.ofChunk = true)
    (h : (script.play (Search.begun limits tracer)).2.tracer =
      Tracer.told (Tracer.told tracer [.started]) chunks) :
    ((script.run outcome).report limits tracer).Records tracer chunks := by
  refine ⟨hchunks, ?_⟩
  simp only [Run.report, run_snd, h, ← Tracer.told_append, List.append_assoc]
  rfl

/-- A script that is played to its end leaves one and the same report under all limits. -/
theorem report_of_none (h : (script.play (Search.begun limits tracer)).1 = none) :
    (script.run outcome).report limits tracer = ⟨outcome, script.steps, Tracer.told tracer
      (.started :: (script.decisions ++ [.ended outcome.isMatched script.steps]))⟩ := by
  simp only [Run.report, run_of_none outcome h, play_of_none h]
  simp only [Search.after, Search.begun, Search.fresh, Nat.zero_add, ← Tracer.told_append,
    List.append_assoc]
  rfl

theorem report_of_some {reason : Abort}
    (h : (script.play (Search.begun limits tracer)).1 = some reason) :
    ((script.run outcome).report limits tracer).outcome = .aborted reason := by
  simp only [Run.report, run_of_some outcome h]

theorem report_limited {m : Count}
    (h : script.play ((Search.begun limits tracer).limited m) =
      ((script.play (Search.begun limits tracer)).1,
        (script.play (Search.begun limits tracer)).2.limited m)) :
    (script.run outcome).report { limits with maxSteps := m } tracer =
      (script.run outcome).report limits tracer := by
  have hlimited : Search.begun { limits with maxSteps := m } tracer =
    (Search.begun limits tracer).limited m := rfl
  simp only [Run.report, run, hlimited, h]
  rcases script.play (Search.begun limits tracer) with ⟨_ | reason, s⟩
  · rfl
  · rfl

end Script

namespace Pattern

/-- Whatever the limits, a match plays one script. -/
theorem exists_script (p : Pattern Value) (v : Value) : ∃ script outcome,
    Run.Plays p.height false (p.bind v []) script outcome ∧ ∀ limits tracer,
      p.matchAgainst v limits tracer = (script.run outcome).report limits tracer := by
  obtain ⟨script, outcome, hplays⟩ :=
    scripted_bindWith Repetition.lengths (fun _ => rfl) (Nat.le_refl p.height) v []
  refine ⟨script, outcome, hplays, fun limits tracer => ?_⟩
  rw [← hplays.eq]
  rfl

/-- However a match ends, it has recorded its start, decisions about chunks, and its end. -/
theorem exists_records (p : Pattern Value) (v : Value) (limits : Limits) (tracer : Option Tracer) :
    ∃ chunks, (p.matchAgainst v limits tracer).Records tracer chunks := by
  obtain ⟨script, outcome, hplays, hreport⟩ := p.exists_script v
  obtain ⟨-, -, kept, hkept, hrecord⟩ := script.play_keeps (Search.begun limits tracer)
  rw [hreport]
  exact ⟨kept, Script.report_records (fun d hd => hplays.ofChunk d (hkept.mem hd)) hrecord⟩

/-- A limit on steps is an exact threshold. Compare a match under no such limit with the same match
under one. If the limit is not below the number of steps, it makes no difference. If it is, the
match is given up at the first step beyond it, with a beginning of the record. -/
theorem matchAgainst_maxSteps (p : Pattern Value) (v : Value) (limits : Limits)
    (hunlimited : limits.maxSteps.value = 0) (m : Count) (hm : 0 < m.value)
    (tracer : Option Tracer) :
    let whole := p.matchAgainst v limits tracer
    let cut := p.matchAgainst v { limits with maxSteps := m } tracer
    (whole.steps ≤ m.value → cut = whole) ∧
    (m.value < whole.steps →
      cut.outcome = .aborted (.maxSteps m) ∧ cut.steps = m.value + 1 ∧
      ∃ chunks kept, kept <+: chunks ∧ whole.Records tracer chunks ∧ cut.Records tracer kept) := by
  obtain ⟨script, outcome, hplays, hreport⟩ := p.exists_script v
  simp only [hreport, Script.report_steps]
  rcases script.curbed_play (s := Search.begun limits tracer)
    hunlimited hm (Nat.zero_le _) with ⟨hwithin, hsame⟩ | hshort
  · exact ⟨fun _ => Script.report_limited hsame, fun hmore => absurd hwithin (Nat.not_le.mpr hmore)⟩
  · refine ⟨fun hwithin => absurd hwithin (Nat.not_le.mpr hshort.more), fun _ => ?_⟩
    obtain ⟨kept, chunks, hkept, hchunks, hcut, hwhole⟩ := hshort.record
    have hofChunk : ∀ d ∈ chunks, d.ofChunk = true := fun d hd => hplays.ofChunk d (hchunks.mem hd)
    exact ⟨Script.report_of_some hshort.stopped, hshort.steps, chunks, kept, hkept,
      Script.report_records hofChunk hwhole,
      Script.report_records (fun d hd => hofChunk d (hkept.mem hd)) hcut⟩

/-- Looking for a one among two items, the last item first, takes four chunks. -/
theorem matchAgainst_maxSteps_four :
    let others : Pattern Value := .repeated .wildcard .greedy none
    let p : Pattern Value := .sequence [others, .literal (.int 1), others]
    let v := Value.list [.int 1, .int 2]
    let cut := p.matchAgainst v { Limits.standard with maxSteps := .number 3 } (some .empty)
    cut.outcome = .aborted (.maxSteps (.number 3)) ∧ cut.steps = 4 ∧
    p.matchAgainst v { Limits.standard with maxSteps := .number 4 } (some .empty) =
      p.matchAgainst v .standard (some .empty) := by
  intro others p v cut
  have hcut := matchAgainst_maxSteps p v .standard rfl (.number 3) (by decide) (some .empty)
  have hsame := matchAgainst_maxSteps p v .standard rfl (.number 4) (by decide) (some .empty)
  obtain ⟨houtcome, hsteps, -⟩ := hcut.2 (by decide)
  exact ⟨houtcome, hsteps, hsame.1 (by decide)⟩

/-- A limit on depth is an exact threshold as well, for matches whose steps are not limited. What a
match needs is no more than the height of the pattern, and the limits do not matter to it. Where
there is as much, the report is always the same one. Where there is less, the match is given up
with a beginning of that record. So to allow for more levels never changes the report on a match
that was not given up for its depth. -/
theorem matchAgainst_maxDepth (p : Pattern Value) (v : Value) :
    ∃ needed ≤ p.height,
      (∀ (limits : Limits) (tracer : Option Tracer), limits.maxSteps.value = 0 →
        needed ≤ limits.maxDepth.value →
        (∀ limit, (p.matchAgainst v limits tracer).outcome ≠ .aborted (.maxDepth limit)) ∧
        ∀ other : Limits, other.maxSteps.value = 0 → needed ≤ other.maxDepth.value →
          p.matchAgainst v other tracer = p.matchAgainst v limits tracer) ∧
      (∀ (limits : Limits) (tracer : Option Tracer), limits.maxSteps.value = 0 →
        limits.maxDepth.value < needed →
        (p.matchAgainst v limits tracer).outcome = .aborted (.maxDepth limits.maxDepth) ∧
        ∀ ample : Limits, ample.maxSteps.value = 0 → needed ≤ ample.maxDepth.value →
          ∃ chunks kept, kept <+: chunks ∧ (p.matchAgainst v ample tracer).Records tracer chunks ∧
            (p.matchAgainst v limits tracer).Records tracer kept) ∧
      (∀ (limits wider : Limits) (tracer : Option Tracer), limits.maxSteps.value = 0 →
        wider.maxSteps.value = 0 → limits.maxDepth.value ≤ wider.maxDepth.value →
        (∀ limit, (p.matchAgainst v limits tracer).outcome ≠ .aborted (.maxDepth limit)) →
        p.matchAgainst v wider tracer = p.matchAgainst v limits tracer) := by
  obtain ⟨script, outcome, hplays, hreport⟩ := p.exists_script v
  simp only [hreport]
  refine ⟨script.height, hplays.height, fun limits tracer hunlimited hroom => ⟨?_, ?_⟩,
    fun limits tracer hunlimited hcramped => ⟨?_, ?_⟩,
    fun limits wider tracer hunlimited hunlimited' hwider hanswer => ?_⟩
  · intro limit haborted
    rw [Script.report_of_none (Script.play_begun_of_ample hunlimited hroom)] at haborted
    cases (hplays.of_aborted _ haborted).2
  · intro other hunlimited' hroom'
    rw [Script.report_of_none (Script.play_begun_of_ample hunlimited hroom),
      Script.report_of_none (Script.play_begun_of_ample hunlimited' hroom')]
  · exact Script.report_of_some (Script.play_begun_of_scant hunlimited hcramped)
  · intro ample hunlimited' hroom
    obtain ⟨-, -, kept, hkept, hrecord⟩ := script.play_keeps (Search.begun limits tracer)
    refine ⟨script.decisions, kept, hkept, Script.report_records hplays.ofChunk ?_,
      Script.report_records (fun d hd => hplays.ofChunk d (hkept.mem hd)) hrecord⟩
    rw [Script.play_of_none (Script.play_begun_of_ample hunlimited' hroom)]
    rfl
  · have hroom : script.height ≤ limits.maxDepth.value := Nat.le_of_not_lt fun hcramped =>
      hanswer _ (Script.report_of_some (Script.play_begun_of_scant hunlimited hcramped))
    rw [Script.report_of_none (Script.play_begun_of_ample hunlimited hroom),
      Script.report_of_none (Script.play_begun_of_ample hunlimited' (Nat.le_trans hroom hwider))]

/-- Two levels are needed for a sequence in a sequence, and one is not enough. -/
theorem matchAgainst_maxDepth_two :
    let p : Pattern Value := .sequence [.sequence [.wildcard]]
    let v := Value.list [.list [.null]]
    p.matchAgainst v ⟨.number 2, .number 0, by decide⟩ (some .empty) =
      p.matchAgainst v .standard (some .empty) ∧
    (p.matchAgainst v ⟨.number 1, .number 0, by decide⟩ (some .empty)).outcome =
      .aborted (.maxDepth (.number 1)) := by
  intro p v
  obtain ⟨needed, hheight, hample, hscant, -⟩ := matchAgainst_maxDepth p v
  -- The theorem only bounds what is needed; that one level falls short is seen by matching.
  have hneeded : needed ≤ 2 := hheight
  have hstandard := hample .standard (some .empty) rfl (Nat.le_trans hneeded (by decide))
  refine ⟨hstandard.2 _ rfl hneeded, ?_⟩
  refine (hscant ⟨.number 1, .number 0, by decide⟩ (some .empty) rfl ?_).1
  refine Nat.lt_of_not_le fun hlow => ?_
  have hanswer := (hample ⟨.number 1, .number 0, by decide⟩ (some .empty) rfl hlow).1 (.number 1)
  exact hanswer rfl

end Pattern

end Motif
