import Motif.Proofs.Script

/-!
Searches that are never given up. The limits stay what they are, steps are only
ever added, and a run that is not given up ends on the level on which it began.
So where steps are not limited, and there is room below for as many levels as a
pattern is high, matching a sound pattern comes to an answer. Elsewhere nothing but
a limit keeps it from one. All of this is read off the scripts that are played: a
script is played to its end just where the limits leave enough steps and levels for
it.
-/

namespace Motif

/-- Steps are not limited, and there is room for some more levels. -/
def Search.Roomy (s : Search) (levels : Nat) : Prop :=
  s.limits.maxSteps.value = 0 ∧ s.depth + levels ≤ s.limits.maxDepth.value

/-- Whether the limits leave a search what it takes to play a script to its end: as many steps as
the script counts, if it counts any, and as many levels as it goes down, if it goes down at all. -/
def Search.Affords (s : Search) (script : Script) : Prop :=
  (s.limits.maxSteps.value = 0 ∨ script.steps = 0 ∨
    s.steps + script.steps ≤ s.limits.maxSteps.value) ∧
  (script.height = 0 ∨ s.depth + script.height ≤ s.limits.maxDepth.value)

namespace Search

variable {s t : Search} {levels : Nat} {script : Script}

theorem Roomy.mono (h : s.Roomy levels) {fewer : Nat} (hfewer : fewer ≤ levels) :
    s.Roomy fewer := by
  obtain ⟨hsteps, hroom⟩ := h
  exact ⟨hsteps, by omega⟩

theorem overBudget_of_step {reason : Abort} (h : s.step.1 = some reason) :
    reason.overBudget = true := by
  simp only [step] at h
  split at h
  · cases h
    rfl
  · cases h

theorem overBudget_of_enter {reason : Abort} (h : s.enter.1 = some reason) :
    reason.overBudget = true := by
  simp only [enter] at h
  split at h
  · cases h
    rfl
  · cases h

theorem step_eq_none_iff : s.step.1 = none ↔
    s.limits.maxSteps.value = 0 ∨ s.steps + 1 ≤ s.limits.maxSteps.value := by
  simp only [step]
  split
  · next hbeyond =>
    constructor
    · rintro ⟨⟩
    · omega
  · next hwithin =>
    simp only [true_iff]
    omega

theorem step_of_unlimited (h : s.limits.maxSteps.value = 0) : s.step.1 = none :=
  step_eq_none_iff.mpr (Or.inl h)

theorem enter_eq_none_iff : s.enter.1 = none ↔ s.depth + 1 ≤ s.limits.maxDepth.value := by
  simp only [enter]
  split
  · next hdeep =>
    constructor
    · rintro ⟨⟩
    · omega
  · next hroom =>
    simp only [true_iff]
    omega

/-- A search that has counted no more steps and has gone no further down can afford as much. -/
theorem Affords.mono (h : t.Affords script) (hlimits : s.limits = t.limits)
    (hsteps : s.steps ≤ t.steps) (hdepth : s.depth ≤ t.depth) : s.Affords script := by
  obtain ⟨hcount, hlevels⟩ := h
  rw [← hlimits] at hcount hlevels
  exact ⟨by omega, by omega⟩

/-- Where there is room for its height, a script can be afforded. -/
theorem Roomy.affords (h : s.Roomy script.height) : s.Affords script :=
  ⟨Or.inl h.1, Or.inr h.2⟩

end Search

namespace Script

variable {script : Script} {s : Search}

/-- Only a limit stops a script. -/
theorem overBudget_of_play {reason : Abort} (h : (script.play s).1 = some reason) :
    reason.overBudget = true := by
  induction script generalizing s with
  | done => cases h
  | step rest ih =>
    rcases play_step_cases rest s with ⟨-, hplay⟩ | ⟨other, hstep, hplay⟩
    · rw [hplay] at h
      exact ih h
    · rw [hplay] at h
      exact Search.overBudget_of_step h
  | note d rest ih => exact ih h
  | level body rest ihbody ih =>
    rcases play_level_cases body rest s with ⟨-, -, hplay⟩ | ⟨-, other, hbody, hplay⟩ |
      ⟨other, -, hplay⟩
    · rw [hplay] at h
      exact ih h
    · rw [hplay] at h
      cases h
      exact ihbody hbody
    · rw [hplay] at h
      exact Search.overBudget_of_enter h

theorem play_step_of_unlimited (rest : Script) (h : s.limits.maxSteps.value = 0) :
    (step rest).play s = rest.play s.step.2 :=
  Search.proceed_of_none (Search.step_of_unlimited h) _

/-- A script is played to its end just where the search can afford it. -/
theorem play_eq_none_iff (script : Script) (s : Search) :
    (script.play s).1 = none ↔ s.Affords script := by
  induction script generalizing s with
  | done => simp [play, Search.Affords, steps, height]
  | step rest ih =>
    have hstep := Search.step_eq_none_iff (s := s)
    have hrest := ih s.step.2
    simp only [Search.Affords, Search.limits_step, Search.steps_step, Search.depth_step] at hrest
    simp only [Search.Affords, steps, height]
    rcases play_step_cases rest s with ⟨hmay, hplay⟩ | ⟨reason, hstop, hplay⟩
    · rw [hplay, hrest]
      have hwithin := hstep.mp hmay
      omega
    · rw [hplay, hstop]
      rw [hstop] at hstep
      constructor
      · rintro ⟨⟩
      · rintro ⟨hcount, -⟩
        exact hstep.mpr (by omega)
  | note d rest ih => exact ih (s.note d)
  | level body rest ihbody ih =>
    have henter := Search.enter_eq_none_iff (s := s)
    have hbody := ihbody s.enter.2
    simp only [Search.Affords, Search.limits_enter, Search.steps_enter, Search.depth_enter]
      at hbody
    simp only [Search.Affords, steps, height]
    rcases play_level_cases body rest s with ⟨hmay, hdone, hplay⟩ | ⟨hmay, reason, hstop, hplay⟩ |
      ⟨reason, hstop, hplay⟩
    · -- After the body the search is on the level from before, with the steps of the body counted.
      have hrest := ih (body.play s.enter.2).2.leave
      rw [play_of_none hdone, Search.enter_snd] at hrest
      simp only [Search.Affords, Search.leave, Search.after, Int.add_sub_cancel] at hrest
      have hentered := henter.mp hmay
      have hplayed := hbody.mp hdone
      rw [hplay, play_of_none hdone, Search.enter_snd]
      simp only [Search.leave, Search.after, Int.add_sub_cancel]
      rw [hrest]
      omega
    · rw [hplay]
      have hentered := henter.mp hmay
      rw [hstop] at hbody
      constructor
      · rintro ⟨⟩
      · rintro ⟨hcount, hlevels⟩
        exact hbody.mpr ⟨by omega, by omega⟩
    · rw [hplay, hstop]
      rw [hstop] at henter
      constructor
      · rintro ⟨⟩
      · rintro ⟨-, hlevels⟩
        exact henter.mpr (by omega)

/-- With room for its height, a script is played to its end. -/
theorem play_of_roomy (h : s.Roomy script.height) : (script.play s).1 = none :=
  (play_eq_none_iff script s).mpr h.affords

end Script

namespace Run

/-- A run is steady when it leaves the limits alone, takes no step back, and ends on the level on
which it began unless it is given up. -/
def Steady (run : Captures → Run) : Prop :=
  ∀ captures s, (run captures s).2.limits = s.limits ∧ s.steps ≤ (run captures s).2.steps ∧
    ((run captures s).1.isAborted = false → (run captures s).2.depth = s.depth)

/-- A run is firm when nothing but an exceeded limit makes it give up. -/
def Firm (run : Captures → Run) : Prop :=
  ∀ captures s reason, (run captures s).1 = .aborted reason → reason.overBudget = true

/-- A run is calm when, with room for so many levels, it is not given up. -/
def Calm (levels : Nat) (run : Captures → Run) : Prop :=
  Steady run ∧ ∀ captures s, s.Roomy levels → (run captures s).1.isAborted = false

variable {levels : Nat} {sound : Bool} {run : Captures → Run}

theorem Scripted.steady (h : Scripted levels sound run) : Steady run := by
  intro captures s
  obtain ⟨script, outcome, hplays⟩ := h captures
  obtain ⟨hlimits, hsteps, -⟩ := script.play_keeps s
  rw [hplays.eq]
  refine ⟨?_, ?_, fun hanswer => ?_⟩
  · rw [Script.run_snd]
    exact hlimits
  · rw [Script.run_snd]
    exact hsteps
  · cases hplay : (script.play s).1 with
    | none =>
      rw [Script.run_snd, Script.play_of_none hplay]
      rfl
    | some reason =>
      rw [Script.run_of_some outcome hplay] at hanswer
      cases hanswer

/-- What is sound is only given up for a limit. -/
theorem Scripted.firm (h : Scripted levels true run) : Firm run := by
  intro captures s reason haborted
  obtain ⟨script, outcome, hplays⟩ := h captures
  rw [hplays.eq] at haborted
  cases hplay : (script.play s).1 with
  | none =>
    rw [Script.run_of_none outcome hplay] at haborted
    cases (hplays.of_aborted reason haborted).1
  | some other =>
    rw [Script.run_of_some outcome hplay] at haborted
    cases haborted
    exact Script.overBudget_of_play hplay

/-- What is sound comes to an answer wherever there is room for it. -/
theorem Scripted.calm (h : Scripted levels true run) : Calm levels run := by
  refine ⟨h.steady, fun captures s hroom => ?_⟩
  obtain ⟨script, outcome, hplays⟩ := h captures
  have hplay : (script.play s).1 = none := Script.play_of_roomy (hroom.mono hplays.height)
  rw [hplays.eq, Script.run_of_none outcome hplay]
  cases outcome with
  | matched made => rfl
  | noMatch => rfl
  | aborted reason => cases (hplays.of_aborted reason rfl).1

end Run

/-- A sound pattern is only given up for a limit. -/
theorem Pattern.firm_bindWith (lengths : LengthPolicy) {p : Pattern Value}
    (hsound : p.isSound = true) (v : Value) : Run.Firm (bindWith lengths p v) :=
  (scripted_of_sound lengths hsound (Nat.le_refl p.height) v).firm

namespace Sequence

open Pattern Run

/-- Trying a piece on a pattern and walking on over the rest is steady. -/
theorem steady_attempt (lengths : LengthPolicy) (form : Form) (p : Pattern Value)
    (rest : List (Chunk (Pattern Value))) {d : Decision} (hd : d.ofChunk = true) (ci xi : Nat)
    (piece : Value) (items : List Value) :
    Steady fun captures => noting d (andThen (bindWith lengths p piece captures) fun captures =>
      walk lengths form ci (rest.map (Chunk.map (matcher lengths))) xi items captures) := by
  have hclosed := closed_scripted (max p.height (tallest (rest.flatMap Chunk.elements))) false
  have hpiece := scripted_bindWith lengths (fun _ => rfl)
    (Nat.le_max_left p.height (tallest (rest.flatMap Chunk.elements))) piece
  refine (hclosed.noting d hd (hclosed.andThen hpiece ?_)).steady
  refine hclosed.walk lengths form (fun chunk hchunk m hm v => ?_) ci xi items
  obtain ⟨chunk, hmem, rfl⟩ := List.mem_map.mp hchunk
  rw [Chunk.elements_map] at hm
  obtain ⟨q, hq, rfl⟩ := List.mem_map.mp hm
  have hlow := height_le_tallest _ q (List.mem_flatMap.mpr ⟨chunk, hmem, hq⟩)
  exact scripted_bindWith lengths (fun _ => rfl) (Nat.le_trans hlow (Nat.le_max_right _ _)) v

end Sequence

end Motif
