import Motif.Proofs.Answer
import Motif.Proofs.Budget
import Motif.Proofs.Descent

/-!
Matches on shallow candidates, with no more sequences in each other than the limit on depth
allows for. A sequence pattern looks at what it is given first and goes down a level only
into a sequence, so it never asks for a level that the candidate does not have. An array goes
down first and looks afterwards. So a shallow candidate is given up for its depth only where an
array is applied on the last level to something that is no sequence.
-/

namespace Motif

namespace Visit

variable {candidate : Value} {maxDepth : Nat} {visit : Visit}

/-- An array that is applied, on the last level that is allowed, to what is no sequence. -/
def Overreaches (maxDepth : Nat) (visit : Visit) : Prop :=
  (∃ inner bounds, visit.pattern = .arrayOf inner bounds) ∧ visit.value.items? = none ∧
    visit.depth = maxDepth

/-- The depth of a visit that goes down is at most its level. -/
theorem Charged.depth_le_level (h : visit.Charged candidate maxDepth)
    (hdescends : visit.pattern.descends visit.value = true) :
    visit.depth ≤ visit.spot.level ∧ candidate.Occurs visit.spot.level visit.value := by
  have hsingle : visit.pattern.repetition? = none := by
    cases hpattern : visit.pattern with
    | repeated inner mode bounds | named label inner =>
      rw [hpattern] at hdescends
      cases hdescends
    | _ => rfl
  have hwhole := h.whole hsingle
  have hreach := h.reach
  rw [Spot.reach_of_whole hwhole] at hreach
  exact ⟨by omega, h.holds.occurs hwhole⟩

/-- In a shallow candidate, only an array on the last level is too deep. -/
theorem Charged.tooDeep_iff (h : visit.Charged candidate maxDepth)
    (hshallow : candidate.nesting ≤ maxDepth) :
    visit.TooDeep maxDepth ↔ visit.Overreaches maxDepth ∧ candidate.nesting = maxDepth := by
  constructor
  · rintro ⟨hdescends, hdeep⟩
    obtain ⟨hlevel, hoccurs⟩ := h.depth_le_level hdescends
    have hnesting := hoccurs.add_nesting_le
    have hdepth := h.depth
    -- A sequence this deep would have one more level than there are.
    have hscalar : visit.value.items? = none := by
      cases hvalue : visit.value with
      | seq form items =>
        rw [hvalue, Value.nesting] at hnesting
        omega
      | _ => rfl
    cases hpattern : visit.pattern with
    | arrayOf inner bounds =>
      exact ⟨⟨⟨inner, bounds, hpattern⟩, hscalar, by omega⟩, by omega⟩
    | sequence elements =>
      rw [hpattern, Pattern.descends, hscalar] at hdescends
      cases hdescends
    | _ =>
      rw [hpattern] at hdescends
      cases hdescends
  · rintro ⟨⟨⟨inner, bounds, hpattern⟩, -, hdepth⟩, -⟩
    exact ⟨by rw [hpattern]; rfl, by omega⟩

end Visit

namespace Pattern

variable {p : Pattern Value} {v : Value} {limits : Limits} {tracer : Option Tracer}

/-- A match is given up for its depth where a visit goes down that is too deep, and nowhere else. -/
theorem aborted_iff_tooDeep :
    (∃ limit, (p.matchAgainst v limits tracer).outcome = .aborted (.maxDepth limit)) ↔
      ∃ visit, .applied visit ∈ (p.surveyed v limits tracer).sights ∧
        visit.TooDeep limits.maxDepth.value := by
  have hstopped := (p.accounts_surveyed v limits tracer).stopped
  simp only [Seen.TooDeep, outcome_surveyed, Option.some.injEq] at hstopped
  rw [hstopped]
  constructor
  · rintro ⟨sight, hseen, hdeep⟩
    cases sight with
    | applied visit => exact ⟨visit, hseen, hdeep⟩
    | moved items move => exact hdeep.elim
  · rintro ⟨visit, hseen, hdeep⟩
    exact ⟨.applied visit, hseen, hdeep⟩

/-- Without a limit on steps, a match of a sound pattern that is not given up for its depth comes
to an answer, and the answer is what the pattern means. -/
theorem answers_of_not_tooDeep (hsound : p.isSound = true) (hsteps : limits.maxSteps.value = 0)
    (hdepth : ∀ limit, (p.matchAgainst v limits tracer).outcome ≠ .aborted (.maxDepth limit)) :
    ((p.matchAgainst v limits tracer).outcome.isMatched = true ∧ Matches p v) ∨
      (p.matchAgainst v limits tracer).outcome = .noMatch ∧ ¬ Matches p v := by
  obtain ⟨script, outcome, hplays⟩ :=
    scripted_of_sound Repetition.lengths hsound (Nat.le_refl p.height) v []
  have hreport : p.matchAgainst v limits tracer = (script.run outcome).report limits tracer := by
    rw [← hplays.eq]
    rfl
  have hplay : (script.play (Search.begun limits tracer)).1 = none := by
    rcases Nat.lt_or_ge limits.maxDepth.value script.height with hscant | hample
    · have hgiven : ((script.run outcome).report limits tracer).outcome =
          .aborted (.maxDepth limits.maxDepth) :=
        Script.report_of_some (Script.play_begun_of_scant hsteps hscant)
      rw [← hreport] at hgiven
      exact absurd hgiven (hdepth limits.maxDepth)
    · exact Script.play_begun_of_ample hsteps hample
  have houtcome : (p.bind v [] (Search.begun limits tracer)).1 = outcome := by
    rw [bind, hplays.eq, Script.run_of_none outcome hplay]
  have hdecides := decides Repetition.faithful_lengths p v []
  have hsame : (p.matchAgainst v limits tracer).outcome = outcome := by
    rw [hreport, Script.report_of_none hplay]
  rw [hsame]
  cases hcase : outcome with
  | matched captures =>
    rw [hcase] at houtcome
    obtain ⟨made, hmade, -⟩ := hdecides.matched houtcome
    exact Or.inl ⟨rfl, hmade.matches⟩
  | noMatch =>
    rw [hcase] at houtcome
    exact Or.inr ⟨rfl, hdecides.missed houtcome⟩
  | aborted reason => cases (hplays.of_aborted reason hcase).1

/-- When a match on a shallow candidate is given up for its depth: where an array is applied, on the
last level that is allowed, to what is no sequence, and only if the candidate has that level. In
every other case a sound pattern that wants more levels than there are simply does not match. -/
theorem matchAgainst_shallow (p : Pattern Value) (v : Value) (limits : Limits)
    (tracer : Option Tracer) (hshallow : v.nesting ≤ limits.maxDepth.value) :
    let report := p.matchAgainst v limits tracer
    let seen := p.surveyed v limits tracer
    seen.report? = some report ∧
      ((∃ limit, report.outcome = .aborted (.maxDepth limit)) ↔
        v.nesting = limits.maxDepth.value ∧
          ∃ visit, .applied visit ∈ seen.sights ∧ visit.Overreaches limits.maxDepth.value) ∧
      (p.isSound = true → limits.maxSteps.value = 0 →
        (v.nesting = limits.maxDepth.value →
          ∀ visit, .applied visit ∈ seen.sights → ¬ visit.Overreaches limits.maxDepth.value) →
        (report.outcome.isMatched = true ↔ Matches p v) ∧
          (report.outcome = .noMatch ↔ ¬ Matches p v)) := by
  intro report seen
  have hiff : (∃ limit, report.outcome = .aborted (.maxDepth limit)) ↔
      v.nesting = limits.maxDepth.value ∧
        ∃ visit, .applied visit ∈ seen.sights ∧ visit.Overreaches limits.maxDepth.value := by
    rw [aborted_iff_tooDeep]
    constructor
    · rintro ⟨visit, hseen, hdeep⟩
      obtain ⟨hover, hnesting⟩ := ((charged_of_applied hseen).tooDeep_iff hshallow).mp hdeep
      exact ⟨hnesting, visit, hseen, hover⟩
    · rintro ⟨hnesting, visit, hseen, hover⟩
      exact ⟨visit, hseen, ((charged_of_applied hseen).tooDeep_iff hshallow).mpr ⟨hover, hnesting⟩⟩
  refine ⟨p.report?_surveyed v limits tracer, hiff, fun hsound hsteps hnever => ?_⟩
  have hdepth : ∀ limit, report.outcome ≠ .aborted (.maxDepth limit) := by
    intro limit hlimit
    obtain ⟨hnesting, visit, hseen, hover⟩ := hiff.mp ⟨limit, hlimit⟩
    exact hnever hnesting visit hseen hover
  rcases answers_of_not_tooDeep hsound hsteps hdepth with ⟨hmatched, hmatches⟩ | ⟨hnone, hmiss⟩
  · have hnot : report.outcome ≠ .noMatch := by
      intro hnone
      rw [hnone] at hmatched
      cases hmatched
    exact ⟨iff_of_true hmatched hmatches, iff_of_false hnot (not_not_intro hmatches)⟩
  · have hnot : report.outcome.isMatched ≠ true := by
      rw [hnone]
      nofun
    exact ⟨iff_of_false hnot hmiss, iff_of_true hnone hmiss⟩

/-- With a level to spare, an array in a sequence finds out that there is no sequence. -/
theorem matchAgainst_shallow_spare :
    let p : Pattern Value := .sequence [.arrayOf .wildcard none]
    let v := Value.list [.int 5]
    v.nesting ≤ 2 ∧ ¬ Matches p v := by
  intro p v
  have hshallow : v.nesting ≤ 2 := by decide
  obtain ⟨-, -, hanswer⟩ :=
    matchAgainst_shallow p v ⟨.number 2, .number 0, by decide⟩ none hshallow
  have hspare : v.nesting ≠ 2 := by decide
  obtain ⟨-, hnone⟩ := hanswer rfl rfl fun hnesting => absurd hnesting hspare
  exact ⟨hshallow, hnone.mp rfl⟩

/-- Without one, the same match is given up. The candidate is flat, and one level is allowed. -/
theorem matchAgainst_shallow_scant :
    let p : Pattern Value := .sequence [.arrayOf .wildcard none]
    let v := Value.list [.int 5]
    let limits : Limits := ⟨.number 1, .number 0, by decide⟩
    v.nesting ≤ limits.maxDepth.value ∧
      (p.matchAgainst v limits none).outcome = .aborted (.maxDepth (.number 1)) :=
  ⟨by decide, rfl⟩

end Pattern

end Motif
