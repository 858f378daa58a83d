import Motif.Proofs.Frame
import Motif.Proofs.Pruning

/-!
Matches that are had again. What a run does is a script that does not depend on the captures before
it, so a run that has matched matches again wherever a search is no further on than it was. The
same holds of the beginning of a slice that a repetition has matched, if the bounds allow it: its
items have been matched already, and what came after them is left out.
-/

namespace Motif

namespace Run

section

variable {α : Type} {made : Captures} {s after : Search}

/-- A steady run that comes to an answer was behind when it began. -/
theorem Steady.behind {run : Captures → Run} (h : Steady run) {captures : Captures}
    (hanswer : (run captures s).1.isAborted = false) : s.Behind (run captures s).2 := by
  obtain ⟨hlimits, hsteps, hdepth⟩ := h captures s
  exact ⟨hlimits.symm, (hdepth hanswer).symm, hsteps⟩

/-- The way that matches begins where the ways before it have left the search. -/
theorem exists_way {ways : List α} {run : α → Captures → Run}
    (hsteady : ∀ way ∈ ways, Steady (run way)) {captures : Captures}
    (h : firstOf ways (fun way => run way captures) s = (.matched made, after)) :
    ∃ way ∈ ways, ∃ t, s.Behind t ∧ run way captures t = (.matched made, after) := by
  induction ways generalizing s with
  | nil => cases h
  | cons way rest ih =>
    obtain ⟨hway, hrest⟩ := List.forall_mem_cons.mp hsteady
    rcases orElse_eq_matched_iff.mp h with hmatched | ⟨between, hmissed, hlater⟩
    · exact ⟨way, List.mem_cons_self, s, .refl s, hmatched⟩
    · beta_reduce at hmissed
      have hbehind : s.Behind (run way captures s).2 := hway.behind (by rw [hmissed]; rfl)
      rw [hmissed] at hbehind
      obtain ⟨found, hfound, t, ht, hmatched⟩ := ih hrest hlater
      exact ⟨found, List.mem_cons_of_mem way hfound, t, hbehind.trans ht, hmatched⟩

end

/-- What the runs of patterns are: framed by the captures that they start from, and no more than
scripts that are played. -/
structure Orderly (levels : Nat) (run : Captures → Run) : Prop where
  framed : Framed run
  scripted : Scripted levels false run

/-- A run can stand in for another one when it matches where that one has matched, from any captures
and in any search that is behind, and ends behind. -/
def StandsIn (run' run : Captures → Run) : Prop :=
  ∀ ⦃captures s made after⦄, run captures s = (.matched made, after) → ∀ captures' t, t.Behind s →
    ∃ made' after', run' captures' t = (.matched made', after') ∧ after'.Behind after

section

variable {levels : Nat} {run first first' next next' : Captures → Run}

theorem closed_orderly (levels : Nat) : Closed (Orderly levels) where
  succeed := ⟨closed_framed.succeed, (closed_scripted levels false).succeed⟩
  capture label v :=
    ⟨closed_framed.capture label v, (closed_scripted levels false).capture label v⟩
  fail := ⟨closed_framed.fail, (closed_scripted levels false).fail⟩
  andThen h h' := ⟨framed_andThen h.framed h'.framed, scripted_andThen h.scripted h'.scripted⟩
  orElse h h' := ⟨framed_orElse h.framed h'.framed, scripted_orElse h.scripted h'.scripted⟩
  counted h := ⟨framed_counted h.framed, scripted_counted h.scripted⟩
  noting d _ hd h := ⟨closed_framed.noting d hd h.framed, scripted_noting d hd h.scripted⟩

/-- A run that has matched matches again. It plays one script from all captures, and a search that
is behind can afford to play it as well. -/
theorem Orderly.standsIn (h : Orderly levels run) : StandsIn run run := by
  intro captures s made after hmatched captures' t hbehind
  obtain ⟨effect, after', hrun⟩ := h.framed s
  obtain ⟨script, outcome, hplays⟩ := h.scripted captures'
  have hframed := hrun captures'
  rw [hrun captures] at hmatched
  obtain ⟨heffect, rfl⟩ := Prod.mk.inj hmatched
  obtain ⟨own, rfl⟩ : ∃ own, effect = .matched own := by
    cases effect with
    | matched own => exact ⟨own, rfl⟩
    | _ => cases heffect
  rw [hplays.eq] at hframed ⊢
  cases hplay : (script.play s).1 with
  | some reason =>
    have haborted := Script.run_of_some outcome hplay
    rw [hframed] at haborted
    cases haborted
  | none =>
    rw [Script.run_of_none outcome hplay, Script.play_of_none hplay] at hframed
    obtain ⟨rfl, rfl⟩ := Prod.mk.inj hframed
    have hafford : t.Affords script := ((script.play_eq_none_iff s).mp hplay).mono hbehind.limits
      hbehind.steps (Int.le_of_eq hbehind.depth)
    have hagain := (script.play_eq_none_iff t).mpr hafford
    rw [Script.run_of_none _ hagain, Script.play_of_none hagain]
    exact ⟨_, _, rfl, hbehind.limits, hbehind.depth, Nat.add_le_add_right hbehind.steps _⟩

theorem standsIn_andThen (h : StandsIn first' first) (hnext : StandsIn next' next) :
    StandsIn (fun captures => andThen (first' captures) next')
      fun captures => andThen (first captures) next := by
  intro captures s made after hmatched captures' t hbehind
  obtain ⟨own, between, hown, hlater⟩ := andThen_eq_matched_iff.mp hmatched
  obtain ⟨own', between', hown', hbetween⟩ := h hown captures' t hbehind
  obtain ⟨made', after', hmade', hafter⟩ := hnext hlater own' between' hbetween
  exact ⟨made', after', andThen_eq_matched_iff.mpr ⟨own', between', hown', hmade'⟩, hafter⟩

/-- What comes after a run may be left out. -/
theorem standsIn_of_andThen (h : StandsIn first' first) (hsteady : Steady next) :
    StandsIn first' fun captures => andThen (first captures) next := by
  intro captures s made after hmatched captures' t hbehind
  obtain ⟨own, between, hown, hlater⟩ := andThen_eq_matched_iff.mp hmatched
  obtain ⟨own', between', hown', hbetween⟩ := h hown captures' t hbehind
  have hafter : between.Behind (next own between).2 := hsteady.behind (by rw [hlater]; rfl)
  rw [hlater] at hafter
  exact ⟨own', between', hown', hbetween.trans hafter⟩

end

end Run

namespace Pattern

open Run

variable {lengths : LengthPolicy} {form : Form} {p : Pattern Value} {repetition : Repetition}

theorem orderly_bindWith (lengths : LengthPolicy) {levels : Nat} (hheight : p.height ≤ levels)
    (v : Value) : Orderly levels (bindWith lengths p v) :=
  ⟨framed_bindWith lengths p v, scripted_bindWith lengths (fun _ => rfl) hheight v⟩

/-- A beginning of a slice is matched as the slice is, if the bounds allow its length. -/
theorem standsIn_slice (hrepeats : p.repetition? = some repetition) {slice : List Value}
    {length : Nat} (hallow : Bounds.allow repetition.bounds length = true)
    (hlength : length ≤ slice.length) :
    StandsIn (bindWith lengths p (.seq form (slice.take length)))
      (bindWith lengths p (.seq form slice)) := by
  induction p using Pattern.induction with
  | repeated inner mode bounds _ =>
    cases hrepeats
    have horderly : ∀ items : List Value,
        Orderly inner.height (inTurn items (bindWith lengths inner)) := fun items =>
      (closed_orderly inner.height).inTurn fun item _ =>
        orderly_bindWith lengths (Nat.le_refl inner.height) item
    have hbeginning : StandsIn (inTurn (slice.take length) (bindWith lengths inner))
        (inTurn slice (bindWith lengths inner)) := by
      have hparts := standsIn_of_andThen (horderly (slice.take length)).standsIn
        (horderly (slice.drop length)).scripted.steady
      simp only [← inTurn_append, List.take_append_drop] at hparts
      exact hparts
    intro captures s made after hmatched captures' t hbehind
    simp only [bindWith, bindEach, Value.items?, List.length_take, Nat.min_eq_left hlength]
      at hmatched ⊢
    rw [if_pos hallow]
    split at hmatched
    · exact hbeginning hmatched captures' t hbehind
    · cases hmatched
  | named label inner ih =>
    refine standsIn_andThen (ih hrepeats) ?_
    intro captures s made after hmatched captures' t hbehind
    cases hmatched
    exact ⟨_, _, rfl, hbehind⟩
  | _ => cases hrepeats

end Pattern

end Motif
