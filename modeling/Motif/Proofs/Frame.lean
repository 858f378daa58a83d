import Motif.Proofs.Captures
import Motif.Proofs.Closure

/-!
Captures made earlier are a pure frame. A run never looks at the captures that it
starts from; it only lays its own over them. So what it decides, counts and records
is the same whatever was captured before, and what comes out is what it captures by
itself, laid over what was there.
-/

namespace Motif

namespace Outcome

/-- An outcome whose captures are laid over earlier ones. -/
def laidOver (captures : Captures) : Outcome → Outcome
  | .matched made => .matched (captures.overlay made)
  | .noMatch => .noMatch
  | .aborted reason => .aborted reason

end Outcome

namespace Run

/-- A run is framed when its state afterwards and what it captures do not depend on the captures
that it starts from. -/
def Framed (run : Captures → Run) : Prop :=
  ∀ s, ∃ effect after, ∀ captures, run captures s = (Outcome.laidOver captures effect, after)

theorem framed_andThen {first next : Captures → Run} (hfirst : Framed first)
    (hnext : Framed next) : Framed fun captures => andThen (first captures) next := by
  intro s
  obtain ⟨effect, between, hrun⟩ := hfirst s
  cases effect with
  | matched made =>
    obtain ⟨effect, after, hthen⟩ := hnext between
    cases effect with
    | matched later =>
      refine ⟨.matched (made ++ later), after, fun captures => ?_⟩
      have hlater := hthen (captures.overlay made)
      simp only [Outcome.laidOver] at hlater ⊢
      simp only [andThen, hrun, Outcome.laidOver, hlater, Entries.overlay_append]
    | noMatch =>
      refine ⟨.noMatch, after, fun captures => ?_⟩
      simp [andThen, hrun, hthen, Outcome.laidOver]
    | aborted reason =>
      refine ⟨.aborted reason, after, fun captures => ?_⟩
      simp [andThen, hrun, hthen, Outcome.laidOver]
  | noMatch => exact ⟨.noMatch, between, fun captures => by simp [andThen, hrun, Outcome.laidOver]⟩
  | aborted reason =>
    exact ⟨.aborted reason, between, fun captures => by simp [andThen, hrun, Outcome.laidOver]⟩

theorem framed_orElse {first second : Captures → Run} (hfirst : Framed first)
    (hsecond : Framed second) :
    Framed fun captures => orElse (first captures) (second captures) := by
  intro s
  obtain ⟨effect, between, hrun⟩ := hfirst s
  cases effect with
  | matched made =>
    exact ⟨.matched made, between, fun captures => by simp [orElse, hrun, Outcome.laidOver]⟩
  | noMatch =>
    obtain ⟨effect, after, hthen⟩ := hsecond between
    exact ⟨effect, after, fun captures => by simp [orElse, hrun, hthen, Outcome.laidOver]⟩
  | aborted reason =>
    exact ⟨.aborted reason, between, fun captures => by simp [orElse, hrun, Outcome.laidOver]⟩

theorem framed_counted {body : Captures → Run} (hbody : Framed body) :
    Framed fun captures => counted (body captures) := by
  intro s
  cases hstep : s.step.1 with
  | none =>
    obtain ⟨effect, after, hrun⟩ := hbody s.step.2
    exact ⟨effect, after, fun captures => (counted_of_none hstep).trans (hrun captures)⟩
  | some reason => exact ⟨.aborted reason, s.step.2, fun captures => counted_of_some hstep⟩

theorem framed_nested {body : Captures → Run} (hbody : Framed body) :
    Framed fun captures => nested (body captures) := by
  intro s
  cases henter : s.enter.1 with
  | none =>
    obtain ⟨effect, after, hrun⟩ := hbody s.enter.2
    refine ⟨effect, after.leave, fun captures => (nested_of_none henter).trans ?_⟩
    rw [hrun]
  | some reason => exact ⟨.aborted reason, s.enter.2, fun captures => nested_of_some henter⟩

theorem closed_framed : Closed Framed where
  succeed s := ⟨.matched [], s, fun _ => rfl⟩
  capture label v s := ⟨.matched [(label, v)], s, fun _ => rfl⟩
  fail s := ⟨.noMatch, s, fun _ => rfl⟩
  andThen := framed_andThen
  orElse := framed_orElse
  counted := framed_counted
  noting d _ _ hbody s := hbody (s.note d)

end Run

namespace Pattern

theorem framed_bindWith (lengths : LengthPolicy) (p : Pattern Value) (v : Value) :
    Run.Framed (bindWith lengths p v) :=
  closed_bindWith Run.closed_framed Run.framed_nested lengths p
    (fun _ reason _ s => ⟨.aborted reason, s, fun _ => rfl⟩) v

/-- Binding from earlier captures and binding from none leave the search in the same state, with
the same counts and the same record, and come to the same outcome; only that captures are laid
over the earlier ones. There every label that was captured now has its new value, every other
label the earlier one; earlier labels keep their places, and new ones follow in the order in
which they were captured. -/
theorem bind_laidOver (p : Pattern Value) (v : Value) (earlier : Captures) (s : Search) :
    (p.bind v earlier s).2 = (p.bind v [] s).2 ∧
    (p.bind v earlier s).1 = (p.bind v [] s).1.laidOver earlier ∧
    ∀ made, (p.bind v [] s).1 = .matched made →
      (∀ label, (earlier.overlay made).find? label =
        (made.find? label).or (earlier.find? label)) ∧
      (earlier.overlay made).keys =
        earlier.keys ++ made.keys.filter (· ∉ earlier.keys) := by
  obtain ⟨effect, after, hrun⟩ := framed_bindWith Repetition.lengths p v s
  have hfrom : p.bind v earlier s = (effect.laidOver earlier, after) := hrun earlier
  have hfresh : p.bind v [] s = (effect.laidOver [], after) := hrun []
  rw [hfrom, hfresh]
  cases effect with
  | matched own =>
    refine ⟨rfl, ?_, fun made hmade => ?_⟩
    · simp only [Outcome.laidOver, Entries.overlay_collected]
    · cases hmade
      rw [Entries.overlay_collected]
      exact ⟨fun label => Entries.find?_overlay label earlier own,
        Entries.keys_overlay earlier own⟩
  | noMatch => exact ⟨rfl, rfl, fun made hmade => by cases hmade⟩
  | aborted reason => exact ⟨rfl, rfl, fun made hmade => by cases hmade⟩

end Pattern

end Motif
