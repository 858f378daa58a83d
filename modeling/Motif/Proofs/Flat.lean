import Motif.Proofs.Script

/-!
Patterns without sequences. Only the walk of a sequence counts chunks and records decisions, so a
pattern that no sequence is part of is matched without a trace: the counter and the record are
after it what they were before. What a flat sequence pattern leaves behind is therefore the work of
its own walk alone.
-/

namespace Motif

namespace Run

/-- A run is quiet when it counts no chunk and records no decision. -/
def Quiet (run : Run) : Prop :=
  ∀ s, (run s).2.steps = s.steps ∧ (run s).2.tracer = s.tracer

section

variable {α : Type} {first second body : Run}

theorem quiet_done (outcome : Outcome) : Quiet fun s => (outcome, s) := fun _ => ⟨rfl, rfl⟩

theorem quiet_guard (holds : Bool) (captures : Captures) : Quiet (guard holds captures) := by
  cases holds with
  | true => exact quiet_done _
  | false => exact quiet_done _

theorem Quiet.andThen (hfirst : Quiet first) {next : Captures → Run}
    (hnext : ∀ captures, Quiet (next captures)) : Quiet (andThen first next) := by
  intro s
  obtain ⟨hsteps, htracer⟩ := hfirst s
  unfold Run.andThen
  rcases hrun : first s with ⟨captures | _ | reason, after⟩
  · rw [hrun] at hsteps htracer
    rw [← hsteps, ← htracer]
    exact hnext captures after
  · rw [hrun] at hsteps htracer
    exact ⟨hsteps, htracer⟩
  · rw [hrun] at hsteps htracer
    exact ⟨hsteps, htracer⟩

theorem Quiet.orElse (hfirst : Quiet first) (hsecond : Quiet second) :
    Quiet (orElse first second) := by
  intro s
  obtain ⟨hsteps, htracer⟩ := hfirst s
  unfold Run.orElse
  rcases hrun : first s with ⟨captures | _ | reason, after⟩
  · rw [hrun] at hsteps htracer
    exact ⟨hsteps, htracer⟩
  · rw [hrun] at hsteps htracer
    rw [← hsteps, ← htracer]
    exact hsecond after
  · rw [hrun] at hsteps htracer
    exact ⟨hsteps, htracer⟩

theorem Quiet.nested (hbody : Quiet body) : Quiet (nested body) := by
  intro s
  have hsteps := s.steps_enter
  have htracer := s.tracer_enter
  unfold Run.nested
  rcases hstate : s.enter with ⟨_ | reason, entered⟩
  · rw [hstate] at hsteps htracer
    rw [← hsteps, ← htracer]
    exact hbody entered
  · rw [hstate] at hsteps htracer
    exact ⟨hsteps, htracer⟩

theorem Quiet.firstOf {ways : List α} {run : α → Run} (h : ∀ way ∈ ways, Quiet (run way)) :
    Quiet (firstOf ways run) := by
  induction ways with
  | nil => exact quiet_done _
  | cons way rest ih =>
    obtain ⟨hway, hrest⟩ := List.forall_mem_cons.mp h
    exact hway.orElse (ih hrest)

theorem Quiet.inTurn {parts : List α} {run : α → Captures → Run}
    (h : ∀ part ∈ parts, ∀ captures, Quiet (run part captures)) (captures : Captures) :
    Quiet (inTurn parts run captures) := by
  induction parts generalizing captures with
  | nil => exact quiet_done _
  | cons part rest ih =>
    obtain ⟨hpart, hrest⟩ := List.forall_mem_cons.mp h
    exact (hpart captures).andThen (ih hrest)

theorem Quiet.bindEach {bind : Value → Captures → Run}
    (hbind : ∀ v captures, Quiet (bind v captures)) (bounds : Option Bounds) (v : Value)
    (captures : Captures) : Quiet (Motif.bindEach bounds bind v captures) := by
  unfold Motif.bindEach
  split
  · exact quiet_done _
  · split
    · exact Quiet.inTurn (fun item _ => hbind item) captures
    · exact quiet_done _

end

end Run

namespace Pattern

section

variable {α : Type}

mutual

/-- Whether no sequence is part of a pattern. -/
def isFlat : Pattern α → Bool
  | .sequence _ => false
  | .alternation options | .choiceFrom _ options => areFlat options
  | .repeated inner _ _ | .arrayOf inner _ | .named _ inner => isFlat inner
  | .wildcard | .literal _ | .typeCheck _ | .unspecified _ | .misfit .. => true
termination_by structural p => p

def areFlat : List (Pattern α) → Bool
  | [] => true
  | p :: rest => isFlat p && areFlat rest
termination_by structural ps => ps

end

theorem areFlat_iff (ps : List (Pattern α)) : areFlat ps = true ↔ ∀ p ∈ ps, p.isFlat = true := by
  induction ps with
  | nil => simp [areFlat]
  | cons p rest ih => rw [areFlat, Bool.and_eq_true, ih, List.forall_mem_cons]

end

variable {lengths : LengthPolicy}

theorem quiet_options {options : List (Pattern Value)}
    (h : ∀ p ∈ options, ∀ v captures, (bindWith lengths p v captures).Quiet) (v : Value)
    (captures : Captures) :
    (Run.firstOf (matchersWith lengths options) fun option => option.bind v captures).Quiet := by
  rw [matchersWith_eq_map, Run.firstOf_map]
  exact Run.Quiet.firstOf fun p hp => h p hp v captures

/-- A pattern without sequences is matched without a trace. -/
theorem quiet_bindWith (lengths : LengthPolicy) {p : Pattern Value} (hflat : p.isFlat = true)
    (v : Value) (captures : Captures) : (bindWith lengths p v captures).Quiet := by
  induction p using Pattern.induction generalizing v captures with
  | wildcard | unspecified tag | misfit flaw value => exact Run.quiet_done _
  | literal expected => exact Run.quiet_guard _ _
  | typeCheck kind => exact Run.quiet_guard _ _
  | alternation options ih | choiceFrom source options ih =>
    exact quiet_options (fun p hp v => ih p hp ((areFlat_iff options).mp hflat p hp) v) v captures
  | sequence elements ih => cases hflat
  | repeated inner mode bounds ih => exact Run.Quiet.bindEach (ih hflat) bounds v captures
  | arrayOf inner bounds ih => exact (Run.Quiet.bindEach (ih hflat) bounds v captures).nested
  | named label inner ih => exact (ih hflat v captures).andThen fun _ => Run.quiet_done _

end Pattern

end Motif
