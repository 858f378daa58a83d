import Motif.Proofs.Closure

/-!
What a match does to a search is a script: chunks to count, decisions to record, and
levels to go down to and to come up from, one after the other. Which script it is
depends on the pattern and the value alone. The limits, the counters and the record
so far only decide whether it is played to its end. So what a run leaves behind can
be read off its script, and two runs under different limits can be compared by
playing one script twice.
-/

namespace Motif

inductive Script where
  | done
  | step (rest : Script)
  | note (d : Decision) (rest : Script)
  /-- Go down a level, come up from it when the body has been played, and go on. -/
  | level (body rest : Script)

/-- Go on with a search, unless it has been stopped. -/
def Search.proceed (state : Option Abort × Search) (next : Search → Option Abort × Search) :
    Option Abort × Search :=
  match state with
  | (none, s) => next s
  | (some reason, s) => (some reason, s)

namespace Tracer

/-- A tracer, if there is one, that has been told of decisions one after the other. -/
def told (tracer : Option Tracer) (ds : List Decision) : Option Tracer :=
  tracer.map fun t => ds.foldl note t

@[simp] theorem told_nil (tracer : Option Tracer) : told tracer [] = tracer := Option.map_id'

theorem told_cons (tracer : Option Tracer) (d : Decision) (ds : List Decision) :
    told tracer (d :: ds) = told (tracer.map (·.note d)) ds := by
  cases tracer <;> rfl

theorem told_append (tracer : Option Tracer) (first later : List Decision) :
    told tracer (first ++ later) = told (told tracer first) later := by
  cases tracer with
  | none => rfl
  | some t => exact congrArg some List.foldl_append

end Tracer

namespace Search

theorem step_snd (s : Search) : s.step.2 = { s with steps := s.steps + 1 } := by
  simp only [step]
  split <;> rfl

theorem enter_snd (s : Search) : s.enter.2 = { s with depth := s.depth + 1 } := by
  simp only [enter]
  split <;> rfl

theorem tracer_enter (s : Search) : s.enter.2.tracer = s.tracer := by rw [enter_snd]

theorem proceed_of_none {state : Option Abort × Search} (h : state.1 = none)
    (next : Search → Option Abort × Search) : proceed state next = next state.2 := by
  obtain ⟨stopped, s⟩ := state
  cases h
  rfl

theorem proceed_of_some {state : Option Abort × Search} {reason : Abort}
    (h : state.1 = some reason) (next : Search → Option Abort × Search) :
    proceed state next = state := by
  obtain ⟨stopped, s⟩ := state
  cases h
  rfl

theorem proceed_proceed (state : Option Abort × Search)
    (first later : Search → Option Abort × Search) :
    proceed (proceed state first) later = proceed state fun s => proceed (first s) later := by
  obtain ⟨_ | reason, s⟩ := state <;> rfl

end Search

namespace Script

/-- Play a script until it is done or a limit stops it. Levels that were gone down to are come up
from either way; one that is too deep was not gone down to. -/
def play : Script → Search → Option Abort × Search
  | .done, s => (none, s)
  | .step rest, s => Search.proceed s.step rest.play
  | .note d rest, s => rest.play (s.note d)
  | .level body rest, s =>
    Search.proceed s.enter fun s =>
      let played := body.play s
      Search.proceed (played.1, played.2.leave) rest.play

/-- The run that plays a script and, unless a limit stops it, comes to an outcome. -/
def run (script : Script) (outcome : Outcome) : Run := fun s =>
  match script.play s with
  | (none, s) => (outcome, s)
  | (some reason, s) => (.aborted reason, s)

def append : Script → Script → Script
  | .done, later => later
  | .step rest, later => .step (rest.append later)
  | .note d rest, later => .note d (rest.append later)
  | .level body rest, later => .level body (rest.append later)

/-- How many chunks are counted. -/
def steps : Script → Nat
  | .done => 0
  | .step rest => rest.steps + 1
  | .note _ rest => rest.steps
  | .level body rest => body.steps + rest.steps

/-- What is recorded, in order. -/
def decisions : Script → List Decision
  | .done => []
  | .step rest => rest.decisions
  | .note d rest => d :: rest.decisions
  | .level body rest => body.decisions ++ rest.decisions

/-- How far down the script goes. -/
def height : Script → Nat
  | .done => 0
  | .step rest | .note _ rest => rest.height
  | .level body rest => max (body.height + 1) rest.height

end Script

/-- A search in which a script has been played to its end. -/
def Search.after (s : Search) (script : Script) : Search :=
  { s with
    steps := s.steps + script.steps
    tracer := Tracer.told s.tracer script.decisions }

namespace Script

variable {script : Script} {s : Search}

/-- A step is counted and the script goes on, or the count is too high already. -/
theorem play_step_cases (rest : Script) (s : Search) :
    s.step.1 = none ∧ (step rest).play s = rest.play s.step.2 ∨
      ∃ reason, s.step.1 = some reason ∧ (step rest).play s = s.step := by
  cases hstep : s.step.1 with
  | none => exact Or.inl ⟨rfl, Search.proceed_of_none hstep _⟩
  | some reason => exact Or.inr ⟨reason, rfl, Search.proceed_of_some hstep _⟩

/-- A level is gone through and the script goes on, or it is stopped inside the level, or the level
is too deep. -/
theorem play_level_cases (body rest : Script) (s : Search) :
    (s.enter.1 = none ∧ (body.play s.enter.2).1 = none ∧
      (level body rest).play s = rest.play (body.play s.enter.2).2.leave) ∨
    (s.enter.1 = none ∧ ∃ reason, (body.play s.enter.2).1 = some reason ∧
      (level body rest).play s = (some reason, (body.play s.enter.2).2.leave)) ∨
    ∃ reason, s.enter.1 = some reason ∧ (level body rest).play s = s.enter := by
  cases henter : s.enter.1 with
  | none =>
    have hlevel : (level body rest).play s = Search.proceed
        ((body.play s.enter.2).1, (body.play s.enter.2).2.leave) rest.play :=
      Search.proceed_of_none henter _
    cases hbody : (body.play s.enter.2).1 with
    | none => exact Or.inl ⟨rfl, rfl, by rw [hlevel, hbody]; rfl⟩
    | some reason => exact Or.inr (Or.inl ⟨rfl, reason, rfl, by rw [hlevel, hbody]; rfl⟩)
  | some reason => exact Or.inr (Or.inr ⟨reason, rfl, Search.proceed_of_some henter _⟩)

/-- A script that is played to its end leaves all its steps counted and all its decisions recorded,
and the search on the level on which it began. -/
theorem play_of_none (h : (script.play s).1 = none) : (script.play s).2 = s.after script := by
  induction script generalizing s with
  | done => simp only [play, Search.after, steps, decisions, Tracer.told_nil, Nat.add_zero]
  | step rest ih =>
    rcases play_step_cases rest s with ⟨-, hplay⟩ | ⟨reason, hstep, hplay⟩
    · rw [hplay] at h ⊢
      rw [ih h, Search.step_snd]
      simp only [Search.after, steps, decisions, Nat.add_assoc, Nat.add_comm 1]
    · rw [hplay, hstep] at h
      cases h
  | note d rest ih =>
    have hrest : ((note d rest).play s).2 = (s.note d).after rest := ih h
    rw [hrest]
    simp only [Search.after, Search.note, steps, decisions, Tracer.told_cons]
  | level body rest ihbody ih =>
    rcases play_level_cases body rest s with ⟨-, hbody, hplay⟩ | ⟨-, reason, -, hplay⟩ |
      ⟨reason, henter, hplay⟩
    · rw [hplay] at h ⊢
      rw [ih h, ihbody hbody, Search.enter_snd]
      simp only [Search.after, Search.leave, steps, decisions, Nat.add_assoc,
        Int.add_sub_cancel, Tracer.told_append]
    · rw [hplay] at h
      cases h
    · rw [hplay, henter] at h
      cases h

/-- However far a script is played, the limits stay as they are, no step is taken back, and what
is recorded is a beginning of what the script records. -/
theorem play_keeps (script : Script) (s : Search) :
    (script.play s).2.limits = s.limits ∧ s.steps ≤ (script.play s).2.steps ∧
      ∃ kept, kept <+: script.decisions ∧
        (script.play s).2.tracer = Tracer.told s.tracer kept := by
  induction script generalizing s with
  | done => exact ⟨rfl, Nat.le_refl _, [], List.nil_prefix, (Tracer.told_nil _).symm⟩
  | step rest ih =>
    rcases play_step_cases rest s with ⟨-, hplay⟩ | ⟨reason, -, hplay⟩
    · rw [hplay]
      obtain ⟨hlimits, hsteps, hrecord⟩ := ih s.step.2
      rw [Search.step_snd] at hlimits hsteps hrecord ⊢
      exact ⟨hlimits, Nat.le_of_succ_le hsteps, hrecord⟩
    · rw [hplay, Search.step_snd]
      exact ⟨rfl, Nat.le_succ _, [], List.nil_prefix, (Tracer.told_nil _).symm⟩
  | note d rest ih =>
    obtain ⟨hlimits, hsteps, kept, hkept, hrecord⟩ := ih (s.note d)
    refine ⟨hlimits, hsteps, d :: kept, (List.prefix_cons_inj d).mpr hkept, ?_⟩
    rw [Tracer.told_cons]
    exact hrecord
  | level body rest ihbody ih =>
    obtain ⟨hlimits, hsteps, kept, hkept, hrecord⟩ := ihbody s.enter.2
    rw [Search.limits_enter] at hlimits
    rw [Search.steps_enter] at hsteps
    rw [Search.tracer_enter] at hrecord
    rcases play_level_cases body rest s with ⟨-, hbody, hplay⟩ | ⟨-, reason, -, hplay⟩ |
      ⟨reason, -, hplay⟩
    · -- The body was played to its end, so all that it records comes before the rest.
      rw [hplay]
      obtain ⟨hlimits', hsteps', later, hlater, hrecord'⟩ := ih (body.play s.enter.2).2.leave
      refine ⟨hlimits'.trans hlimits, Nat.le_trans hsteps hsteps', body.decisions ++ later,
        (List.prefix_append_right_inj _).mpr hlater, ?_⟩
      rw [hrecord', play_of_none hbody, Tracer.told_append]
      simp only [Search.leave, Search.after, Search.tracer_enter]
    · rw [hplay]
      exact ⟨hlimits, hsteps, kept, hkept.trans (List.prefix_append _ _), hrecord⟩
    · rw [hplay, Search.enter_snd]
      exact ⟨rfl, Nat.le_refl _, [], List.nil_prefix, (Tracer.told_nil _).symm⟩

theorem play_append (first later : Script) (s : Search) :
    (first.append later).play s = Search.proceed (first.play s) later.play := by
  induction first generalizing s with
  | done => rfl
  | step rest ih =>
    simp only [append, play, Search.proceed_proceed]
    exact congrArg _ (funext ih)
  | note d rest ih => exact ih (s.note d)
  | level body rest _ ih =>
    simp only [append, play, Search.proceed_proceed]
    exact congrArg _ (funext fun s => congrArg _ (funext ih))

theorem decisions_append (first later : Script) :
    (first.append later).decisions = first.decisions ++ later.decisions := by
  induction first with
  | done => rfl
  | step rest ih => exact ih
  | note d rest ih => simp only [append, decisions, ih, List.cons_append]
  | level body rest _ ih => simp only [append, decisions, ih, List.append_assoc]

theorem height_append (first later : Script) :
    (first.append later).height = max first.height later.height := by
  induction first with
  | done => simp [append, height]
  | step rest ih | note d rest ih => exact ih
  | level body rest _ ih => simp only [append, height, ih, Nat.max_assoc]

theorem run_of_none (outcome : Outcome) (h : (script.play s).1 = none) :
    script.run outcome s = (outcome, (script.play s).2) := by
  unfold run
  rcases hplay : script.play s with ⟨_ | reason, after⟩
  · rfl
  · rw [hplay] at h
    cases h

theorem run_of_some (outcome : Outcome) {reason : Abort} (h : (script.play s).1 = some reason) :
    script.run outcome s = (.aborted reason, (script.play s).2) := by
  unfold run
  rcases hplay : script.play s with ⟨_ | other, after⟩
  · rw [hplay] at h
    cases h
  · rw [hplay] at h
    cases h
    rfl

/-- What a run leaves behind is what its script leaves behind, whatever the outcome. -/
theorem run_snd (outcome : Outcome) (s : Search) :
    (script.run outcome s).2 = (script.play s).2 := by
  cases hplay : (script.play s).1 with
  | none => rw [run_of_none outcome hplay]
  | some reason => rw [run_of_some outcome hplay]

section

variable {outcome : Outcome} {later : Script}

theorem andThen_run {made : Captures} {next : Captures → Run}
    (hnext : next made = later.run outcome) :
    Run.andThen (script.run (.matched made)) next = (script.append later).run outcome := by
  funext s
  simp only [Run.andThen, run, play_append]
  rcases script.play s with ⟨_ | reason, between⟩
  · exact congrFun hnext between
  · rfl

theorem andThen_run_of_not_matched (houtcome : outcome.isMatched = false)
    (next : Captures → Run) : Run.andThen (script.run outcome) next = script.run outcome := by
  funext s
  simp only [Run.andThen, run]
  rcases script.play s with ⟨_ | reason, between⟩
  · cases outcome with
    | matched made => cases houtcome
    | noMatch => rfl
    | aborted reason => rfl
  · rfl

theorem orElse_run {second : Run} (hsecond : second = later.run outcome) :
    Run.orElse (script.run .noMatch) second = (script.append later).run outcome := by
  funext s
  simp only [Run.orElse, run, play_append]
  rcases script.play s with ⟨_ | reason, between⟩
  · exact congrFun hsecond between
  · rfl

theorem orElse_run_of_ne (houtcome : outcome ≠ .noMatch) (second : Run) :
    Run.orElse (script.run outcome) second = script.run outcome := by
  funext s
  simp only [Run.orElse, run]
  rcases script.play s with ⟨_ | reason, between⟩
  · cases outcome with
    | matched made => rfl
    | noMatch => exact absurd rfl houtcome
    | aborted reason => rfl
  · rfl

theorem counted_run : Run.counted (script.run outcome) = (step script).run outcome := by
  funext s
  simp only [Run.counted, run, play]
  rcases s.step with ⟨_ | reason, stepped⟩ <;> rfl

theorem nested_run : Run.nested (script.run outcome) = (level script done).run outcome := by
  funext s
  simp only [Run.nested, run, play]
  rcases s.enter with ⟨_ | reason, entered⟩
  · simp only [Search.proceed]
    rcases script.play entered with ⟨_ | reason, played⟩ <;> rfl
  · rfl

end

end Script

namespace Run

/-- A run plays a script of some height and comes to an outcome, which is not an excess of a limit,
and no abort at all if what is run is sound. -/
structure Plays (levels : Nat) (sound : Bool) (run : Run) (script : Script) (outcome : Outcome) :
    Prop where
  height : script.height ≤ levels
  ofChunk : ∀ d ∈ script.decisions, d.ofChunk = true
  of_aborted : ∀ reason, outcome = .aborted reason → sound = false ∧ reason.overBudget = false
  eq : run = script.run outcome

/-- Each time, a run does no more than to play a script. -/
def Scripted (levels : Nat) (sound : Bool) (run : Captures → Run) : Prop :=
  ∀ captures, ∃ script outcome, Plays levels sound (run captures) script outcome

variable {levels : Nat} {sound : Bool}

theorem Plays.append {run later whole : Run} {script script' : Script} {outcome outcome' : Outcome}
    (h : Plays levels sound run script outcome) (h' : Plays levels sound later script' outcome')
    (heq : whole = (script.append script').run outcome') :
    Plays levels sound whole (script.append script') outcome' where
  height := by
    rw [Script.height_append]
    exact Nat.max_le.mpr ⟨h.height, h'.height⟩
  ofChunk d hd := by
    rw [Script.decisions_append] at hd
    exact (List.mem_append.mp hd).elim (h.ofChunk d) (h'.ofChunk d)
  of_aborted := h'.of_aborted
  eq := heq

theorem scripted_done {outcome : Captures → Outcome}
    (houtcome : ∀ captures reason, outcome captures = .aborted reason →
      sound = false ∧ reason.overBudget = false) :
    Scripted levels sound fun captures s => (outcome captures, s) := fun captures =>
  ⟨.done, outcome captures, Nat.zero_le levels, by simp [Script.decisions], houtcome captures, rfl⟩

theorem scripted_andThen {first next : Captures → Run} (hfirst : Scripted levels sound first)
    (hnext : Scripted levels sound next) :
    Scripted levels sound fun captures => andThen (first captures) next := by
  intro captures
  obtain ⟨script, outcome, hplays⟩ := hfirst captures
  -- What comes next depends on the captures, and these do not depend on the search.
  cases outcome with
  | matched made =>
    obtain ⟨later, outcome, hlater⟩ := hnext made
    refine ⟨script.append later, outcome, hplays.append hlater ?_⟩
    simp only [hplays.eq]
    exact Script.andThen_run hlater.eq
  | noMatch | aborted reason =>
    refine ⟨script, _, { hplays with eq := ?_ }⟩
    simp only [hplays.eq]
    exact Script.andThen_run_of_not_matched rfl next

theorem scripted_orElse {first second : Captures → Run} (hfirst : Scripted levels sound first)
    (hsecond : Scripted levels sound second) :
    Scripted levels sound fun captures => orElse (first captures) (second captures) := by
  intro captures
  obtain ⟨script, outcome, hplays⟩ := hfirst captures
  cases outcome with
  | noMatch =>
    obtain ⟨later, outcome, hlater⟩ := hsecond captures
    refine ⟨script.append later, outcome, hplays.append hlater ?_⟩
    simp only [hplays.eq]
    exact Script.orElse_run hlater.eq
  | matched made | aborted reason =>
    refine ⟨script, _, { hplays with eq := ?_ }⟩
    simp only [hplays.eq]
    exact Script.orElse_run_of_ne (by simp) (second captures)

theorem scripted_counted {body : Captures → Run} (hbody : Scripted levels sound body) :
    Scripted levels sound fun captures => counted (body captures) := by
  intro captures
  obtain ⟨script, outcome, hplays⟩ := hbody captures
  refine ⟨.step script, outcome, hplays.height, hplays.ofChunk, hplays.of_aborted, ?_⟩
  simp only [hplays.eq]
  exact Script.counted_run

theorem scripted_noting (d : Decision) {body : Captures → Run} (hd : d.ofChunk = true)
    (hbody : Scripted levels sound body) :
    Scripted levels sound fun captures => noting d (body captures) := by
  intro captures
  obtain ⟨script, outcome, hplays⟩ := hbody captures
  refine ⟨.note d script, outcome, hplays.height, ?_, hplays.of_aborted, ?_⟩
  · exact List.forall_mem_cons.mpr ⟨hd, hplays.ofChunk⟩
  · simp only [hplays.eq]
    rfl

theorem scripted_nested {body : Captures → Run} (hbody : Scripted levels sound body) :
    Scripted (levels + 1) sound fun captures => nested (body captures) := by
  intro captures
  obtain ⟨script, outcome, hplays⟩ := hbody captures
  refine ⟨.level script .done, outcome, ?_, ?_, hplays.of_aborted, ?_⟩
  · simpa [Script.height] using hplays.height
  · simpa [Script.decisions] using hplays.ofChunk
  · simp only [hplays.eq]
    exact Script.nested_run

theorem closed_scripted (levels : Nat) (sound : Bool) : Closed (Scripted levels sound) where
  succeed := scripted_done fun _ _ h => by cases h
  capture _ _ := scripted_done fun _ _ h => by cases h
  fail := scripted_done fun _ _ h => by cases h
  andThen := scripted_andThen
  orElse := scripted_orElse
  counted := scripted_counted
  noting := scripted_noting

end Run

namespace Pattern

variable {p : Pattern Value} {levels : Nat} {sound : Bool}

/-- Matching a value plays a script that goes no further down than the pattern is high. -/
theorem scripted_bindWith (lengths : LengthPolicy) (hsound : p.isSound = false → sound = false)
    (hheight : p.height ≤ levels) (v : Value) :
    Run.Scripted levels sound (bindWith lengths p v) := by
  refine closed_bindWith_levels (fun levels => Run.closed_scripted levels sound)
    (fun _ _ hbody => Run.scripted_nested hbody) lengths p
    (fun hunsound levels reason hreason => ?_) hheight v
  refine Run.scripted_done fun captures other hother => ?_
  cases hother
  exact ⟨hsound hunsound, hreason⟩

theorem scripted_of_sound (lengths : LengthPolicy) (hsound : p.isSound = true)
    (hheight : p.height ≤ levels) (v : Value) :
    Run.Scripted levels true (bindWith lengths p v) :=
  scripted_bindWith lengths (fun hunsound => hsound.symm.trans hunsound) hheight v

end Pattern

end Motif
