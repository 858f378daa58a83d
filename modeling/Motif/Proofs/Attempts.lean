import Motif.Proofs.Course
import Motif.Proofs.Room

/-!
What a match does to the counters of its search. A walk attempts a chunk when it comes to it,
and the attempts of a match can be listed as they are made. The list has no influence on the
match, and it is as long as the number of steps that are counted, also where the last of them
was one too many.

Levels are come up from however a match ends. Only a level that is too deep is gone down to
and not come up from, and a match that comes to one goes down no further. So the depth after
a match is the one before it, or one more.
-/

namespace Motif

/-- How far a search that was given up is below the level on which it began. -/
def Abort.sunk : Abort → Int
  | .maxDepth _ => 1
  | .maxSteps _ | .unspecified | .misfit .. => 0

theorem Abort.sunk_of_not_overBudget {reason : Abort} (h : reason.overBudget = false) :
    reason.sunk = 0 := by
  cases reason with
  | maxDepth limit => cases h
  | maxSteps _ | unspecified | misfit _ _ => rfl

namespace Search

variable {s : Search} {reason : Abort}

theorem sunk_of_step (h : s.step.1 = some reason) : reason.sunk = 0 := by
  simp only [step] at h
  split at h
  · cases h
    rfl
  · cases h

theorem sunk_of_enter (h : s.enter.1 = some reason) : reason.sunk = 1 := by
  simp only [enter] at h
  split at h
  · cases h
    rfl
  · cases h

end Search

/-- A script that is stopped leaves the search on the level on which it began, or one below if what
stopped it was a level too deep. The levels around that one are come up from, however many. -/
theorem Script.depth_play {script : Script} {s : Search} {reason : Abort}
    (h : (script.play s).1 = some reason) : (script.play s).2.depth = s.depth + reason.sunk := by
  induction script generalizing s with
  | done => cases h
  | step rest ih =>
    rcases play_step_cases rest s with ⟨-, hplay⟩ | ⟨other, hstep, hplay⟩
    · rw [hplay] at h ⊢
      rw [ih h, Search.depth_step]
    · rw [hplay] at h ⊢
      rw [Search.depth_step, Search.sunk_of_step h, Int.add_zero]
  | note d rest ih => exact ih (s := s.note d) h
  | level body rest ihbody ih =>
    rcases play_level_cases body rest s with ⟨-, hdone, hplay⟩ | ⟨-, other, hbody, hplay⟩ |
      ⟨other, -, hplay⟩
    · rw [hplay] at h ⊢
      rw [ih h, play_of_none hdone]
      simp only [Search.leave, Search.after, Search.depth_enter, Int.add_sub_cancel]
    · -- This level is come up from, so the search is as far below as it was in the body.
      rw [hplay] at h ⊢
      cases h
      have hsunk : (body.play s.enter.2).2.depth = s.depth + 1 + reason.sunk := by
        rw [ihbody hbody, Search.depth_enter]
      simp only [Search.leave, hsunk]
      omega
    · rw [hplay] at h ⊢
      rw [Search.depth_enter, Search.sunk_of_enter h]

/-- However a run ends, it leaves the search on the level on which it began, or one below if it went
down to a level too deep. -/
theorem Run.Scripted.depth {levels : Nat} {sound : Bool} {run : Captures → Run}
    (h : Scripted levels sound run) (captures : Captures) (s : Search) :
    (run captures s).2.depth = match (run captures s).1 with
      | .aborted reason => s.depth + reason.sunk
      | _ => s.depth := by
  obtain ⟨script, outcome, hplays⟩ := h captures
  rw [hplays.eq]
  cases hplay : (script.play s).1 with
  | none =>
    have hlevel : (script.play s).2.depth = s.depth := by
      rw [Script.play_of_none hplay]
      rfl
    rw [Script.run_of_none outcome hplay]
    cases outcome with
    | matched made => exact hlevel
    | noMatch => exact hlevel
    | aborted reason =>
      have hown : reason.sunk = 0 :=
        Abort.sunk_of_not_overBudget (hplays.of_aborted reason rfl).2
      simp only [hlevel, hown, Int.add_zero]
  | some reason =>
    rw [Script.run_of_some outcome hplay]
    exact Script.depth_play hplay

/-- A pattern as a walk uses it that lists its attempts. -/
structure Attempter where
  repetition? : Option Repetition
  bind : Value → Captures → Survey

namespace Sequence

open Survey

/-- The walk over the items of `xs`, with a sight for each chunk that it attempts: the number of the
chunk and that of the first item that the chunk may take. -/
def attempts (form : Form) (xs : List Value) :
    Nat → List (Chunk Attempter) → Nat → List Value → Captures → Survey
  | _, [], _, items, captures => ofRun (Run.guard items.isEmpty captures)
  | ci, .fixed attempters :: rest, xi, items, captures =>
    let width := attempters.length
    seeing (fun _ => .moved xs (.reach ci xi)) <| counted <|
      if items.length < width then noting (.fixed ci xi width false) (ofRun Run.fail)
      else
        andThen
          (orElse
            (inTurn (attempters.zip items) (fun part => part.1.bind part.2) captures)
            (noting (.fixed ci xi width false) (ofRun Run.fail)))
          fun captures =>
            noting (.fixed ci xi width true)
              (attempts form xs (ci + 1) rest (xi + width) (items.drop width) captures)
  | ci, .repeated attempter repetition :: rest, xi, items, captures =>
    seeing (fun _ => .moved xs (.reach ci xi)) <| counted <|
      firstOf (repetition.lengths items.length (Chunk.leastTotal rest)) fun take =>
        noting (.repeated ci xi take repetition.mode) <|
          andThen (attempter.bind (.seq form (items.take take)) captures) fun captures =>
            attempts form xs (ci + 1) rest (xi + take) (items.drop take) captures

end Sequence

namespace Pattern

open Survey

mutual

/-- The match of a value, with a sight for each chunk that is attempted. -/
def attempts : Pattern Value → Value → Captures → Survey
  | .wildcard, _, captures => ofRun (Run.succeed captures)
  | .literal expected, v, captures => ofRun (Run.guard (expected.strictlyEqual v) captures)
  | .typeCheck kind, v, captures => ofRun (Run.guard (v.kind == kind.kind) captures)
  | .alternation options, v, captures =>
    firstOf (attempters options) fun option => option.bind v captures
  | .sequence elements, v, captures =>
    match v.items? with
    | none => ofRun Run.fail
    | some (form, items) =>
      nested (Sequence.attempts form items 0
        (Chunk.cut Attempter.repetition? (attempters elements)) 0 items captures)
  | .repeated inner _ bounds, v, captures => surveyEach bounds (attempts inner) v captures
  | .arrayOf inner bounds, v, captures => nested (surveyEach bounds (attempts inner) v captures)
  | .named label inner, v, captures =>
    andThen (attempts inner v captures) fun captures =>
      ofRun (Run.succeed (captures.put label v))
  | .unspecified _, _, _ => ofRun (Run.abort .unspecified)
  | .misfit flaw value, _, _ => ofRun (Run.abort (.misfit flaw value.typeName))
  | .choiceFrom _ options, v, captures =>
    firstOf (attempters options) fun option => option.bind v captures
termination_by structural p => p

def attempters : List (Pattern Value) → List Attempter
  | [] => []
  | p :: rest => ⟨p.repetition?, attempts p⟩ :: attempters rest
termination_by structural ps => ps

end

/-- A pattern as a walk uses it that lists its attempts. -/
def attempter (p : Pattern Value) : Attempter := ⟨p.repetition?, p.attempts⟩

theorem attempters_eq_map (ps : List (Pattern Value)) : attempters ps = ps.map attempter := by
  induction ps with
  | nil => rfl
  | cons p rest ih => rw [attempters, ih, List.map_cons, attempter]

theorem cut_attempters (elements : List (Pattern Value)) :
    Chunk.cut Attempter.repetition? (attempters elements) =
      (chunks elements).map (Chunk.map attempter) := by
  rw [attempters_eq_map]
  exact Chunk.cut_map repetition? Attempter.repetition? attempter (fun _ => rfl) elements

end Pattern

namespace Survey

variable {α : Type} {survey first second : Survey} {run firstRun secondRun : Run}

/-- A survey tallies a run when it follows it and sees one thing for each step that is counted. -/
structure Tallies (survey : Survey) (run : Run) : Prop where
  follows : Follows survey run
  counts : ∀ s, (survey s).search.steps = s.steps + (survey s).sights.length

theorem tallies_ofRun {run : Run} (h : ∀ s, (run s).2.steps = s.steps) :
    Tallies (ofRun run) run where
  follows := follows_ofRun run
  counts := h

theorem tallies_guard (holds : Bool) (captures : Captures) :
    Tallies (ofRun (Run.guard holds captures)) (Run.guard holds captures) :=
  tallies_ofRun fun s => by cases holds <;> rfl

theorem tallies_fail : Tallies (ofRun Run.fail) Run.fail := tallies_ofRun fun _ => rfl

theorem Tallies.noting (h : Tallies survey run) (d : Decision) :
    Tallies (Survey.noting d survey) (Run.noting d run) where
  follows := h.follows.noting d
  counts s := h.counts (s.note d)

/-- What is seen before a step is counted is seen also where the step is one too many. -/
theorem Tallies.attempted (h : Tallies survey run) (sight : Search → Sight) :
    Tallies (seeing sight (counted survey)) (Run.counted run) where
  follows := h.follows.counted.seeing sight
  counts s := by
    have hsteps : (counted survey s).search.steps =
        s.steps + 1 + (counted survey s).sights.length := by
      rw [← Search.steps_step s]
      unfold counted
      rcases s.step with ⟨_ | reason, after⟩
      · exact h.counts after
      · rfl
    simp only [seeing, Seen.after, hsteps, List.length_append, List.length_singleton,
      Nat.add_assoc]

theorem Tallies.andThen (h : Tallies first firstRun) {next : Captures → Survey}
    {nextRun : Captures → Run} (hnext : ∀ captures, Tallies (next captures) (nextRun captures)) :
    Tallies (Survey.andThen first next) (Run.andThen firstRun nextRun) where
  follows := h.follows.andThen fun captures => (hnext captures).follows
  counts s := by
    have hfirst := h.counts s
    unfold Survey.andThen
    split
    · next captures houtcome =>
      simp only [Seen.after, (hnext captures).counts, hfirst, List.length_append, Nat.add_assoc]
    · exact hfirst

theorem Tallies.orElse (h : Tallies first firstRun) (hsecond : Tallies second secondRun) :
    Tallies (Survey.orElse first second) (Run.orElse firstRun secondRun) where
  follows := h.follows.orElse hsecond.follows
  counts s := by
    have hfirst := h.counts s
    unfold Survey.orElse
    split
    · simp only [Seen.after, hsecond.counts, hfirst, List.length_append, Nat.add_assoc]
    · exact hfirst

theorem Tallies.nested (h : Tallies survey run) :
    Tallies (Survey.nested survey) (Run.nested run) where
  follows := h.follows.nested
  counts s := by
    rw [← Search.steps_enter s]
    unfold Survey.nested
    rcases s.enter with ⟨_ | reason, after⟩
    · exact h.counts after
    · rfl

theorem tallies_firstOf {ways : List α} {survey : α → Survey} {run : α → Run}
    (h : ∀ way ∈ ways, Tallies (survey way) (run way)) :
    Tallies (firstOf ways survey) (Run.firstOf ways run) := by
  induction ways with
  | nil => exact tallies_fail
  | cons way rest ih =>
    obtain ⟨hway, hrest⟩ := List.forall_mem_cons.mp h
    exact hway.orElse (ih hrest)

theorem tallies_inTurn {parts : List α} {survey : α → Captures → Survey}
    {run : α → Captures → Run}
    (h : ∀ part ∈ parts, ∀ captures, Tallies (survey part captures) (run part captures))
    (captures : Captures) :
    Tallies (inTurn parts survey captures) (Run.inTurn parts run captures) := by
  induction parts generalizing captures with
  | nil => exact tallies_ofRun fun _ => rfl
  | cons part rest ih =>
    obtain ⟨hpart, hrest⟩ := List.forall_mem_cons.mp h
    exact (hpart captures).andThen (ih hrest)

theorem tallies_surveyEach {bind : Value → Captures → Survey} {run : Value → Captures → Run}
    (h : ∀ v captures, Tallies (bind v captures) (run v captures)) (bounds : Option Bounds)
    (v : Value) (captures : Captures) :
    Tallies (surveyEach bounds bind v captures) (bindEach bounds run v captures) := by
  unfold surveyEach bindEach
  cases v.items? with
  | none => exact tallies_fail
  | some found =>
    cases hallow : Bounds.allow bounds found.2.length with
    | true =>
      simp only [hallow, if_true]
      exact tallies_inTurn (fun item _ => h item) captures
    | false =>
      simp only [hallow, Bool.false_eq_true, if_false]
      exact tallies_fail

end Survey

open Survey

/-- A walk makes one attempt for each step that it counts, if its elements do. -/
theorem Sequence.tallies_attempts (form : Form) (xs : List Value)
    {chunks : List (Chunk (Pattern Value))}
    (h : ∀ chunk ∈ chunks, ∀ p ∈ chunk.elements, ∀ v captures,
      Tallies (p.attempts v captures) (p.bind v captures))
    (ci xi : Nat) (items : List Value) (captures : Captures) :
    Tallies (attempts form xs ci (chunks.map (Chunk.map Pattern.attempter)) xi items captures)
      (walk Repetition.lengths form ci
        (chunks.map (Chunk.map (Pattern.matcher Repetition.lengths))) xi items captures) := by
  induction chunks generalizing ci xi items captures with
  | nil => exact tallies_guard _ captures
  | cons chunk rest ih =>
    obtain ⟨hown, hlater⟩ := List.forall_mem_cons.mp h
    cases chunk with
    | fixed ps =>
      simp only [List.map_cons, Chunk.map, attempts, walk, List.length_map]
      apply Tallies.attempted
      by_cases hnarrow : items.length < ps.length
      · simp only [hnarrow, if_true]
        exact tallies_fail.noting _
      · simp only [hnarrow, if_false, List.zip_map_left, Run.inTurn_map]
        apply Tallies.andThen
        · apply Tallies.orElse
          · rw [inTurn_map]
            exact tallies_inTurn (fun part hpart =>
              hown part.1 (List.of_mem_zip hpart).1 part.2) captures
          · exact tallies_fail.noting _
        · intro captures
          exact (ih hlater _ _ _ captures).noting _
    | repeated p repetition =>
      simp only [List.map_cons, Chunk.map, attempts, walk, Chunk.leastTotal_map]
      apply Tallies.attempted
      apply tallies_firstOf
      intro take _
      apply Tallies.noting
      apply Tallies.andThen
      · exact hown p List.mem_cons_self _ captures
      · intro captures
        exact ih hlater _ _ _ captures

namespace Pattern

/-- Listing the attempts of a match does not change the match, and there is one attempt for each
step that is counted. -/
theorem tallies_attempts (p : Pattern Value) (v : Value) (captures : Captures) :
    Tallies (p.attempts v captures) (p.bind v captures) := by
  induction p using Pattern.induction generalizing v captures with
  | wildcard => exact tallies_ofRun fun _ => rfl
  | literal expected => exact tallies_guard _ captures
  | typeCheck kind => exact tallies_guard _ captures
  | alternation options ih | choiceFrom source options ih =>
    simp only [attempts, bind, bindWith, attempters_eq_map, matchersWith_eq_map]
    rw [firstOf_map, Run.firstOf_map]
    exact tallies_firstOf fun p hp => ih p hp v captures
  | sequence elements ih =>
    simp only [attempts, bind, bindWith, cut_attempters, cut_matchersWith]
    cases v.items? with
    | none => exact tallies_fail
    | some found =>
      apply Tallies.nested
      have helements : ∀ chunk ∈ chunks elements, ∀ p ∈ chunk.elements, ∀ v captures,
          Tallies (p.attempts v captures) (p.bind v captures) :=
        fun chunk hchunk p hp => ih p (mem_of_mem_chunks hchunk hp)
      exact Sequence.tallies_attempts found.1 found.2 helements 0 0 found.2 captures
  | repeated inner mode bounds ih =>
    simp only [attempts, bind, bindWith]
    exact tallies_surveyEach ih bounds v captures
  | arrayOf inner bounds ih =>
    simp only [attempts, bind, bindWith]
    exact (tallies_surveyEach ih bounds v captures).nested
  | named label inner ih =>
    simp only [attempts, bind, bindWith]
    exact (ih v captures).andThen fun captures => tallies_ofRun fun _ => rfl
  | unspecified tag => exact tallies_ofRun fun _ => rfl
  | misfit flaw value => exact tallies_ofRun fun _ => rfl

/-- What a match leaves of the search that it was given, whatever the counters of that search and
however the match ends. The limits are as they were. A step has been counted for each chunk
that was attempted, and none has been taken back. The search is on the level on which it was,
and just one below if a level was too deep. -/
theorem bind_counters (p : Pattern Value) (v : Value) (captures : Captures) (s : Search) :
    let after := (p.bind v captures s).2
    (p.attempts v captures s).outcome = some (p.bind v captures s).1 ∧
      (p.attempts v captures s).search = after ∧
      after.limits = s.limits ∧
      after.steps = s.steps + (p.attempts v captures s).sights.length ∧
      match (p.bind v captures s).1 with
      | .aborted (.maxDepth _) => after.depth = s.depth + 1
      | .aborted (.maxSteps _) | .aborted .unspecified | .aborted (.misfit ..)
      | .matched _ | .noMatch => after.depth = s.depth := by
  have htallies := p.tallies_attempts v captures
  obtain ⟨houtcome, hsearch⟩ := htallies.follows s
  have hscripted : Run.Scripted p.height false (bindWith Repetition.lengths p v) :=
    scripted_bindWith Repetition.lengths (fun _ => rfl) (Nat.le_refl p.height) v
  refine ⟨houtcome, hsearch, (hscripted.steady captures s).1, ?_, ?_⟩
  · rw [← hsearch]
    exact htallies.counts s
  · have hdepth : (p.bind v captures s).2.depth = match (p.bind v captures s).1 with
        | .aborted reason => s.depth + reason.sunk
        | _ => s.depth := hscripted.depth captures s
    rcases hend : (p.bind v captures s).1 with made | _ | reason
    · simpa only [hend] using hdepth
    · simpa only [hend] using hdepth
    · rw [hend] at hdepth
      cases reason with
      | maxDepth limit => exact hdepth
      | maxSteps _ | unspecified | misfit _ _ =>
        simpa only [Abort.sunk, Int.add_zero] using hdepth

/-- The third level is too deep. Two levels are come up from, and two chunks stay counted. -/
example :
    let p : Pattern Value := .sequence [.sequence [.sequence []]]
    let v := Value.list [.list [.list []]]
    let s : Search := ⟨⟨.number 2, .number 0, by decide⟩, none, 7, 0⟩
    (p.bind v [] s).1 = .aborted (.maxDepth (.number 2)) ∧ (p.bind v [] s).2.depth = 1 ∧
      (p.bind v [] s).2.steps = 9 ∧ (p.attempts v [] s).sights.length = 2 :=
  ⟨rfl, rfl, rfl, rfl⟩

end Pattern

end Motif
