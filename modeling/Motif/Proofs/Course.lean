import Motif.Proofs.Outcome
import Motif.Proofs.Survey

/-!
The course of a survey. What is seen on the way has no influence on it, and the numbers by
which the items are looked up never lead out of the sequence. So a survey comes to the
outcome of the match and leaves the same search behind, and it is never lost.
-/

namespace Motif

namespace Chunk

variable {α β : Type}

theorem tailMinimums_map (f : α → β) (chunks : List (Chunk α)) :
    tailMinimums (chunks.map (map f)) = tailMinimums chunks := by
  induction chunks with
  | nil => rfl
  | cons chunk rest ih =>
    have htotal := leastTotal_map f (chunk :: rest)
    rw [List.map_cons] at htotal
    simp only [List.map_cons, tailMinimums, htotal, ih]

/-- The entry after the one of a chunk says what the later chunks need. -/
theorem tailMinimums_succ {tails : List Nat} {ci : Nat} {chunk : Chunk α} {rest : List (Chunk α)}
    (h : tails.drop ci = tailMinimums (chunk :: rest)) :
    tails[ci + 1]? = some (leastTotal rest) ∧ tails.drop (ci + 1) = tailMinimums rest := by
  have hrest : tails.drop (ci + 1) = tailMinimums rest := by
    rw [← List.drop_drop, h]
    rfl
  have hhead : (tailMinimums rest).head? = some (leastTotal rest) := by
    cases rest <;> rfl
  refine ⟨?_, hrest⟩
  rw [← hhead, ← hrest, List.head?_drop]

end Chunk

namespace Survey

/-- A survey follows a run when it comes to the same outcome and leaves the same search behind. -/
def Follows (survey : Survey) (run : Run) : Prop :=
  ∀ s, (survey s).outcome = some (run s).1 ∧ (survey s).search = (run s).2

section

variable {α : Type} {survey first second : Survey} {run firstRun secondRun : Run}

theorem follows_ofRun (run : Run) : Follows (ofRun run) run := fun _ => ⟨rfl, rfl⟩

theorem Follows.seeing (h : Follows survey run) (sight : Search → Sight) :
    Follows (Survey.seeing sight survey) run := h

theorem Follows.noting (h : Follows survey run) (d : Decision) :
    Follows (Survey.noting d survey) (Run.noting d run) := fun s => h (s.note d)

theorem Follows.andThen (h : Follows first firstRun) {next : Captures → Survey}
    {nextRun : Captures → Run} (hnext : ∀ captures, Follows (next captures) (nextRun captures)) :
    Follows (Survey.andThen first next) (Run.andThen firstRun nextRun) := by
  intro s
  obtain ⟨houtcome, hsearch⟩ := h s
  unfold Survey.andThen Run.andThen
  rcases hrun : firstRun s with ⟨captures | _ | reason, after⟩
  · rw [hrun] at houtcome hsearch
    obtain ⟨hnextOutcome, hnextSearch⟩ := hnext captures after
    simp only [houtcome, hsearch]
    exact ⟨hnextOutcome, hnextSearch⟩
  · rw [hrun] at houtcome hsearch
    simp only [houtcome, hsearch]
    exact ⟨trivial, trivial⟩
  · rw [hrun] at houtcome hsearch
    simp only [houtcome, hsearch]
    exact ⟨trivial, trivial⟩

theorem Follows.orElse (h : Follows first firstRun) (hsecond : Follows second secondRun) :
    Follows (Survey.orElse first second) (Run.orElse firstRun secondRun) := by
  intro s
  obtain ⟨houtcome, hsearch⟩ := h s
  unfold Survey.orElse Run.orElse
  rcases hrun : firstRun s with ⟨captures | _ | reason, after⟩
  · rw [hrun] at houtcome hsearch
    simp only [houtcome, hsearch]
    exact ⟨trivial, trivial⟩
  · rw [hrun] at houtcome hsearch
    simp only [houtcome, hsearch]
    exact hsecond after
  · rw [hrun] at houtcome hsearch
    simp only [houtcome, hsearch]
    exact ⟨trivial, trivial⟩

theorem Follows.counted (h : Follows survey run) :
    Follows (Survey.counted survey) (Run.counted run) := by
  intro s
  unfold Survey.counted Run.counted
  rcases s.step with ⟨_ | reason, after⟩
  · exact h after
  · exact ⟨rfl, rfl⟩

theorem Follows.nested (h : Follows survey run) :
    Follows (Survey.nested survey) (Run.nested run) := by
  intro s
  unfold Survey.nested Run.nested
  rcases s.enter with ⟨_ | reason, after⟩
  · obtain ⟨houtcome, hsearch⟩ := h after
    exact ⟨houtcome, congrArg Search.leave hsearch⟩
  · exact ⟨rfl, rfl⟩

theorem follows_firstOf {ways : List α} {survey : α → Survey} {run : α → Run}
    (h : ∀ way ∈ ways, Follows (survey way) (run way)) :
    Follows (firstOf ways survey) (Run.firstOf ways run) := by
  induction ways with
  | nil => exact follows_ofRun Run.fail
  | cons way rest ih =>
    obtain ⟨hway, hrest⟩ := List.forall_mem_cons.mp h
    exact hway.orElse (ih hrest)

theorem firstOf_map {β : Type} (f : α → β) (ways : List α) (survey : β → Survey) :
    firstOf (ways.map f) survey = firstOf ways fun way => survey (f way) := by
  induction ways with
  | nil => rfl
  | cons way rest ih => rw [List.map_cons, firstOf, firstOf, ih]

theorem inTurn_map {β : Type} (f : α → β) (parts : List α) (survey : β → Captures → Survey) :
    inTurn (parts.map f) survey = inTurn parts fun part => survey (f part) := by
  induction parts with
  | nil => rfl
  | cons part rest ih =>
    funext captures
    rw [List.map_cons, inTurn, inTurn, ih]

theorem follows_inTurn {parts : List α} {survey : α → Captures → Survey}
    {run : α → Captures → Run}
    (h : ∀ part ∈ parts, ∀ captures, Follows (survey part captures) (run part captures))
    (captures : Captures) :
    Follows (inTurn parts survey captures) (Run.inTurn parts run captures) := by
  induction parts generalizing captures with
  | nil => exact follows_ofRun (Run.succeed captures)
  | cons part rest ih =>
    obtain ⟨hpart, hrest⟩ := List.forall_mem_cons.mp h
    exact (hpart captures).andThen (ih hrest)

end

end Survey

open Survey

theorem follows_surveyEach {bind : Value → Captures → Survey} {run : Value → Captures → Run}
    (h : ∀ v captures, Follows (bind v captures) (run v captures)) (bounds : Option Bounds)
    (v : Value) (captures : Captures) :
    Follows (surveyEach bounds bind v captures) (bindEach bounds run v captures) := by
  unfold surveyEach bindEach
  cases v.items? with
  | none => exact follows_ofRun Run.fail
  | some sequence =>
    obtain ⟨form, items⟩ := sequence
    cases hallow : Bounds.allow bounds items.length with
    | true =>
      simp only [hallow, if_true]
      exact follows_inTurn (fun item _ => h item) captures
    | false =>
      simp only [hallow, Bool.false_eq_true, if_false]
      exact follows_ofRun Run.fail

namespace Pattern

/-- A pattern as the survey of a sequence uses it. -/
def surveyor (p : Pattern Value) : Surveyor := ⟨p.repetition?, p.survey⟩

theorem surveyors_eq_map (ps : List (Pattern Value)) : surveyors ps = ps.map surveyor := by
  induction ps with
  | nil => rfl
  | cons p rest ih => rw [surveyors, ih, List.map_cons, surveyor]

theorem cut_surveyors (elements : List (Pattern Value)) :
    Chunk.cut Surveyor.repetition? (surveyors elements) =
      (chunks elements).map (Chunk.map surveyor) := by
  rw [surveyors_eq_map]
  exact Chunk.cut_map repetition? Surveyor.repetition? surveyor (fun _ => rfl) elements

end Pattern

namespace Sequence

open Pattern

section

variable {spot : Spot} {form : Form} {xs : List Value} {n ci : Nat} {captures : Captures}

/-- Each element of a fixed chunk reads the item that stands opposite it. -/
theorem follows_reads {ps : List (Pattern Value)}
    (h : ∀ p ∈ ps, ∀ v captures, Follows (p.survey spot v captures) (p.bind v captures))
    (offset : Nat) (hwide : n + offset + ps.length ≤ xs.length) (captures : Captures) :
    Follows
      (inTurn ((ps.map surveyor).zipIdx offset) (fun part captures =>
        seeing (fun _ => .moved xs (.read ((n : Int) + part.2))) <|
          lookUp (Position.item? xs ((n : Int) + part.2)) fun item =>
            part.1.bind spot item captures) captures)
      (Run.inTurn ((ps.map (matcher Repetition.lengths)).zip (xs.drop (n + offset)))
        (fun part => part.1.bind part.2) captures) := by
  induction ps generalizing offset captures with
  | nil => exact follows_ofRun (Run.succeed captures)
  | cons p rest ih =>
    obtain ⟨hp, hrest⟩ := List.forall_mem_cons.mp h
    simp only [List.length_cons] at hwide
    have hinside : n + offset < xs.length := by omega
    have hitem : Position.item? xs ((n : Int) + (offset : Int)) = some xs[n + offset] := by
      have hcast : (n : Int) + (offset : Int) = ((n + offset : Nat) : Int) := by omega
      rw [hcast, Position.item?_natCast, List.getElem?_eq_getElem hinside]
    rw [List.drop_eq_getElem_cons hinside]
    simp only [List.map_cons, List.zipIdx_cons, List.zip_cons_cons]
    apply Follows.andThen
    · simp only [hitem]
      exact (hp _ captures).seeing _
    · intro captures
      exact ih hrest (offset + 1) (by omega) captures

/-- As long as the number of the item is that of the items passed, looking things up by number and
taking them from the front of what is left come to the same. -/
theorem follows_submatch {chunks : List (Chunk (Pattern Value))} {tails : List Nat}
    (h : ∀ chunk ∈ chunks, ∀ p ∈ chunk.elements, ∀ spot v captures,
      Follows (p.survey spot v captures) (p.bind v captures))
    (htails : tails.drop ci = Chunk.tailMinimums chunks) (hn : n ≤ xs.length) :
    Follows (submatch tails form spot xs ci n (chunks.map (Chunk.map surveyor)) captures)
      (walk Repetition.lengths form ci (chunks.map (Chunk.map (matcher Repetition.lengths))) n
        (xs.drop n) captures) := by
  induction chunks generalizing ci n captures with
  | nil =>
    have hend : decide ((xs.length : Int) ≤ n) = (xs.drop n).isEmpty := by
      rw [Bool.eq_iff_iff]
      simp
    simp only [List.map_nil, submatch, walk, hend]
    exact (follows_ofRun _).seeing _
  | cons chunk rest ih =>
    obtain ⟨hown, hlater⟩ := List.forall_mem_cons.mp h
    obtain ⟨hneeded, hrest⟩ := Chunk.tailMinimums_succ htails
    have hremaining : (xs.length : Int) - n = ((xs.length - n : Nat) : Int) := by omega
    cases chunk with
    | fixed ps =>
      simp only [List.map_cons, Chunk.map, submatch, walk, List.length_map, List.length_drop,
        hremaining, Int.toNat_natCast, Int.ofNat_lt]
      apply Follows.seeing
      apply Follows.counted
      by_cases hnarrow : xs.length - n < ps.length
      · simp only [hnarrow, if_true]
        exact (follows_ofRun Run.fail).noting _
      · simp only [hnarrow, if_false]
        have hwide : n + ps.length ≤ xs.length := by omega
        apply Follows.andThen
        · apply Follows.orElse
          · exact follows_reads (fun p hp => hown p hp spot.inside) 0 hwide captures
          · exact (follows_ofRun Run.fail).noting _
        · intro captures
          apply Follows.noting
          rw [List.drop_drop]
          exact ih hlater hrest hwide
    | repeated p repetition =>
      simp only [List.map_cons, Chunk.map, submatch, walk, hneeded, lookUp, List.length_drop,
        hremaining, Int.toNat_natCast, Chunk.leastTotal_map, Repetition.lengths,
        Repetition.countedLengths_eq]
      apply Follows.seeing
      apply Follows.counted
      apply Follows.seeing
      rw [firstOf_map]
      apply follows_firstOf
      intro take htake
      have hfits : n + take ≤ xs.length := by
        have hmem := (Repetition.mem_takes _ _ _).mp htake
        omega
      rw [Position.slice_natCast xs hfits, Int.toNat_natCast]
      apply Follows.noting
      apply Follows.seeing
      apply Follows.andThen
      · exact hown p List.mem_cons_self spot.cut _ captures
      · intro captures
        rw [List.drop_drop]
        exact ih hlater hrest hfits

end

end Sequence

namespace Pattern

/-- The survey of a pattern takes the course of its match. It is never lost. -/
theorem follows_survey (p : Pattern Value) (spot : Spot) (v : Value) (captures : Captures) :
    Follows (p.survey spot v captures) (p.bind v captures) := by
  induction p using Pattern.induction generalizing spot v captures with
  | wildcard => exact (follows_ofRun _).seeing _
  | literal expected => exact (follows_ofRun _).seeing _
  | typeCheck kind => exact (follows_ofRun _).seeing _
  | alternation options ih | choiceFrom source options ih =>
    simp only [survey, bind, bindWith, surveyors_eq_map, matchersWith_eq_map]
    apply Follows.seeing
    rw [firstOf_map, Run.firstOf_map]
    exact follows_firstOf fun p hp => ih p hp spot v captures
  | sequence elements ih =>
    simp only [survey, bind, bindWith, cut_surveyors, cut_matchersWith, Chunk.tailMinimums_map]
    apply Follows.seeing
    cases v.items? with
    | none => exact follows_ofRun Run.fail
    | some found =>
      obtain ⟨form, items⟩ := found
      apply Follows.nested
      have helements : ∀ chunk ∈ chunks elements, ∀ p ∈ chunk.elements, ∀ spot v captures,
          Follows (p.survey spot v captures) (p.bind v captures) :=
        fun chunk hchunk p hp => ih p (mem_of_mem_chunks hchunk hp)
      exact Sequence.follows_submatch helements List.drop_zero (Nat.zero_le _)
  | repeated inner mode bounds ih =>
    simp only [survey, bind, bindWith]
    exact (follows_surveyEach (fun item => ih spot.each item) bounds v captures).seeing _
  | arrayOf inner bounds ih =>
    simp only [survey, bind, bindWith]
    exact (follows_surveyEach (fun item => ih spot.inside item) bounds v captures).nested.seeing _
  | named label inner ih =>
    simp only [survey, bind, bindWith]
    exact ((ih spot v captures).andThen fun captures => follows_ofRun _).seeing _
  | unspecified tag => exact (follows_ofRun _).seeing _
  | misfit flaw value => exact (follows_ofRun _).seeing _

theorem outcome_surveyed (p : Pattern Value) (v : Value) (limits : Limits)
    (tracer : Option Tracer) :
    (p.surveyed v limits tracer).outcome = some (p.matchAgainst v limits tracer).outcome :=
  (p.follows_survey .whole v [] _).1

/-- A survey reports what the match reports. -/
theorem report?_surveyed (p : Pattern Value) (v : Value) (limits : Limits)
    (tracer : Option Tracer) :
    (p.surveyed v limits tracer).report? = some (p.matchAgainst v limits tracer) := by
  have hsearch : (p.surveyed v limits tracer).search = _ := (p.follows_survey .whole v [] _).2
  simp only [Seen.report?, outcome_surveyed, hsearch]
  rfl

end Pattern

end Motif
