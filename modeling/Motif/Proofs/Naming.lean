import Motif.Matching
import Motif.Proofs.Pairing

/-!
Labels only name what is captured. Without its labels a pattern takes the same steps
on the same levels, records the same decisions and comes to the same answer; only that
nothing is captured. This holds wherever the labels stand, also around a repetition
in a sequence, which is cut into the same chunks with and without them.
-/

namespace Motif

namespace Pattern

section

variable {α : Type}

mutual

/-- A pattern without any of its labels. What a choice took its options from is kept, since nothing
is matched against it. -/
def unlabelled : Pattern α → Pattern α
  | .wildcard => .wildcard
  | .literal value => .literal value
  | .typeCheck kind => .typeCheck kind
  | .alternation options => .alternation (allUnlabelled options)
  | .sequence elements => .sequence (allUnlabelled elements)
  | .repeated inner mode bounds => .repeated (unlabelled inner) mode bounds
  | .arrayOf inner bounds => .arrayOf (unlabelled inner) bounds
  | .named _ inner => unlabelled inner
  | .unspecified tag => .unspecified tag
  | .misfit flaw value => .misfit flaw value
  | .choiceFrom source options => .choiceFrom source (allUnlabelled options)
termination_by structural p => p

def allUnlabelled : List (Pattern α) → List (Pattern α)
  | [] => []
  | p :: rest => unlabelled p :: allUnlabelled rest
termination_by structural ps => ps

end

mutual

/-- The labels in a pattern, from the outside in and from left to right. -/
def labels : Pattern α → List String
  | .named label inner => label :: labels inner
  | .repeated inner _ _ | .arrayOf inner _ => labels inner
  | .alternation parts | .sequence parts | .choiceFrom _ parts => allLabels parts
  | .wildcard | .literal _ | .typeCheck _ | .unspecified _ | .misfit .. => []
termination_by structural p => p

def allLabels : List (Pattern α) → List String
  | [] => []
  | p :: rest => labels p ++ allLabels rest
termination_by structural ps => ps

end

theorem allUnlabelled_eq_map (ps : List (Pattern α)) : allUnlabelled ps = ps.map unlabelled := by
  induction ps with
  | nil => rfl
  | cons p rest ih => rw [allUnlabelled, ih, List.map_cons]

theorem allLabels_eq_flatMap (ps : List (Pattern α)) : allLabels ps = ps.flatMap labels := by
  induction ps with
  | nil => rfl
  | cons p rest ih => rw [allLabels, ih, List.flatMap_cons]

theorem labels_unlabelled (p : Pattern α) : p.unlabelled.labels = [] := by
  have hparts : ∀ ps : List (Pattern α), (∀ p ∈ ps, p.unlabelled.labels = []) →
      allLabels (allUnlabelled ps) = [] := by
    intro ps ih
    rw [allUnlabelled_eq_map, allLabels_eq_flatMap, List.flatMap_map, List.flatMap_eq_nil_iff]
    exact ih
  induction p using Pattern.induction with
  | wildcard | literal value | typeCheck kind | unspecified tag | misfit flaw value => rfl
  | alternation options ih | choiceFrom source options ih => exact hparts options ih
  | sequence elements ih => exact hparts elements ih
  | repeated inner mode bounds ih => exact ih
  | arrayOf inner bounds ih => exact ih
  | named label inner ih => exact ih

theorem repetition?_unlabelled (p : Pattern α) : p.unlabelled.repetition? = p.repetition? := by
  induction p using Pattern.induction with
  | named label inner ih => exact ih
  | _ => rfl

end

end Pattern

/-- The same outcome, but with other captures if it is a match. -/
def Outcome.withCaptures (captures : Captures) : Outcome → Outcome
  | .matched _ => .matched captures
  | .noMatch => .noMatch
  | .aborted reason => .aborted reason

theorem Outcome.isMatched_withCaptures (captures : Captures) (outcome : Outcome) :
    (outcome.withCaptures captures).isMatched = outcome.isMatched := by
  cases outcome <;> rfl

namespace Run

/-- A run is the silent version of another one when it does everything as the other one does, but
keeps the captures that it starts from. -/
def Silences (silent run : Captures → Run) : Prop :=
  ∀ earlier captures s,
    silent earlier s = ((run captures s).1.withCaptures earlier, (run captures s).2)

section

variable {silent run : Captures → Run}

/-- In other words, the two go in lockstep, while the captures of the silent one stay as they
are. -/
theorem silences_iff :
    Silences silent run ↔ ∀ earlier, Lockstep (fun kept _ => kept = earlier) silent run := by
  constructor
  · rintro h earlier _ captures rfl s
    rw [h]
    rcases run captures s with ⟨made | _ | reason, after⟩
    · exact ⟨.matched rfl, rfl⟩
    · exact ⟨.noMatch, rfl⟩
    · exact ⟨.aborted reason, rfl⟩
  · intro h earlier captures s
    obtain ⟨houtcome, hstate⟩ := h earlier earlier captures rfl s
    refine Prod.ext ?_ hstate
    generalize (silent earlier s).1 = outcome, (run captures s).1 = outcome' at houtcome
    cases houtcome with
    | matched hkept => exact congrArg Outcome.matched hkept
    | noMatch => rfl
    | aborted reason => rfl

theorem paired_silences : Paired Silences where
  succeed _ _ _ := rfl
  fail _ _ _ := rfl
  andThen h h' := silences_iff.mpr fun earlier =>
    lockstep_andThen (silences_iff.mp h earlier) (silences_iff.mp h' earlier)
  orElse h h' := silences_iff.mpr fun earlier =>
    lockstep_orElse (silences_iff.mp h earlier) (silences_iff.mp h' earlier)
  counted h := silences_iff.mpr fun earlier => lockstep_counted (silences_iff.mp h earlier)
  noting d _ _ _ h earlier captures s := h earlier captures (s.note d)

theorem silences_nested (h : Silences silent run) :
    Silences (fun captures => nested (silent captures)) fun captures => nested (run captures) :=
  silences_iff.mpr fun earlier => lockstep_nested (silences_iff.mp h earlier)

/-- A label is put on after everything else, so to leave it out changes nothing but what is
captured. -/
theorem Silences.named (h : Silences silent run) (label : String) (v : Value) :
    Silences silent fun captures =>
      andThen (run captures) fun captures => succeed (captures.put label v) := by
  intro earlier captures s
  rw [h earlier captures s]
  rcases hrun : run captures s with ⟨made | _ | reason, after⟩
  · simp only [andThen, hrun, succeed, Outcome.withCaptures]
  · simp only [andThen, hrun, Outcome.withCaptures]
  · simp only [andThen, hrun, Outcome.withCaptures]

end

end Run

namespace Pattern

open Run

theorem silences_options {lengths : LengthPolicy} {options : List (Pattern Value)}
    (hoptions : ∀ p ∈ options, ∀ v,
      Silences (bindWith lengths p.unlabelled v) (bindWith lengths p v)) (v : Value) :
    Silences
      (fun captures => firstOf (matchersWith lengths (allUnlabelled options)) fun option =>
        option.bind v captures)
      fun captures => firstOf (matchersWith lengths options) fun option =>
        option.bind v captures := by
  simp only [allUnlabelled_eq_map, matchersWith_eq_map, List.map_map, firstOf_map]
  exact paired_silences.firstOf fun p hp => hoptions p hp v

theorem silences_walk {lengths : LengthPolicy} {elements : List (Pattern Value)}
    (helements : ∀ p ∈ elements, ∀ v,
      Silences (bindWith lengths p.unlabelled v) (bindWith lengths p v))
    (form : Form) (items : List Value) :
    Silences
      (Sequence.walk lengths form 0
        (Chunk.cut Matcher.repetition? (matchersWith lengths (allUnlabelled elements))) 0 items)
      (Sequence.walk lengths form 0
        (Chunk.cut Matcher.repetition? (matchersWith lengths elements)) 0 items) := by
  -- Both cuts are made at the same places, since labels do not hide a repetition.
  have hcut : Chunk.cut Matcher.repetition? (matchersWith lengths (allUnlabelled elements)) =
      (chunks elements).map (Chunk.map fun p => matcher lengths p.unlabelled) := by
    rw [allUnlabelled_eq_map, matchersWith_eq_map, List.map_map]
    exact Chunk.cut_map repetition? Matcher.repetition? _ repetition?_unlabelled elements
  rw [hcut, cut_matchersWith]
  refine paired_silences.walk lengths form (fun chunk hchunk p hp v => ?_) 0 0 items
  exact helements p (mem_of_mem_chunks hchunk hp) v

theorem silences_bindWith (lengths : LengthPolicy) (p : Pattern Value) (v : Value) :
    Silences (bindWith lengths p.unlabelled v) (bindWith lengths p v) := by
  induction p using Pattern.induction generalizing v with
  | wildcard => exact paired_silences.succeed
  | literal expected => exact paired_silences.guard _
  | typeCheck kind => exact paired_silences.guard _
  | alternation options ih => exact silences_options ih v
  | choiceFrom source options ih => exact silences_options ih v
  | sequence elements ih =>
    cases v with
    | seq form items => exact silences_nested (silences_walk ih form items)
    | _ => exact paired_silences.fail
  | repeated inner mode bounds ih => exact paired_silences.bindEach ih bounds v
  | arrayOf inner bounds ih => exact silences_nested (paired_silences.bindEach ih bounds v)
  | named label inner ih => exact (ih v).named label v
  | unspecified tag => exact fun _ _ _ => rfl
  | misfit flaw value => exact fun _ _ _ => rfl

/-- Naming never changes matching. With and without its labels a pattern gives the same report on
every value within all limits: the same answer or the same error, after the same number of steps
and with the same record. The pattern without labels captures nothing. -/
theorem matchAgainst_unlabelled (p : Pattern Value) (v : Value) (limits : Limits)
    (tracer : Option Tracer) :
    let report := p.matchAgainst v limits tracer
    p.unlabelled.labels = [] ∧
    p.unlabelled.matchAgainst v limits tracer =
      { report with outcome := report.outcome.withCaptures [] } := by
  intro report
  refine ⟨labels_unlabelled p, ?_⟩
  have hsilent := silences_bindWith Repetition.lengths p v [] []
    (Search.fresh limits (tracer.map (·.note .started)))
  simp only [matchAgainst, bind, hsilent, Outcome.isMatched_withCaptures, report]

end Pattern

end Motif
