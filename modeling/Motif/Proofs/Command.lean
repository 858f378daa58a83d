import Motif.Proofs.Grammar
import Motif.Proofs.Payload

/-!
Exit codes. The command exits with 2 just when pattern, input or limits are invalid, and otherwise
with 0 or 1 after a report that says the same as the exit code, unless the pattern has a literal
that is no plain data. A number that is not finite is read as a literal, and so is a value that is
nested very deep, but neither can be written down again; then the command gives no answer at all.

This is said of texts that spell no half of a character. Where one is spelled, a text may be JSON
without a value here, and nothing is said about what becomes of it.
-/

namespace Motif.CommandLine

/-- The limits that the environment sets, with the number of steps that the arguments may give
instead. -/
def HasLimits (s : Surroundings) (a : Arguments) (limits : Limits) : Prop :=
  ∃ depth steps : Nat,
    LimitVariable.maxDepth.read (s.environment LimitVariable.maxDepth.name) = .ok (depth : Int) ∧
    LimitVariable.maxSteps.read (s.environment LimitVariable.maxSteps.name) = .ok (steps : Int) ∧
    limits.maxDepth = .number depth ∧
    match a.maxSteps with
    | none => limits.maxSteps = .number steps
    | some given => ∃ n : Nat, given = .value (n : Int) ∧ limits.maxSteps = .number n

/-- A job whose three parts are all valid. -/
structure Accepted (s : Surroundings) (a : Arguments) (patternText inputText : String)
    (document : Value) (job : Job) : Prop where
  read : Json.read patternText = some document
  grammatical : Document.Grammatical document
  pattern : Pattern.decode document = .ok job.pattern
  input : Json.read inputText = some job.input
  limits : HasLimits s a job.limits

theorem ofValues_eq_ok {maxDepth maxSteps : Value} {limits : Limits} :
    Limits.ofValues maxDepth maxSteps = .ok limits ↔
      Count.ofValue? maxDepth = some limits.maxDepth ∧
        Count.ofValue? maxSteps = some limits.maxSteps := by
  obtain ⟨depth, steps, hpos⟩ := limits
  unfold Limits.ofValues
  constructor
  · intro h
    split at h
    · cases h
    · next hdepth =>
      split at h
      · split at h
        · cases h
        · next hsteps =>
          cases h
          exact ⟨hdepth, hsteps⟩
      · cases h
  · rintro ⟨hdepth, hsteps⟩
    simp only [hdepth, hsteps, dif_pos hpos]

theorem ofValue?_int {n : Int} {count : Count} :
    Count.ofValue? (.int n) = some count ↔ ∃ k : Nat, n = k ∧ count = .number k := by
  cases n with
  | ofNat k =>
    constructor
    · intro h
      exact ⟨k, rfl, (Option.some.inj h).symm⟩
    · rintro ⟨k, hk, rfl⟩
      cases Int.ofNat.inj hk
      rfl
  | negSucc k =>
    constructor
    · intro h
      cases h
    · rintro ⟨m, hm, -⟩
      cases hm

theorem ofEnvironment_eq_ok {setting : String → Option String} {limits : Limits} :
    Limits.ofEnvironment setting = .ok limits ↔ ∃ depth steps : Nat,
      LimitVariable.maxDepth.read (setting LimitVariable.maxDepth.name) = .ok (depth : Int) ∧
      LimitVariable.maxSteps.read (setting LimitVariable.maxSteps.name) = .ok (steps : Int) ∧
      limits.maxDepth = .number depth ∧ limits.maxSteps = .number steps := by
  constructor
  · intro h
    obtain ⟨depth, hdepth, h⟩ := exists_of_bind_eq_ok h
    obtain ⟨steps, hsteps, h⟩ := exists_of_bind_eq_ok h
    split at h
    · next made hmade =>
      cases h
      obtain ⟨hmadeDepth, hmadeSteps⟩ := ofValues_eq_ok.mp hmade
      obtain ⟨d, rfl, hd⟩ := ofValue?_int.mp hmadeDepth
      obtain ⟨k, rfl, hk⟩ := ofValue?_int.mp hmadeSteps
      exact ⟨d, k, hdepth, hsteps, hd, hk⟩
    · cases h
  · rintro ⟨depth, steps, hdepth, hsteps, hd, hs⟩
    have hmade : Limits.ofValues (.int depth) (.int steps) = .ok limits :=
      ofValues_eq_ok.mpr ⟨by rw [hd]; rfl, by rw [hs]; rfl⟩
    simp only [Limits.ofEnvironment, hdepth, hsteps, bind, Except.bind, hmade]

theorem ofValue?_stepLimit {given : Given Int} {count : Count} :
    Count.ofValue? given.stepLimit = some count ↔
      ∃ n : Nat, given = .value (n : Int) ∧ count = .number n := by
  cases given with
  | value n => simpa [Given.stepLimit] using ofValue?_int
  | nothing => simp [Given.stepLimit, Value.list, Count.ofValue?]

theorem readLimits_eq_ok {s : Surroundings} {a : Arguments} {limits : Limits} :
    readLimits s a = .ok limits ↔ HasLimits s a limits := by
  unfold readLimits HasLimits
  constructor
  · intro h
    cases hfound : Limits.ofEnvironment s.environment with
    | error error =>
      rw [hfound] at h
      cases h
    | ok found =>
      obtain ⟨depth, steps, hdepth, hsteps, hd, hs⟩ := ofEnvironment_eq_ok.mp hfound
      refine ⟨depth, steps, hdepth, hsteps, ?_⟩
      cases hgiven : a.maxSteps with
      | none =>
        simp only [hfound, hgiven] at h
        cases h
        exact ⟨hd, hs⟩
      | some given =>
        simp only [hfound, hgiven] at h
        cases hmade : Limits.ofValues found.maxDepth.toValue given.stepLimit with
        | error error =>
          rw [hmade] at h
          cases h
        | ok made =>
          rw [hmade] at h
          cases h
          obtain ⟨hmadeDepth, hmadeSteps⟩ := ofValues_eq_ok.mp hmade
          rw [hd] at hmadeDepth
          exact ⟨(Option.some.inj hmadeDepth).symm, ofValue?_stepLimit.mp hmadeSteps⟩
  · rintro ⟨depth, steps, hdepth, hsteps, hd, hs⟩
    have hpos : 0 < (Count.number depth).value := hd ▸ limits.maxDepth_pos
    have hfound : Limits.ofEnvironment s.environment =
        .ok ⟨.number depth, .number steps, hpos⟩ :=
      ofEnvironment_eq_ok.mpr ⟨depth, steps, hdepth, hsteps, rfl, rfl⟩
    cases hgiven : a.maxSteps with
    | none =>
      rw [hgiven] at hs
      obtain ⟨maxDepth, maxSteps, _⟩ := limits
      cases hd
      cases hs
      simp only [hfound]
    | some given =>
      rw [hgiven] at hs
      have hmade : Limits.ofValues (.int depth) given.stepLimit = .ok limits :=
        ofValues_eq_ok.mpr ⟨by rw [hd]; rfl, ofValue?_stepLimit.mpr hs⟩
      simp only [hfound, Count.toValue, hmade]

variable {s : Surroundings} {a : Arguments} {patternText text : String}

theorem ofText_eq_ok {p : Pattern Value} : Pattern.ofText patternText = .ok p ↔
    ∃ document, Json.read patternText = some document ∧ Document.Grammatical document ∧
      Pattern.decode document = .ok p := by
  unfold Pattern.ofText
  constructor
  · intro h
    split at h
    · next document hread =>
      exact ⟨document, hread, Document.grammatical_of_decode document h, h⟩
    · cases h
  · rintro ⟨document, hread, -, hdecode⟩
    rw [hread]
    exact hdecode

/-- Pattern, input and limits are looked at in this order. -/
theorem readJob_eq (htext : inputText s a = .ok text) : readJob s a patternText =
    match Pattern.ofText patternText, Json.read text, readLimits s a with
    | .error error, _, _ => .error (refusal patternText (.pattern error))
    | .ok _, none, _ => .error (refusal text .inputText)
    | .ok _, some _, .error error => .error (.invalid error)
    | .ok p, some v, .ok limits => .ok ⟨p, v, limits⟩ := by
  unfold readJob readInput
  rw [htext]
  cases Pattern.ofText patternText with
  | error error => rfl
  | ok p =>
    cases hinput : Json.read text with
    | none =>
      simp only [bind, Except.bind, hinput]
      rfl
    | some v =>
      simp only [bind, Except.bind, hinput]
      cases readLimits s a <;> rfl

/-- What is accepted is what a job is read from. -/
theorem readJob_eq_ok (htext : inputText s a = .ok text) {job : Job} :
    readJob s a patternText = .ok job ↔ ∃ document, Accepted s a patternText text document job := by
  rw [readJob_eq htext]
  constructor
  · intro h
    split at h
    · cases h
    · cases h
    · cases h
    · next p v limits hpattern hinput hlimits =>
      cases h
      obtain ⟨document, hread, hgrammatical, hdecode⟩ := ofText_eq_ok.mp hpattern
      exact ⟨document, hread, hgrammatical, hdecode, hinput, readLimits_eq_ok.mp hlimits⟩
  · rintro ⟨document, h⟩
    have hpattern := ofText_eq_ok.mpr ⟨document, h.read, h.grammatical, h.pattern⟩
    simp only [hpattern, h.input, readLimits_eq_ok.mpr h.limits]

theorem refusal_of_whole (hwhole : Json.spellsHalf text = false) (error : InputError) :
    refusal text error = .invalid error :=
  if_neg (by simp [hwhole])

/-- What is wrong with the first part that is not valid, when pattern, input and limits are looked
at in this order. -/
inductive Rejected (s : Surroundings) (a : Arguments) (patternText inputText : String) :
    InputError → Prop
  | pattern {error : UsageError} (hpattern : Pattern.ofText patternText = .error error) :
    Rejected s a patternText inputText (.pattern error)
  | input {p : Pattern Value} (hpattern : Pattern.ofText patternText = .ok p)
    (hinput : Json.isText inputText = false) : Rejected s a patternText inputText .inputText
  | limits {p : Pattern Value} {v : Value} {error : InputError}
    (hpattern : Pattern.ofText patternText = .ok p) (hinput : Json.read inputText = some v)
    (hlimits : readLimits s a = .error error) : Rejected s a patternText inputText error

/-- Once there is a text for the input, a job can only be invalid, as long as the texts spell no
half of a character. -/
theorem rejected_of_readJob (htext : inputText s a = .ok text)
    (hpatternWhole : Json.spellsHalf patternText = false)
    (hinputWhole : Json.spellsHalf text = false) {error : JobError}
    (h : readJob s a patternText = .error error) :
    ∃ reason, error = .invalid reason ∧ Rejected s a patternText text reason := by
  rw [readJob_eq htext, refusal_of_whole hinputWhole] at h
  split at h
  · next hpattern =>
    rw [refusal_of_whole hpatternWhole] at h
    cases h
    exact ⟨_, rfl, .pattern hpattern⟩
  · next hpattern hinput =>
    cases h
    refine ⟨_, rfl, .input hpattern ?_⟩
    rw [Json.isText_eq_isSome_read hinputWhole, hinput]
    rfl
  · next hpattern hinput hlimits =>
    cases h
    exact ⟨_, rfl, .limits hpattern hinput hlimits⟩
  · cases h

theorem run_eq {texts : List String}
    (hargs : Arguments.ofStrings (fun name => (s.file name).isSome) texts = .ok a)
    (hschema : a.schema = false) (hpattern : a.pattern = some patternText)
    (hne : patternText ≠ "") : run s texts = conclude a (readJob s a patternText) := by
  simp only [run, hargs, hschema, hpattern, Bool.false_eq_true, if_false]

theorem zero_or_one (matched : Bool) :
    (if matched then 0 else 1) = 0 ∨ (if matched then 0 else 1) = 1 := by
  cases matched
  · exact Or.inr rfl
  · exact Or.inl rfl

/-- A job that is performed is exited from with 0 or 1. -/
theorem exit_of_perform {job : Job} {exit : Nat} {stdout stderr : String}
    (h : perform a job = .ok (.finished exit stdout stderr)) : exit = 0 ∨ exit = 1 := by
  obtain ⟨_, _, _, -, -, -, rfl, -⟩ := exists_of_perform h
  exact zero_or_one _

/-- What the command says about an outcome: the exit code, and what the report holds under
`matched`, `bindings` and `warnings`. -/
inductive Says : Outcome → Nat → Bool → Value → List Value → Prop
  | matched (captures : Captures) :
    Says (.matched captures) 0 true (Value.record captures).asData []
  | noMatch : Says .noMatch 1 false .null []
  | stopped (reason : Abort) (h : reason.overBudget = true) :
    Says (.aborted reason) 1 false .null [.str reason.message]

/-- The outcome of a sound pattern is an answer or an excess of a limit. -/
theorem says_of_sound {p : Pattern Value} (hsound : p.isSound = true) (v : Value)
    (limits : Limits) :
    let outcome := (p.matchAgainst v limits none).outcome
    Says outcome (if outcome.isMatched then 0 else 1) outcome.isMatched (bindings outcome)
      (warnings outcome) := by
  intro outcome
  cases houtcome : outcome with
  | matched captures => exact .matched captures
  | noMatch => exact .noMatch
  | aborted reason =>
    exact .stopped reason
      (Pattern.firm_bindWith Repetition.lengths hsound v [] _ reason houtcome)

theorem Says.exit_eq_zero {outcome : Outcome} {exit : Nat} {matched : Bool} {bindings : Value}
    {warnings : List Value} (h : Says outcome exit matched bindings warnings) :
    (exit = 0 ∨ exit = 1) ∧ (exit = 0 ↔ matched = true) ∧ (matched = true ↔ bindings ≠ .null) := by
  cases h <;> simp [Value.record, Value.asData]

/-- The exit codes of the command, for all texts of pattern and input that spell no half of a
character, all environments and all arguments that are used. It exits with 2, and with nothing on
the standard output, just when pattern document, input and limits are not all accepted; then its
message starts with what is wrong with the first of them. Otherwise, as long as all literals are
plain data, it exits with 0 or 1 and writes one report; the exit code is 0 when the report tells of
a match, and then it tells the bindings too. Both are those of the match within the limits, and a
limit that stops it leaves one warning. With another literal there is no exit code. -/
theorem run_exits {texts : List String}
    (hargs : Arguments.ofStrings (fun name => (s.file name).isSome) texts = .ok a)
    (hschema : a.schema = false) (hpattern : a.pattern = some patternText)
    (hne : patternText ≠ "") (htext : inputText s a = .ok text)
    (hpatternWhole : Json.spellsHalf patternText = false)
    (hinputWhole : Json.spellsHalf text = false) :
    ((∃ error message, Rejected s a patternText text error ∧
        run s texts = .ok (.finished 2 "" message) ∧
        ("Invalid input: " ++ error.message).toList <+: message.toList) ↔
      ¬ ∃ document job, Accepted s a patternText text document job) ∧
    ∀ document job, Accepted s a patternText text document job →
      ((∀ literal ∈ job.pattern.literals, literal.isData = true) →
        ∃ exit matched bindings warnings entries written,
          run s texts = .ok (.finished exit (written ++ "\n") "") ∧
          Json.write a.layout (.record entries) = .ok written ∧
          Says (job.pattern.matchAgainst job.input job.limits none).outcome exit matched bindings
            warnings ∧
          entries.find? "matched" = some (.bool matched) ∧
          entries.find? "bindings" = some bindings ∧
          entries.find? "warnings" = some (.list warnings) ∧
          (exit = 0 ∨ exit = 1) ∧ (exit = 0 ↔ matched = true) ∧
          (matched = true ↔ bindings ≠ .null)) ∧
      ((∃ literal ∈ job.pattern.literals, literal.isData = false) →
        ∃ literal ∈ job.pattern.literals, literal.isData = false ∧
          run s texts = .error (.encode (.literal literal))) := by
  have hrun := run_eq hargs hschema hpattern hne
  refine ⟨⟨?_, ?_⟩, fun document job haccepted => ?_⟩
  · rintro ⟨error, message, -, hinvalid, -⟩ ⟨document, job, haccepted⟩
    rw [(readJob_eq_ok htext).mpr ⟨document, haccepted⟩, hinvalid] at hrun
    rcases exit_of_perform hrun.symm with hexit | hexit <;> cases hexit
  · intro hnone
    cases hjob : readJob s a patternText with
    | ok job =>
      obtain ⟨document, haccepted⟩ := (readJob_eq_ok htext).mp hjob
      exact absurd ⟨document, job, haccepted⟩ hnone
    | error error =>
      obtain ⟨reason, rfl, hrejected⟩ := rejected_of_readJob htext hpatternWhole hinputWhole hjob
      rw [hjob] at hrun
      exact ⟨reason, _, hrejected, hrun, "\n".toList, String.toList_append.symm⟩
  · rw [(readJob_eq_ok htext).mpr ⟨document, haccepted⟩] at hrun
    obtain ⟨hregular, hliterals⟩ :=
      Pattern.spelled_of_decode (Json.spelled_of_read haccepted.read) haccepted.pattern
    have hinput := Json.spelled_of_read haccepted.input
    refine ⟨fun hdata => ?_, fun hnone => ?_⟩
    · obtain ⟨encoded, rendered, written, -, -, -, hwritten, hperform⟩ :=
        exists_perform (a := a) hregular hliterals hinput hdata
      have hsays := says_of_sound (Pattern.isSound_of_decode haccepted.pattern) job.input job.limits
      have hanswer := hsays.exit_eq_zero
      have houtcome : (a.matched job).outcome =
          (job.pattern.matchAgainst job.input job.limits none).outcome :=
        job.pattern.matchAgainst_unwatched job.input job.limits _
      rw [← houtcome] at hsays hanswer ⊢
      exact ⟨_, _, _, _, _, written, hrun.trans hperform, hwritten, hsays, rfl, rfl, rfl, hanswer⟩
    · have hsettled := job.pattern.settled_encode hregular
      rcases hsettled with ⟨-, hall⟩ | ⟨literal, hliteral, hplain, herror⟩
      · obtain ⟨literal, hliteral, hplain⟩ := hnone
        rw [hall literal hliteral] at hplain
        cases hplain
      · refine ⟨literal, hliteral, hplain, hrun.trans ?_⟩
        simp only [conclude, perform, herror, bind, Except.bind]

/-- What a computation gives can be checked without naming it. -/
theorem exists_of_any {ε α : Type} (result : Except ε α) (holds : α → Bool)
    (h : result.toOption.any holds = true) : ∃ x, result = .ok x ∧ holds x = true := by
  cases result with
  | error error => cases h
  | ok x => exact ⟨x, rfl, h⟩

/-- Whether the search is stopped for a reason. -/
def Job.isStoppedFor (reason : Abort) (job : Job) : Bool :=
  match (job.pattern.matchAgainst job.input job.limits none).outcome with
  | .aborted found => found == reason
  | _ => false

theorem Job.outcome_of_isStoppedFor {reason : Abort} {job : Job}
    (h : job.isStoppedFor reason = true) :
    (job.pattern.matchAgainst job.input job.limits none).outcome = .aborted reason := by
  unfold isStoppedFor at h
  split at h
  · next found hfound => rw [hfound, eq_of_beq h]
  · cases h

/-- The second step is one too many. -/
theorem run_exits_stopped :
    let s : Surroundings := ⟨"", fun _ => none, fun _ => none⟩
    let patternText := "[\x7b\"$\": \"greedy\"\x7d, 5]"
    let texts := ["--max-steps", "1", patternText, "[1, 2]"]
    let a : Arguments := ⟨some patternText, some "[1, 2]", false, false, false, false, none,
      some (.value 1)⟩
    Arguments.ofStrings (fun name => (s.file name).isSome) texts = .ok a ∧
      inputText s a = .ok "[1, 2]" ∧
      ∃ document job, Accepted s a patternText "[1, 2]" document job ∧
        (∀ literal ∈ job.pattern.literals, literal.isData = true) ∧
        ∃ entries written, run s texts = .ok (.finished 1 (written ++ "\n") "") ∧
          Json.write .spaced (.record entries) = .ok written ∧
          entries.find? "matched" = some (.bool false) ∧
          entries.find? "bindings" = some .null ∧
          entries.find? "warnings" = some (.list [.str "match exceeded max_steps=1"]) := by
  intro s patternText texts a
  have hargs : Arguments.ofStrings (fun name => (s.file name).isSome) texts = .ok a := by
    decide +kernel
  have htext : inputText s a = .ok "[1, 2]" := rfl
  obtain ⟨job, hjob, hchecked⟩ := exists_of_any (readJob s a patternText)
    (fun job => job.pattern.literals.all Value.isData && job.isStoppedFor (.maxSteps (.number 1)))
    (by decide +kernel)
  obtain ⟨hdata, hstopped⟩ := Bool.and_eq_true_iff.mp hchecked
  rw [List.all_eq_true] at hdata
  obtain ⟨document, haccepted⟩ := (readJob_eq_ok htext).mp hjob
  obtain ⟨_, hjobs⟩ :=
    run_exits hargs rfl rfl (by decide) htext (by decide +kernel) (by decide +kernel)
  obtain ⟨exit, matched, bindings, warnings, entries, written, hrun, hwritten, hsays, hmatched,
    hbindings, hwarnings, -⟩ := (hjobs document job haccepted).1 hdata
  rw [Job.outcome_of_isStoppedFor hstopped] at hsays
  cases hsays
  exact ⟨hargs, htext, document, job, haccepted, hdata, entries, written, hrun, hwritten, hmatched,
    hbindings, hwarnings⟩

/-- What is not a number is accepted as a pattern, and then the command fails. -/
theorem run_exits_nan :
    let s : Surroundings := ⟨"", fun _ => none, fun _ => none⟩
    let a : Arguments := ⟨some "NaN", some "1", false, false, false, false, none, none⟩
    Arguments.ofStrings (fun name => (s.file name).isSome) ["NaN", "1"] = .ok a ∧
      (∃ document job, Accepted s a "NaN" "1" document job) ∧
      (run s ["NaN", "1"]).isOk = false := by
  intro s a
  refine ⟨by decide +kernel, ?_, by decide +kernel⟩
  have htext : inputText s a = .ok "1" := rfl
  obtain ⟨job, hjob, -⟩ := exists_of_any (readJob s a "NaN") (fun _ => true) (by decide +kernel)
  obtain ⟨document, haccepted⟩ := (readJob_eq_ok htext).mp hjob
  exact ⟨document, job, haccepted⟩

end Motif.CommandLine
