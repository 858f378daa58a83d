import Motif.Proofs.Command
import Motif.Proofs.Options

/-!
Feeding reports back. A report holds the pattern's document and the input, and it is read as it was
written. Decoding the reported document gives the pattern again, so the command does the same once
more when it is asked to match the reported input against the reported pattern.
-/

namespace Motif

theorem Pattern.decode_of_encode {p : Pattern Value} {floats : Bool} {document : Value}
    (hregular : p.isRegular = true) (hliterals : ∀ w ∈ p.literals, w.Spelled floats)
    (h : p.encode = .ok document) : decode document = .ok p := by
  obtain ⟨d, hd, h⟩ := exists_of_bind_eq_ok h
  cases h
  rw [decode, Document.ofValue_toValue d (Document.isReadable_ofPattern p hd)]
  exact (Document.toPattern_ofPattern p hregular hd).trans
    (congrArg Except.ok (map_eq_self p hregular fun w hw => (hliterals w hw).asData))

namespace CommandLine

/-- The arguments are used, and they ask for a match of two texts. -/
structure Asks (s : Surroundings) (texts : List String) (a : Arguments)
    (patternText text : String) : Prop where
  arguments : Arguments.ofStrings (fun name => (s.file name).isSome) texts = .ok a
  schema : a.schema = false
  pattern : a.pattern = some patternText
  input : inputText s a = .ok text

/-- The same flags are given in the same environment. -/
structure SameFlags (s : Surroundings) (a : Arguments) (s' : Surroundings) (a' : Arguments) :
    Prop where
  environment : s'.environment = s.environment
  pretty : a'.pretty = a.pretty
  trace : a'.trace = a.trace
  maxSteps : a'.maxSteps = a.maxSteps

variable {s s' : Surroundings} {a a' : Arguments} {texts : List String}
  {patternText text : String}

theorem ne_empty_of_read {document : Value} (h : Json.read patternText = some document) :
    patternText ≠ "" := by
  rintro rfl
  have hnone : Json.read "" = none := by decide +kernel
  rw [hnone] at h
  cases h

theorem readLimits_congr (h : SameFlags s a s' a') : readLimits s' a' = readLimits s a := by
  rw [readLimits, readLimits, h.environment, h.maxSteps]

theorem perform_congr (h : SameFlags s a s' a') (job : Job) : perform a' job = perform a job := by
  have hlayout : a'.layout = a.layout := by rw [Arguments.layout, Arguments.layout, h.pretty]
  have hmatched : a'.matched job = a.matched job := by
    rw [Arguments.matched, Arguments.matched, h.trace]
  rw [perform, perform, hlayout, hmatched]

/-- A job is read from all texts that are read as its pattern's document and as its input. -/
theorem readJob_of_read {document : Value} {job : Job} (htext : inputText s a = .ok text)
    (hread : Json.read patternText = some document)
    (hpattern : Pattern.decode document = .ok job.pattern)
    (hinput : Json.read text = some job.input) (hlimits : readLimits s a = .ok job.limits) :
    readJob s a patternText = .ok job := by
  have hofText : Pattern.ofText patternText = .ok job.pattern := by
    rw [Pattern.ofText, hread]
    exact hpattern
  simp only [readJob_eq htext, hofText, hinput, hlimits]

/-- Only a job leads to an exit with 0 or 1. -/
theorem exists_job_of_run (hasks : Asks s texts a patternText text) (hne : patternText ≠ "")
    {exit : Nat} {stdout stderr : String}
    (hrun : run s texts = .ok (.finished exit stdout stderr)) (hexit : exit = 0 ∨ exit = 1) :
    ∃ document job, Accepted s a patternText text document job ∧
      perform a job = .ok (.finished exit stdout stderr) := by
  rw [run_eq hasks.arguments hasks.schema hasks.pattern hne] at hrun
  cases hjob : readJob s a patternText with
  | error error =>
    rw [hjob] at hrun
    cases error with
    | invalid reason =>
      cases hrun
      rcases hexit with hexit | hexit <;> cases hexit
    | failed failure => cases hrun
  | ok job =>
    obtain ⟨document, haccepted⟩ := (readJob_eq_ok hasks.input).mp hjob
    rw [hjob] at hrun
    exact ⟨document, job, haccepted, hrun⟩

/-- The reported document and the input make the job that was reported on. -/
theorem run_again {job : Job} {reported : Value}
    (hpattern : Pattern.decode reported = .ok job.pattern) (hlimits : HasLimits s a job.limits)
    (hflags : SameFlags s a s' a') (hasks : Asks s' texts a' patternText text)
    (hread : Json.read patternText = some reported) (hinput : Json.read text = some job.input) :
    run s' texts = perform a job := by
  have hlimits' : readLimits s' a' = .ok job.limits :=
    (readLimits_congr hflags).trans (readLimits_eq_ok.mpr hlimits)
  rw [run_eq hasks.arguments hasks.schema hasks.pattern (ne_empty_of_read hread),
    readJob_of_read hasks.input hread hpattern hinput hlimits']
  exact perform_congr hflags job

/-- What the command prints can be fed back to it, for all command lines and environments, and for
all pattern documents and inputs without floating-point numbers. If it exits with 0 or 1, the text
on its standard output is read as the very report on the match that was written, in either layout:
whether the match was made and what it captured, the warning about a limit, and the trace if one
was asked for. The report holds a document of the same pattern, and the input; whenever the same
flags are given in the same environment with texts of these two, the run is the same again, to the
last character. There are such texts in every layout, and a command line for them. -/
theorem run_feedback {document input : Value} {exit : Nat} {stdout stderr : String}
    (hasks : Asks s texts a patternText text)
    (hdocument : Json.read patternText = some document) (hinput : Json.read text = some input)
    (hdocumentFloats : document.hasFloat = false) (hinputFloats : input.hasFloat = false)
    (hrun : run s texts = .ok (.finished exit stdout stderr)) (hexit : exit = 0 ∨ exit = 1) :
    ∃ job reported rendered entries written,
      Accepted s a patternText text document job ∧
      job.pattern.encode = .ok reported ∧ job.pattern.render = .ok rendered ∧
      report job (a.matched job) reported rendered = .record entries ∧
      Json.write a.layout (.record entries) = .ok written ∧ stdout = written ++ "\n" ∧
      Json.read stdout = some (report job (a.matched job) reported rendered) ∧
      exit = (if (a.matched job).outcome.isMatched then 0 else 1) ∧
      entries.find? "matched" = some (.bool (a.matched job).outcome.isMatched) ∧
      entries.find? "bindings" = some (bindings (a.matched job).outcome) ∧
      entries.find? "warnings" = some (.list (warnings (a.matched job).outcome)) ∧
      entries.find? "trace" = (a.matched job).tracer.map Tracer.toValue ∧
      entries.find? "pattern" = some reported ∧ entries.find? "input" = some input ∧
      Pattern.decode reported = Pattern.decode document ∧
      (∀ s' texts' a' patternText' text', SameFlags s a s' a' →
        Asks s' texts' a' patternText' text' → Json.read patternText' = some reported →
        Json.read text' = some input → run s' texts' = run s texts) ∧
      ∀ layout layout' : Json.Layout, ∃ patternText' text',
        Json.write layout reported = .ok patternText' ∧ Json.write layout' input = .ok text' ∧
        run s (a.options ++ [patternText', text']) = run s texts := by
  obtain ⟨found, job, haccepted, hperform⟩ :=
    exists_job_of_run hasks (ne_empty_of_read hdocument) hrun hexit
  obtain rfl : document = found := Option.some.inj (hdocument.symm.trans haccepted.read)
  obtain rfl : input = job.input := Option.some.inj (hinput.symm.trans haccepted.input)
  obtain ⟨hregular, hliterals⟩ := Pattern.spelled_of_decode
    ((Json.spelled_of_read hdocument).floatless hdocumentFloats) haccepted.pattern
  have hspelled := (Json.spelled_of_read hinput).floatless hinputFloats
  obtain ⟨reported, rendered, written, hencode, hrender, hwritten, hmatched, hstdout⟩ :=
    exists_of_perform hperform
  have hreported := Pattern.spelled_of_encode hliterals hencode
  have hreport : (report job (a.matched job) reported rendered).Spelled false :=
    spelled_report hreported hspelled (spelled_bindings hspelled) fun t ht => recorded_matched ht
  have hread : Json.read stdout = some (report job (a.matched job) reported rendered) := by
    rw [hstdout]
    exact Json.read_write_line hreport hwritten
  have hsame := hperform.trans hrun.symm
  -- Literals that are spelled have no tuples, so nothing of the pattern is lost.
  have hpattern := Pattern.decode_of_encode hregular hliterals hencode
  refine ⟨job, reported, rendered, _, written, haccepted, hencode, hrender, rfl, hwritten, hstdout,
    hread, hmatched, rfl, rfl, rfl, ?_, rfl, rfl, hpattern.trans haccepted.pattern.symm, ?_,
    fun layout layout' => ?_⟩
  · cases (a.matched job).tracer <;> rfl
  · intro s' texts' a' patternText' text' hflags hasks' hread' hinput'
    exact (run_again hpattern haccepted.limits hflags hasks' hread' hinput').trans hsame
  · obtain ⟨patternText', hpatternText'⟩ :
        ∃ patternText', Json.write layout reported = .ok patternText' := Json.exists_write hreported
    obtain ⟨text', htext'⟩ : ∃ text', Json.write layout' job.input = .ok text' :=
      Json.exists_write hspelled
    have hasks' : Asks s (a.options ++ [patternText', text']) (a.matching patternText' text')
        patternText' text' :=
      ⟨a.ofStrings_options (isPlain_write hreported hpatternText')
        (isPlain_write hspelled htext'), rfl, rfl, rfl⟩
    refine ⟨patternText', text', hpatternText', htext', ?_⟩
    have hflags : SameFlags s a s (a.matching patternText' text') := ⟨rfl, rfl, rfl, rfl⟩
    exact (run_again hpattern haccepted.limits hflags hasks'
      (Json.read_write hreported hpatternText') (Json.read_write hspelled htext')).trans hsame

/-- A document that is reported in another form does the same as before in that form. -/
theorem run_feedback_normalised :
    let s : Surroundings := ⟨"", fun _ => none, fun _ => none⟩
    let patternText := "\x7b\"$\": \"seq\", \"of\": [\x7b\"$\": \"name\", \"label\": \"x\", " ++
      "\"of\": \x7b\"$\": \"greedy\"\x7d\x7d, \x7b\"$\": \"is\", \"value\": -5\x7d]\x7d"
    let text := "[1, \"\\u0007\", -5]"
    let texts := ["--trace", "--max-steps", "50", patternText, text]
    let a : Arguments := ⟨some patternText, some text, false, false, true, false, none,
      some (.value 50)⟩
    Asks s texts a patternText text ∧ ∃ document input stdout entries trace reported,
      Json.read patternText = some document ∧ Json.read text = some input ∧
      document.hasFloat = false ∧ input.hasFloat = false ∧
      run s texts = .ok (.finished 0 stdout "") ∧ Json.read stdout = some (.record entries) ∧
      entries.find? "matched" = some (.bool true) ∧ entries.find? "trace" = some trace ∧
      entries.find? "pattern" = some reported ∧ entries.find? "input" = some input ∧
      ∀ layout layout' : Json.Layout, ∃ patternText' text',
        Json.write layout reported = .ok patternText' ∧ Json.write layout' input = .ok text' ∧
        run s ["--trace", "--max-steps", "50", patternText', text'] = run s texts := by
  intro s patternText text texts a
  have hasks : Asks s texts a patternText text :=
    ⟨by decide +kernel, rfl, rfl, rfl⟩
  obtain ⟨document, hdocument, hdocumentFloats⟩ : ∃ v, Json.read patternText = some v ∧
      v.hasFloat = false := by
    have hany : (Json.read patternText).any (fun v => !v.hasFloat) = true := by decide +kernel
    simpa using (Option.any_eq_true _ _).mp hany
  obtain ⟨input, hinput, hinputFloats⟩ : ∃ v, Json.read text = some v ∧ v.hasFloat = false := by
    have hany : (Json.read text).any (fun v => !v.hasFloat) = true := by decide +kernel
    simpa using (Option.any_eq_true _ _).mp hany
  obtain ⟨stdout, hrun⟩ : ∃ stdout, run s texts = .ok (.finished 0 stdout "") := by
    obtain ⟨result, hresult, hfinished⟩ := exists_of_any (run s texts)
      (fun | .finished exit _ stderr => exit == 0 && stderr == "" | .stopped _ => false)
      (by decide +kernel)
    cases result with
    | finished exit stdout stderr =>
      simp only [Bool.and_eq_true, beq_iff_eq] at hfinished
      obtain ⟨rfl, rfl⟩ := hfinished
      exact ⟨stdout, hresult⟩
    | stopped stop => cases hfinished
  obtain ⟨job, reported, rendered, entries, _, -, -, -, hentries, -, -, hread, hexit, hmatched, -,
    -, htrace, hpattern, hentry, -, -, hagain⟩ :=
    run_feedback hasks hdocument hinput hdocumentFloats hinputFloats hrun (Or.inl rfl)
  rw [hentries] at hread
  have hfound : (a.matched job).outcome.isMatched = true := by
    by_contra hnone
    rw [if_neg hnone] at hexit
    cases hexit
  rw [hfound] at hmatched
  obtain ⟨chunks, -, htold⟩ := job.pattern.exists_records job.input job.limits (some .empty)
  have hwatched : (a.matched job).tracer = _ := htold
  rw [hwatched] at htrace
  exact ⟨hasks, document, input, stdout, entries, _, reported, hdocument, hinput, hdocumentFloats,
    hinputFloats, hrun, hread, hmatched, htrace, hpattern, hentry, hagain⟩

end CommandLine

end Motif
