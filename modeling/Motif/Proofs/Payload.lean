import Motif.CommandLine.Run
import Motif.Proofs.Descent
import Motif.Proofs.Labels
import Motif.Proofs.Literals
import Motif.Proofs.Watching

/-!
What a report is made of. A match of a spelled value captures spelled values, since what it captures
stands in that value or is a slice of it. What a tracer records are the decisions of the search,
and a pattern of the eight kinds can be rendered. So all parts of a report on a decoded pattern can
be written.
-/

namespace Motif

/-! ### Captures -/

section

variable {floats : Bool} {candidate : Value}

theorem spelled_of_occurs (h : candidate.Spelled floats) {level : Nat} {v : Value}
    (hoccurs : candidate.Occurs level v) : v.Spelled floats := by
  induction hoccurs with
  | whole => exact h
  | item _ hitem ih =>
    cases ih with
    | list items hitems => exact hitems _ hitem

/-- Slices of lists are lists of some of the same items. -/
theorem spelled_of_holds (h : candidate.Spelled floats) {spot : Spot} {v : Value}
    (hholds : spot.Holds candidate v) : v.Spelled floats := by
  cases hholds with
  | value hoccurs => exact spelled_of_occurs h hoccurs
  | slice hoccurs start length =>
    cases spelled_of_occurs h hoccurs with
    | list items hitems =>
      exact .list _ fun item hitem =>
        hitems item (List.mem_of_mem_drop (List.mem_of_mem_take hitem))

/-- What a match captures is spelled like the candidate. -/
theorem Pattern.spelled_captures {p : Pattern Value} {limits : Limits} {tracer : Option Tracer}
    {captures : Captures} (h : candidate.Spelled floats)
    (houtcome : (p.matchAgainst candidate limits tracer).outcome = .matched captures) :
    (Value.record captures).Spelled floats := by
  refine .record captures ?_ fun entry hentry => ?_
  · obtain ⟨made, -, rfl⟩ := exists_yields_of_matched houtcome
    exact Entries.nodup_keys_overlay (by simp [Entries.keys]) made
  · obtain ⟨visit, inner, hseen, -, hvalue⟩ := applied_of_captured houtcome hentry
    rw [← hvalue]
    exact spelled_of_holds h (charged_of_applied hseen).holds

end

/-! ### Traces -/

theorem Decision.spelled_event (floats : Bool) (d : Decision) (index : Nat) :
    (d.event index).toValue.Spelled floats := by
  have hdetails : (Value.record d.details).Spelled floats := by
    cases d with
    | started => exact .record _ .nil (by simp [details])
    | fixed chunk item width ok =>
      refine .record _ (by simp [details, Entries.keys]) ?_
      simp [details, Value.Spelled.int, Value.Spelled.bool]
    | repeated chunk item take mode =>
      refine .record _ (by simp [details, Entries.keys]) ?_
      simp [details, Value.Spelled.int, Value.Spelled.str]
    | ended ok steps =>
      refine .record _ (by simp [details, Entries.keys]) ?_
      simp [details, Value.Spelled.int, Value.Spelled.bool]
  refine .record _ (by simp [event, Entries.keys]) ?_
  simp [event, Value.Spelled.int, Value.Spelled.str, hdetails]

namespace Tracer

/-- All events are decisions of searches. -/
def Recorded (t : Tracer) : Prop :=
  ∀ e ∈ t.events, ∃ (d : Decision) (index : Nat), e = d.event index

theorem Recorded.note {t : Tracer} (h : t.Recorded) (d : Decision) : (t.note d).Recorded := by
  intro e he
  simp only [events, Tracer.note, Array.toList_push, List.mem_append, List.mem_singleton] at he
  rcases he with he | rfl
  · exact h e he
  · exact ⟨d, _, rfl⟩

theorem recorded_told {tracer : Option Tracer} (h : ∀ t, tracer = some t → t.Recorded)
    {ds : List Decision} {t : Tracer} (htold : told tracer ds = some t) : t.Recorded := by
  induction ds generalizing tracer with
  | nil => exact h t (by rw [← htold, told_nil])
  | cons d rest ih =>
    rw [told_cons] at htold
    refine ih (fun t' ht' => ?_) htold
    obtain ⟨before, hbefore, rfl⟩ := Option.map_eq_some_iff.mp ht'
    exact (h before hbefore).note d

theorem Recorded.spelled {t : Tracer} (h : t.Recorded) (floats : Bool) :
    t.toValue.Spelled floats := by
  refine .list _ fun v hv => ?_
  obtain ⟨e, he, rfl⟩ := List.mem_map.mp hv
  obtain ⟨d, index, rfl⟩ := h e he
  exact d.spelled_event floats index

end Tracer

/-- A match adds decisions to a trace and nothing else. -/
theorem Pattern.recorded_matchAgainst {p : Pattern Value} {v : Value} {limits : Limits}
    {tracer : Option Tracer} (h : ∀ t, tracer = some t → t.Recorded) {t : Tracer}
    (htracer : (p.matchAgainst v limits tracer).tracer = some t) : t.Recorded := by
  obtain ⟨chunks, -, hrecord⟩ := p.exists_records v limits tracer
  exact Tracer.recorded_told h (hrecord.symm.trans htracer)

/-! ### Rendering -/

namespace Pattern

mutual

/-- A pattern of the eight kinds can be rendered. -/
theorem exists_render (p : Pattern Value) (hregular : p.isRegular = true) :
    ∃ text, p.render = .ok text := by
  cases p with
  | wildcard | literal value | typeCheck kind => exact ⟨_, rfl⟩
  | alternation parts =>
    obtain ⟨texts, htexts⟩ := exists_renderAll parts hregular
    refine ⟨"(" ++ String.intercalate "|" texts ++ ")", ?_⟩
    rw [render, htexts]
    rfl
  | sequence parts =>
    obtain ⟨texts, htexts⟩ := exists_renderAll parts hregular
    refine ⟨"[" ++ String.intercalate ", " texts ++ "]", ?_⟩
    rw [render, htexts]
    rfl
  | repeated inner mode bounds =>
    obtain ⟨text, htext⟩ := exists_render inner hregular
    refine ⟨text ++ boundsSuffix bounds ++ modeSuffix mode, ?_⟩
    rw [render, htext]
    rfl
  | arrayOf inner bounds =>
    obtain ⟨text, htext⟩ := exists_render inner hregular
    refine ⟨"[" ++ (text ++ boundsSuffix bounds ++ "]"), ?_⟩
    rw [render, htext]
    rfl
  | named label inner =>
    obtain ⟨text, htext⟩ := exists_render inner hregular
    refine ⟨"(?<" ++ label ++ ">" ++ text ++ ")", ?_⟩
    rw [render, htext]
    rfl
  | unspecified tag | misfit flaw value | choiceFrom source parts => cases hregular
termination_by structural p

theorem exists_renderAll (ps : List (Pattern Value)) (hregular : areRegular ps = true) :
    ∃ texts, renderAll ps = .ok texts := by
  cases ps with
  | nil => exact ⟨[], rfl⟩
  | cons p rest =>
    obtain ⟨hp, hrest⟩ := Bool.and_eq_true_iff.mp hregular
    obtain ⟨text, htext⟩ := exists_render p hp
    obtain ⟨texts, htexts⟩ := exists_renderAll rest hrest
    refine ⟨text :: texts, ?_⟩
    rw [renderAll, htext, htexts]
    rfl
termination_by structural ps

end

end Pattern

/-! ### Reports -/

namespace CommandLine

variable {floats : Bool}

theorem spelled_bindings {job : Job} {tracer : Option Tracer}
    (hinput : job.input.Spelled floats) :
    (bindings (job.pattern.matchAgainst job.input job.limits tracer).outcome).Spelled floats := by
  cases houtcome : (job.pattern.matchAgainst job.input job.limits tracer).outcome with
  | matched captures =>
    have hcaptures := Pattern.spelled_captures hinput houtcome
    rw [bindings, hcaptures.asData]
    exact hcaptures
  | noMatch => exact .null
  | aborted reason => exact .null

theorem spelled_report {job : Job} {r : Report} {document : Value} {rendered : String}
    (hdocument : document.Spelled floats) (hinput : job.input.Spelled floats)
    (hbindings : (bindings r.outcome).Spelled floats)
    (htracer : ∀ t, r.tracer = some t → t.Recorded) :
    (report job r document rendered).Spelled floats := by
  have hwarnings : (Value.list (warnings r.outcome)).Spelled floats := by
    refine .list _ ?_
    cases r.outcome <;> simp [warnings, Value.Spelled.str]
  unfold report
  cases h : r.tracer with
  | none =>
    refine .record _ (by simp [Entries.keys]) ?_
    simp [Value.Spelled.str, Value.Spelled.bool, hdocument, hinput, hbindings, hwarnings]
  | some t =>
    have htrace := (htracer t h).spelled floats
    refine .record _ (by simp [Entries.keys]) ?_
    simp [Value.Spelled.str, Value.Spelled.bool, hdocument, hinput, hbindings, hwarnings, htrace]

theorem recorded_matched {a : Arguments} {job : Job} {t : Tracer}
    (h : (a.matched job).tracer = some t) : t.Recorded := by
  refine Pattern.recorded_matchAgainst (fun t' ht' => ?_) h
  split at ht'
  · cases ht'
    exact fun e he => by cases he
  · cases ht'

/-- What is known of a job that was performed. -/
theorem exists_of_perform {a : Arguments} {job : Job} {exit : Nat} {stdout stderr : String}
    (h : perform a job = .ok (.finished exit stdout stderr)) :
    ∃ document rendered written, job.pattern.encode = .ok document ∧
      job.pattern.render = .ok rendered ∧
      Json.write a.layout (report job (a.matched job) document rendered) = .ok written ∧
      exit = (if (a.matched job).outcome.isMatched then 0 else 1) ∧ stdout = written ++ "\n" := by
  unfold perform at h
  cases hdocument : job.pattern.encode with
  | error error =>
    rw [hdocument] at h
    cases h
  | ok document =>
    cases hrendered : job.pattern.render with
    | error error =>
      rw [hdocument, hrendered] at h
      cases h
    | ok rendered =>
      simp only [hdocument, hrendered, bind, Except.bind] at h
      split at h
      · next written hwritten =>
        cases h
        exact ⟨document, rendered, written, rfl, rfl, hwritten, rfl, rfl⟩
      · cases h

/-- A job whose literals are all plain data is performed: the report can be written, and it is
spelled like the pattern's literals and the input. -/
theorem exists_perform {a : Arguments} {job : Job} (hregular : job.pattern.isRegular = true)
    (hliterals : ∀ w ∈ job.pattern.literals, w.Spelled floats)
    (hinput : job.input.Spelled floats) (hdata : ∀ w ∈ job.pattern.literals, w.isData = true) :
    ∃ document rendered written, job.pattern.encode = .ok document ∧
      job.pattern.render = .ok rendered ∧
      (report job (a.matched job) document rendered).Spelled floats ∧
      Json.write a.layout (report job (a.matched job) document rendered) = .ok written ∧
      perform a job = .ok (.finished (if (a.matched job).outcome.isMatched then 0 else 1)
        (written ++ "\n") "") := by
  obtain ⟨document, hdocument⟩ : ∃ document, job.pattern.encode = .ok document := by
    rcases job.pattern.settled_encode hregular with ⟨hencode, -⟩ | ⟨w, hw, hnone, -⟩
    · exact hencode
    · rw [hdata w hw] at hnone
      cases hnone
  obtain ⟨rendered, hrendered⟩ := Pattern.exists_render job.pattern hregular
  have hreport : (report job (a.matched job) document rendered).Spelled floats :=
    spelled_report (Pattern.spelled_of_encode hliterals hdocument) hinput
      (spelled_bindings hinput) fun t ht => recorded_matched ht
  obtain ⟨written, hwritten⟩ : ∃ written, Json.write a.layout
      (report job (a.matched job) document rendered) = .ok written := Json.exists_write hreport
  refine ⟨document, rendered, written, hdocument, hrendered, hreport, hwritten, ?_⟩
  simp only [perform, hdocument, hrendered, bind, Except.bind, hwritten]

end CommandLine

end Motif
