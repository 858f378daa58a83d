import Motif.Proofs.Budget
import Motif.Proofs.Fields

/-!
Matches that are watched. A tracer checks whatever it is told, and it could refuse. It never
refuses a decision of a search, whatever the numbers in it are, so what a search writes down
without asking is what the tracer would have recorded. And nothing comes back from a tracer: a
script is played just as far without one, so the outcome of a match and its number of steps
are the same whoever watches.
-/

namespace Motif

/-! ### Telling a tracer -/

namespace Event

/-- An event whose parts can all be read is one. -/
theorem ofValue_eq_ok {entries given : List (Value × Value)} {version : Value} {type : EventType}
    {index : Nat} {details : Entries String Value} (hversion : readVersion entries = .ok version)
    (htype : readType entries = .ok type) (hindex : readIndex entries = .ok index)
    (hgiven : readDetails entries = .ok (some given)) (hdetails : sortDetails given = .ok details) :
    ofValue (.dict entries) = .ok ⟨version, type, index, some details⟩ := by
  simp only [ofValue, hversion, htype, hindex, hgiven, hdetails, bind, Except.bind, pure,
    Except.pure]

/-- An event without a version, with its type and its index, is told apart by its details only. -/
theorem ofValue_record (type : EventType) (index : Nat) {given details : Entries String Value}
    (hdetails : sortDetails (given.map fun entry => (.str entry.1, entry.2)) = .ok details) :
    ofValue (.record [("type", .str type.name), ("i", .int index), ("meta", .record given)]) =
      .ok ⟨.int 1, type, index, some details⟩ := by
  refine ofValue_eq_ok ?_ ?_ ?_ ?_ hdetails
  · have hone : Value.looselyEqual (.int 1) (.int 1) = true := by
      simp [Value.looselyEqual, Value.place?]
    rw [readVersion, Value.lookUp?_record]
    exact if_pos hone
  · have hname : EventType.ofName? type.name = some type := by cases type <;> rfl
    rw [readType, Value.lookUp?_record]
    simp only [Entries.find?, BEq.rfl, if_true, Option.getD_some, Value.unhashable?, hname]
  · rw [readIndex, Value.lookUp?_record]
    rfl
  · rw [readDetails, Value.lookUp?_record]
    rfl

end Event

namespace Decision

/-- What a tracer is told with a decision, in the order in which it is told. -/
def arguments : Decision → Entries String Value
  | .started => []
  | .fixed chunk item width ok =>
    [("ci", .int chunk), ("xi", .int item), ("width", .int width), ("ok", .bool ok)]
  | .repeated chunk item take mode =>
    [("ci", .int chunk), ("xi", .int item), ("take", .int take), ("mode", .str mode.name)]
  | .ended ok steps => [("ok", .bool ok), ("steps", .int steps)]

/-- Sorted by their names, these are the details of the event. -/
theorem sortDetails_arguments (d : Decision) :
    Event.sortDetails (d.arguments.map fun entry => (.str entry.1, entry.2)) = .ok d.details := by
  cases d with
  | started => rfl
  | fixed chunk item width ok | repeated chunk item take mode | ended ok steps =>
    simp only [arguments, Event.sortDetails, List.map_cons, List.map_nil,
      Value.entriesDeeplySorted, Value.deeplySorted, Value.sortedEntries, Value.textKeyed?,
      Option.map_some, Entries.sorted, List.foldl_cons, List.foldl_nil, Entries.place,
      String.reduceLT, if_true, if_false]
    rfl

end Decision

namespace Tracer

/-- Have a decision recorded as any caller would, by the method for its type. -/
def tell (t : Tracer) : Decision → Except EventError Tracer
  | .started => t.start
  | .fixed chunk item width ok => t.fixed (.int chunk) (.int item) (.int width) (.bool ok)
  | .repeated chunk item take mode =>
    t.repeated (.int chunk) (.int item) (.int take) (.str mode.name)
  | .ended ok steps => t.finish (.bool ok) (.int steps)

theorem tell_eq_record (t : Tracer) (d : Decision) :
    t.tell d = t.record (.str d.eventType.name) d.arguments := by
  cases d <;> rfl

theorem check_arguments (type : Value) (d : Decision) :
    recordSignature.check ⟨[.null, type], d.arguments⟩ = .ok () := by
  cases d <;> rfl

/-- A decision is never refused. -/
theorem tell_eq_ok (t : Tracer) (d : Decision) : t.tell d = .ok (t.note d) := by
  rw [tell_eq_record, record, check_arguments]
  simp only [Event.ofValue_record _ _ d.sortDetails_arguments]
  rfl

theorem foldlM_tell (t : Tracer) (ds : List Decision) :
    ds.foldlM tell t = .ok (ds.foldl note t) := by
  induction ds generalizing t with
  | nil => rfl
  | cons d rest ih =>
    rw [List.foldlM_cons, tell_eq_ok]
    exact ih (t.note d)

end Tracer

/-- Have a decision recorded by the tracer of a search, if there is one. -/
def Search.tell (s : Search) (d : Decision) : Except EventError Search :=
  match s.tracer with
  | none => .ok s
  | some t => (t.tell d).map fun t => { s with tracer := some t }

/-- What a search notes down is what its tracer records. -/
theorem Search.tell_eq_ok (s : Search) (d : Decision) : s.tell d = .ok (s.note d) := by
  obtain ⟨limits, _ | t, steps, depth⟩ := s
  · rfl
  · simp only [tell, t.tell_eq_ok]
    rfl

/-! ### Watching a match -/

namespace Search

/-- The same search without its record. -/
def unwatched (s : Search) : Search := { s with tracer := none }

theorem step_unwatched (s : Search) : s.unwatched.step = (s.step.1, s.step.2.unwatched) := by
  by_cases hlimit : s.limits.maxSteps.value ≠ 0 ∧ s.limits.maxSteps.value < s.steps + 1
  · simp only [step, unwatched, if_pos hlimit]
    exact if_pos hlimit
  · simp only [step, unwatched, if_neg hlimit]
    exact if_neg hlimit

theorem enter_unwatched (s : Search) : s.unwatched.enter = (s.enter.1, s.enter.2.unwatched) := by
  by_cases hlimit : (s.limits.maxDepth.value : Int) < s.depth + 1
  · simp only [enter, unwatched, if_pos hlimit]
    exact if_pos hlimit
  · simp only [enter, unwatched, if_neg hlimit]
    exact if_neg hlimit

theorem proceed_unwatched (state : Option Abort × Search)
    {next : Search → Option Abort × Search}
    (h : ∀ s, next s.unwatched = ((next s).1, (next s).2.unwatched)) :
    proceed (state.1, state.2.unwatched) next =
      ((proceed state next).1, (proceed state next).2.unwatched) := by
  obtain ⟨_ | reason, s⟩ := state
  · exact h s
  · rfl

end Search

/-- Whether a script is watched makes no difference to how far it is played. -/
theorem Script.play_unwatched (script : Script) (s : Search) :
    script.play s.unwatched = ((script.play s).1, (script.play s).2.unwatched) := by
  induction script generalizing s with
  | done => rfl
  | step rest ih =>
    rw [play, Search.step_unwatched]
    exact Search.proceed_unwatched s.step ih
  | note d rest ih => exact ih (s.note d)
  | level body rest ihbody ih =>
    rw [play, Search.enter_unwatched]
    refine Search.proceed_unwatched s.enter fun s => ?_
    simp only [ihbody]
    exact Search.proceed_unwatched ((body.play s).1, (body.play s).2.leave) ih

/-- A match comes to the same outcome whether it is watched or not. -/
theorem Pattern.matchAgainst_unwatched (p : Pattern Value) (v : Value) (limits : Limits)
    (tracer : Option Tracer) :
    (p.matchAgainst v limits tracer).outcome = (p.matchAgainst v limits none).outcome := by
  obtain ⟨script, outcome, -, hreport⟩ := p.exists_script v
  have hplay : (script.play (Search.begun limits none)).1 =
      (script.play (Search.begun limits tracer)).1 := by
    have hnone : Search.begun limits none = (Search.begun limits tracer).unwatched := rfl
    rw [hnone, script.play_unwatched]
  rw [hreport, hreport]
  cases hstop : (script.play (Search.begun limits tracer)).1 with
  | none =>
    rw [hstop] at hplay
    rw [Script.report_of_none hstop, Script.report_of_none hplay]
  | some reason =>
    rw [hstop] at hplay
    rw [Script.report_of_some hstop, Script.report_of_some hplay]

/-- A match takes as many steps whether it is watched or not. -/
theorem Pattern.steps_unwatched (p : Pattern Value) (v : Value) (limits : Limits)
    (tracer : Option Tracer) :
    (p.matchAgainst v limits tracer).steps = (p.matchAgainst v limits none).steps := by
  obtain ⟨script, outcome, -, hreport⟩ := p.exists_script v
  have hnone : Search.begun limits none = (Search.begun limits tracer).unwatched := rfl
  rw [hreport, hreport, Script.report_steps, Script.report_steps, hnone, script.play_unwatched]
  rfl

/-- The shared tracer has no say in the outcome either. -/
theorem Observation.outcome_matchAgainst (o : Observation) (p : Pattern Value) (v : Value)
    (limits : Limits) :
    (o.matchAgainst p v limits).1 = (p.matchAgainst v limits none).outcome := by
  unfold matchAgainst
  split
  · exact p.matchAgainst_unwatched v limits (some o.shared)
  · rfl

/-- Watching does not disturb a match. It comes to the same outcome after the same number of steps
with every tracer and without one, whatever the tracer has recorded before, and with the shared
tracer as well. Nothing that a search may have to tell is refused, whatever state it is in, and
what the tracer holds in the end is what it was told: the start of the match, decisions about
chunks, and its end. -/
theorem Pattern.matchAgainst_undisturbed (p : Pattern Value) (v : Value) (limits : Limits) :
    let unwatched := p.matchAgainst v limits none
    (∀ tracer, (p.matchAgainst v limits tracer).outcome = unwatched.outcome ∧
      (p.matchAgainst v limits tracer).steps = unwatched.steps) ∧
    (∀ o : Observation, (o.matchAgainst p v limits).1 = unwatched.outcome) ∧
    (∀ (s : Search) (d : Decision), s.tell d = .ok (s.note d)) ∧
    ∀ t : Tracer, ∃ chunks after, (∀ d ∈ chunks, d.ofChunk = true) ∧
      List.foldlM Tracer.tell t (.started ::
        (chunks ++ [.ended unwatched.outcome.isMatched unwatched.steps])) = .ok after ∧
      (p.matchAgainst v limits (some t)).tracer = some after ∧
      Observation.matchAgainst ⟨true, t⟩ p v limits = (unwatched.outcome, ⟨true, after⟩) := by
  intro unwatched
  have houtcome := p.matchAgainst_unwatched v limits
  have hsteps := p.steps_unwatched v limits
  refine ⟨fun tracer => ⟨houtcome tracer, hsteps tracer⟩,
    fun o => o.outcome_matchAgainst p v limits, Search.tell_eq_ok, fun t => ?_⟩
  obtain ⟨chunks, hchunks, htracer⟩ := p.exists_records v limits (some t)
  rw [houtcome, hsteps] at htracer
  refine ⟨chunks, _, hchunks, t.foldlM_tell _, htracer, ?_⟩
  simp only [Observation.matchAgainst, if_true, htracer, houtcome]
  rfl

end Motif
