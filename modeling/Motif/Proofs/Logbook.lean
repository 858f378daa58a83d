import Motif.Proofs.History
import Motif.Proofs.Recording

/-!
What the log of a tracer is like, whatever is done to the tracer. An event is brought into canonical
form before it is appended, so what is refused leaves no trace, and the next event gets the place
that it would have had. A match is another matter: one that is given up has recorded its start, and
it records its end all the same. Each operation has one lemma that says what it can come to, and
what the log is like follows from it by induction over the operations.
-/

namespace Motif

theorem exists_of_mapM_eq_error {ε α β : Type} {f : α → Except ε β} {xs : List α} {error : ε}
    (h : xs.mapM f = .error error) : ∃ x ∈ xs, f x = .error error := by
  induction xs with
  | nil => cases h
  | cons x rest ih =>
    rw [List.mapM_cons] at h
    cases hx : f x with
    | error first =>
      rw [hx] at h
      cases h
      exact ⟨x, List.mem_cons_self, hx⟩
    | ok y =>
      rw [hx] at h
      cases hrest : rest.mapM f with
      | error later =>
        rw [hrest] at h
        cases h
        obtain ⟨x', hx', hfails⟩ := ih hrest
        exact ⟨x', List.mem_cons_of_mem x hx', hfails⟩
      | ok ys =>
        rw [hrest] at h
        cases h

theorem Call.exists_block (call : Call) (t : Tracer) :
    ∃ block, (call.report (some t)).Brackets block ∧
      (call.report (some t)).tracer = some (block.foldl Tracer.note t) := by
  obtain ⟨chunks, hchunks, htracer⟩ :=
    call.pattern.exists_records call.value call.limits (some t)
  exact ⟨_, ⟨chunks, hchunks, rfl⟩, htracer⟩

namespace Tracer

/-- Why something that is done to a tracer is cut short: what is to be recorded is refused, or a
match is given up. -/
inductive Failure where
  | refused (error : EventError)
  | aborted (reason : Abort)

/-- What is done to a tracer, step by step. If it is cut short, what was done before stays done. -/
abbrev Action := ExceptT Failure (StateM Tracer) Unit

namespace Action

/-- Whether an action is cut short, and the tracer after it. -/
def perform (action : Action) (t : Tracer) : Except Failure Unit × Tracer :=
  StateT.run (ExceptT.run action) t

/-- Record an event. It gets the next free place, is brought into canonical form and only then
appended. -/
def record (type : Value) (details : Entries String Value) : Action := do
  match recordSignature.check ⟨[.null, type], details⟩ with
  | .error error => throw (.refused (.argument error))
  | .ok () =>
    let t ← get
    match Event.ofValue (Event.told t.size type details) with
    | .error error => throw (.refused error)
    | .ok event => modify fun t => ⟨t.log.push event⟩

/-- Make a match under the eyes of the tracer. -/
def watch (call : Call) : Action := do
  let report := call.report (some (← get))
  set (report.tracer.getD (← get))
  match report.outcome with
  | .aborted reason => throw (.aborted reason)
  | .matched _ | .noMatch => pure ()

variable (t : Tracer)

theorem perform_get_bind (next : Tracer → Action) :
    perform (get >>= next) t = (next t).perform t := rfl

/-- Step by step, an event is recorded as it is at once. -/
theorem perform_record (type : Value) (details : Entries String Value) :
    (record type details).perform t =
      match t.record type details with
      | .ok after => (.ok (), after)
      | .error error => (.error (.refused error), t) := by
  unfold record Tracer.record
  cases recordSignature.check ⟨[.null, type], details⟩ with
  | error error => rfl
  | ok =>
    dsimp only
    rw [perform_get_bind]
    simp only [Event.told, size]
    cases Event.ofValue (.record
      [("type", type), ("i", .int t.log.size), ("meta", .record details)]) <;> rfl

theorem perform_watch (call : Call) :
    (watch call).perform t =
      (match (call.report (some t)).outcome with
        | .aborted reason => .error (.aborted reason)
        | .matched _ | .noMatch => .ok (),
      (call.report (some t)).tracer.getD t) := by
  unfold watch
  rw [perform_get_bind]
  dsimp only
  cases (call.report (some t)).outcome <;> rfl

end Action

/-- A method of a tracer that records one event. -/
inductive Method where
  | record (type : Value) (details : Entries String Value)
  | start
  | fixed (chunk item width ok : Value)
  | repeated (chunk item take mode : Value)
  | finish (ok steps : Value)

namespace Method

def type : Method → Value
  | .record type _ => type
  | .start => .str EventType.matchStart.name
  | .fixed .. => .str EventType.chunkFixed.name
  | .repeated .. => .str EventType.chunkRepeat.name
  | .finish .. => .str EventType.matchEnd.name

def details : Method → Entries String Value
  | .record _ details => details
  | .start => []
  | .fixed chunk item width ok => [("ci", chunk), ("xi", item), ("width", width), ("ok", ok)]
  | .repeated chunk item take mode => [("ci", chunk), ("xi", item), ("take", take), ("mode", mode)]
  | .finish ok steps => [("ok", ok), ("steps", steps)]

theorem record_eq (method : Method) (t : Tracer) :
    t.record method.type method.details =
      match method with
      | .record type details => t.record type details
      | .start => t.start
      | .fixed chunk item width ok => t.fixed chunk item width ok
      | .repeated chunk item take mode => t.repeated chunk item take mode
      | .finish ok steps => t.finish ok steps := by
  cases method <;> rfl

end Method

/-- What may be done to a tracer. -/
inductive Operation where
  | tell (method : Method)
  | clear
  | watch (call : Call)

namespace Operation

def action : Operation → Action
  | .tell method => Action.record method.type method.details
  | .clear => modify Tracer.clear
  | .watch call => Action.watch call

def perform (op : Operation) (t : Tracer) : Except Failure Unit × Tracer := op.action.perform t

/-- The tracer after some operations, whether any of them are cut short or not. -/
def performAll (ops : List Operation) (t : Tracer) : Tracer :=
  ops.foldl (fun t op => (op.perform t).2) t

/-- What an operation may tell of an event, if it records any. -/
def Tells : Operation → Value → Entries String Value → Prop
  | .tell method, type, details => type = method.type ∧ details = method.details
  | .clear, _, _ => False
  | .watch _, type, details =>
    ∃ d : Decision, type = .str d.eventType.name ∧ details = d.arguments

end Operation

/-- What an operation can come to. -/
inductive Performs : Operation → Tracer → Except Failure Unit → Tracer → Prop
  | recorded {method t e}
    (h : Event.ofValue (Event.told t.size method.type method.details) = .ok e) :
    Performs (.tell method) t (.ok ()) ⟨t.log.push e⟩
  | refused {method t error} : Performs (.tell method) t (.error (.refused error)) t
  | cleared {t} : Performs .clear t (.ok ()) .empty
  | watched {call t block} (h : (call.report (some t)).Brackets block) :
    Performs (.watch call) t (.ok ()) (block.foldl note t)
  | abandoned {call t block reason} (houtcome : (call.report (some t)).outcome = .aborted reason)
    (h : (call.report (some t)).Brackets block) :
    Performs (.watch call) t (.error (.aborted reason)) (block.foldl note t)

theorem exists_of_record {t after : Tracer} {type : Value} {details : Entries String Value}
    (h : t.record type details = .ok after) :
    ∃ e, Event.ofValue (Event.told t.size type details) = .ok e ∧ after = ⟨t.log.push e⟩ := by
  unfold record at h
  split at h
  · obtain ⟨e, he, h⟩ := exists_of_bind_eq_ok h
    cases h
    exact ⟨e, he, rfl⟩
  · cases h

theorem performs (op : Operation) (t : Tracer) :
    Performs op t (op.perform t).1 (op.perform t).2 := by
  cases op with
  | tell method =>
    simp only [Operation.perform, Operation.action, Action.perform_record]
    cases hrecord : t.record method.type method.details with
    | error error => exact .refused
    | ok after =>
      obtain ⟨e, he, rfl⟩ := exists_of_record hrecord
      exact .recorded he
  | clear => exact .cleared
  | watch call =>
    obtain ⟨block, hbrackets, htracer⟩ := call.exists_block t
    simp only [Operation.perform, Operation.action, Action.perform_watch]
    rw [htracer, Option.getD_some]
    cases houtcome : (call.report (some t)).outcome with
    | aborted reason => exact .abandoned houtcome hbrackets
    | matched captures => exact .watched hbrackets
    | noMatch => exact .watched hbrackets

/-! ### The log -/

theorem length_events (t : Tracer) : t.events.length = t.size := Array.length_toList

/-- Each event of the log came of something that was told of it at its place. -/
def Holds (tells : Value → Entries String Value → Prop) (t : Tracer) : Prop :=
  ∀ k e, t.events[k]? = some e → ∃ type details, tells type details ∧
    Event.ofValue (Event.told k type details) = .ok e

section

variable {tells : Value → Entries String Value → Prop} {t : Tracer}

theorem holds_empty : Tracer.empty.Holds tells := fun _ _ h => by cases h

theorem Holds.push (h : t.Holds tells) {type : Value} {details : Entries String Value} {e : Event}
    (htells : tells type details) (he : Event.ofValue (Event.told t.size type details) = .ok e) :
    Tracer.Holds tells ⟨t.log.push e⟩ := by
  intro k other hother
  have hevents : Tracer.events ⟨t.log.push e⟩ = t.events ++ [e] := Array.toList_push
  rw [hevents] at hother
  rcases Nat.lt_trichotomy k t.events.length with hlt | rfl | hgt
  · rw [List.getElem?_append_left hlt] at hother
    exact h k other hother
  · rw [List.getElem?_append_right (Nat.le_refl _), Nat.sub_self] at hother
    cases hother
    rw [length_events]
    exact ⟨type, details, htells, he⟩
  · have hbeyond : (t.events ++ [e]).length ≤ k := by
      rw [List.length_append, List.length_singleton]
      exact hgt
    rw [List.getElem?_eq_none hbeyond] at hother
    cases hother

theorem Holds.foldl_note (h : t.Holds tells) (ds : List Decision)
    (htells : ∀ d ∈ ds, tells (.str d.eventType.name) d.arguments) :
    (ds.foldl note t).Holds tells := by
  induction ds generalizing t with
  | nil => exact h
  | cons d rest ih =>
    obtain ⟨hd, hrest⟩ := List.forall_mem_cons.mp htells
    exact ih (h.push hd (Event.ofValue_told_decision d t.size)) hrest

/-- Whatever comes of an operation, the log holds what was told. -/
theorem Performs.holds {op : Operation} {result : Except Failure Unit} {after : Tracer}
    (hperforms : Performs op t result after) (h : t.Holds tells)
    (htells : ∀ type details, op.Tells type details → tells type details) :
    after.Holds tells := by
  cases hperforms with
  | recorded he => exact h.push (htells _ _ ⟨rfl, rfl⟩) he
  | refused => exact h
  | cleared => exact holds_empty
  | watched | abandoned => exact h.foldl_note _ fun d _ => htells _ _ ⟨d, rfl, rfl⟩

theorem Holds.performAll (h : t.Holds tells) {ops : List Operation}
    (htells : ∀ op ∈ ops, ∀ type details, op.Tells type details → tells type details) :
    (Operation.performAll ops t).Holds tells := by
  induction ops generalizing t with
  | nil => exact h
  | cons op rest ih =>
    obtain ⟨hop, hrest⟩ := List.forall_mem_cons.mp htells
    exact ih ((performs op t).holds h hop) hrest

theorem Holds.of_mem (h : t.Holds tells) {e : Event} (he : e ∈ t.events) :
    ∃ k type details, t.events[k]? = some e ∧ tells type details ∧
      Event.ofValue (Event.told k type details) = .ok e := by
  obtain ⟨k, hk⟩ := List.mem_iff_getElem?.mp he
  obtain ⟨type, details, htells, hevent⟩ := h k e hk
  exact ⟨k, type, details, hk, htells, hevent⟩

theorem Holds.numbered (h : t.Holds tells) : t.Numbered := by
  refine List.ext_getElem (by rw [List.length_map, length_events, List.length_range]) ?_
  intro k hk _
  rw [List.length_map] at hk
  obtain ⟨type, details, -, hevent⟩ := h k _ (List.getElem?_eq_getElem hk)
  rw [List.getElem_map, List.getElem_range, (Event.of_told hevent).2.2.1]

/-- What a tracer holds can be read back, event by event. -/
theorem Holds.exists_trace (h : t.Holds tells) :
    ∃ events, Event.traceOfValue t.toValue = .ok events ∧
      List.Forall₂ (fun e again => Event.ofValue e.toValue = .ok again) t.events events := by
  have hevents : ∀ e ∈ t.events, ∃ again, Event.ofValue e.toValue = .ok again ∧
      again.Settled := by
    intro e he
    obtain ⟨k, type, details, -, -, hevent⟩ := h.of_mem he
    obtain ⟨again, hagain, hsettled, -⟩ := Event.exists_settled hevent
    exact ⟨again, hagain, hsettled⟩
  obtain ⟨events, hmap, -⟩ := exists_mapM_eq_ok hevents
  have hall := mapM_eq_ok_iff.mp hmap
  have hindices : t.events.map (·.index) = events.map (·.index) := by
    rw [← List.forall₂_eq_eq_eq, List.forall₂_map_left_iff, List.forall₂_map_right_iff]
    exact hall.imp fun e again hagain => (Event.index_eq_of_ofValue_toValue hagain).symm
  refine ⟨events, Event.ofValues_eq_ok_iff.mpr ⟨?_, ?_⟩, hall⟩
  · rw [List.mapM_map]
    exact hmap
  · rw [← hindices, h.numbered, ← length_events, hall.length_eq]

/-- A log that cannot be written out holds an event of which a value without a form as data was
told. -/
theorem Holds.unwritable (h : t.Holds tells) {error : TraceError}
    (herror : Event.traceText t.toValue = .error error) :
    ∃ reason, error = .unwritable reason ∧ ∃ k e type details, t.events[k]? = some e ∧
      tells type details ∧ Event.ofValue (Event.told k type details) = .ok e ∧
      ∃ entry ∈ details, entry.2.hasDataForm = false := by
  obtain ⟨events, htrace, hall⟩ := h.exists_trace
  rw [Event.traceText, Event.traceLines, htrace] at herror
  dsimp only at herror
  cases hlines : events.mapM fun e => Json.write .compact e.toValue with
  | ok lines =>
    rw [hlines] at herror
    cases herror
  | error reason =>
    rw [hlines] at herror
    cases herror
    obtain ⟨again, hagain, hfails⟩ := exists_of_mapM_eq_error hlines
    obtain ⟨e, he, hread⟩ := exists_of_mem_mapM (mapM_eq_ok_iff.mpr hall) hagain
    obtain ⟨k, type, details, hk, htells, hevent⟩ := h.of_mem he
    refine ⟨reason, rfl, k, e, type, details, hk, htells, hevent, ?_⟩
    by_contra hnone
    -- If every value had a form as data, then the line would have been written.
    have hdata : ∀ entry ∈ details, entry.2.hasDataForm = true := by
      intro entry hentry
      by_contra hform
      exact hnone ⟨entry, hentry, Bool.eq_false_iff.mpr hform⟩
    obtain ⟨line, hline⟩ := Event.exists_line hevent hdata hread
    rw [hfails] at hline
    cases hline

end

/-- An operation that is cut short changes nothing, unless it is a match: a match that is given up
leaves its block like any other. -/
theorem perform_cut_short {op : Operation} {t : Tracer} {failure : Failure}
    (h : (op.perform t).1 = .error failure) :
    (∃ method error, op = .tell method ∧ failure = .refused error ∧ (op.perform t).2 = t) ∨
      ∃ call reason block, op = .watch call ∧ failure = .aborted reason ∧
        (call.report (some t)).outcome = .aborted reason ∧
        (call.report (some t)).Brackets block ∧
        (op.perform t).2.events = t.events ++ numbered t.size block := by
  have hperforms := performs op t
  rw [h] at hperforms
  generalize (op.perform t).2 = after at hperforms ⊢
  cases hperforms with
  | refused => exact .inl ⟨_, _, rfl, rfl, rfl⟩
  | @abandoned call _ block reason houtcome hbrackets =>
    exact .inr ⟨call, reason, block, rfl, rfl, houtcome, hbrackets, t.events_foldl_note block⟩

/-- An operation that is not cut short adds one event, or a block, or it forgets all events. -/
theorem perform_complete {op : Operation} {t : Tracer} (h : (op.perform t).1 = .ok ()) :
    (∃ method e, op = .tell method ∧ (op.perform t).2.events = t.events ++ [e] ∧
        e.index = t.size) ∨
      (op = .clear ∧ (op.perform t).2.events = []) ∨
      ∃ call block, op = .watch call ∧ (call.report (some t)).Brackets block ∧
        (op.perform t).2.events = t.events ++ numbered t.size block := by
  have hperforms := performs op t
  rw [h] at hperforms
  generalize (op.perform t).2 = after at hperforms ⊢
  cases hperforms with
  | @recorded method _ e he =>
    obtain ⟨-, -, hindex, -⟩ := Event.of_told he
    exact .inl ⟨method, e, rfl, Array.toList_push, hindex⟩
  | cleared => exact .inr (.inl ⟨rfl, rfl⟩)
  | @watched call _ block hbrackets =>
    exact .inr (.inr ⟨call, block, rfl, hbrackets, t.events_foldl_note block⟩)

/-- The log of a tracer stays in order under any use. After any operations, each event bears its
place, has a known type and has its keys in the fixed order. What is cut short changes nothing,
unless it is a match, which leaves its whole block all the same; and the next event gets the next
place, so that no number is left out. The log is always accepted as a trace, and if it cannot be
written out, then because of a value without a form as data that some operation had recorded in it.
-/
theorem performAll_in_order (ops : List Operation) :
    let t := Operation.performAll ops .empty
    (∀ (k : Nat) (e : Event), t.events[k]? = some e →
      e.toValue = .record e.fields ∧ e.fields.keys = ["v", "type", "i", "meta"] ∧
      e.fields.find? "v" = some (.int 1) ∧ e.fields.find? "type" = some (.str e.type.name) ∧
      e.fields.find? "i" = some (.int k)) ∧
    (∀ (op : Operation) (failure : Failure), (op.perform t).1 = .error failure →
      (∃ method error, op = .tell method ∧ failure = .refused error ∧ (op.perform t).2 = t) ∨
      ∃ call reason block, op = .watch call ∧ failure = .aborted reason ∧
        (call.report (some t)).outcome = .aborted reason ∧
        (call.report (some t)).Brackets block ∧
        (op.perform t).2.events = t.events ++ numbered t.size block) ∧
    (∀ op : Operation, (op.perform t).1 = .ok () →
      (∃ method e, op = .tell method ∧ (op.perform t).2.events = t.events ++ [e] ∧
        e.index = t.size) ∨
      (op = .clear ∧ (op.perform t).2.events = []) ∨
      ∃ call block, op = .watch call ∧ (call.report (some t)).Brackets block ∧
        (op.perform t).2.events = t.events ++ numbered t.size block) ∧
    (∃ events, Event.traceOfValue t.toValue = .ok events) ∧
    ∀ error, Event.traceText t.toValue = .error error →
      ∃ reason, error = .unwritable reason ∧ ∃ k e method, t.events[k]? = some e ∧
        .tell method ∈ ops ∧ Event.ofValue (Event.told k method.type method.details) = .ok e ∧
        ∃ entry ∈ method.details, entry.2.hasDataForm = false := by
  intro t
  have hholds : t.Holds fun type details => ∃ op ∈ ops, op.Tells type details :=
    holds_empty.performAll fun op hop type details htells => ⟨op, hop, htells⟩
  obtain ⟨events, htrace, -⟩ := hholds.exists_trace
  refine ⟨fun k e hk => ?_, fun _ _ => perform_cut_short, fun _ => perform_complete,
    ⟨events, htrace⟩, fun error herror => ?_⟩
  · obtain ⟨type, details, -, hevent⟩ := hholds k e hk
    obtain ⟨-, hversion, hindex, sorted, hsome, -⟩ := Event.of_told hevent
    obtain ⟨version, known, index, given⟩ := e
    cases hversion
    cases hindex
    cases hsome
    exact ⟨rfl, rfl, rfl, rfl, rfl⟩
  · obtain ⟨reason, rfl, k, e, type, details, hk, ⟨op, hop, htells⟩, hevent, entry, hentry,
      hform⟩ := hholds.unwritable herror
    refine ⟨reason, rfl, k, e, ?_⟩
    cases op with
    | tell method =>
      obtain ⟨rfl, rfl⟩ := htells
      exact ⟨method, hk, hop, hevent, entry, hentry, hform⟩
    | clear => cases htells
    | watch call =>
      obtain ⟨d, rfl, rfl⟩ := htells
      rw [d.hasDataForm_of_mem_arguments hentry] at hform
      cases hform

/-- A match that is given up on the second level leaves its start and its end in an empty log. -/
theorem perform_watch_too_deep :
    let call : Call := ⟨.sequence [.sequence []], .list [.list []],
      ⟨.number 1, .number 0, by decide⟩⟩
    ((Operation.watch call).perform .empty).1 = .error (.aborted (.maxDepth (.number 1))) ∧
      ((Operation.watch call).perform .empty).2.events ≠ Tracer.empty.events := by
  intro call
  refine ⟨rfl, ?_⟩
  have hlength : ((Operation.watch call).perform .empty).2.events.length = 2 := rfl
  intro hsame
  rw [hsame] at hlength
  cases hlength

end Tracer

end Motif
