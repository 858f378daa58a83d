import Motif.Json.Writer
import Motif.Trace.Event

/-!
A tracer records what a search decides. One tracer may watch several matches;
each leaves a block from its start to its end. Events tell positions and lengths
only, never values, so what a search records can always be written. What callers
record themselves is checked, and a record that is refused leaves the log as it
was.
-/

namespace Motif

/-- A decision of a search. Chunks and items are counted from 0. -/
inductive Decision where
  | started
  /-- A fixed chunk takes `width` items from an item on, or fails to. -/
  | fixed (chunk item width : Nat) (ok : Bool)
  /-- A repeated chunk tries to take a number of items from an item on. -/
  | repeated (chunk item take : Nat) (mode : Mode)
  /-- A match ends after a number of attempted chunks. -/
  | ended (ok : Bool) (steps : Nat)
  deriving DecidableEq, Repr

namespace Decision

def eventType : Decision → EventType
  | .started => .matchStart
  | .fixed .. => .chunkFixed
  | .repeated .. => .chunkRepeat
  | .ended .. => .matchEnd

/-- The details of a decision, in the order of their names. -/
def details : Decision → Entries String Value
  | .started => []
  | .fixed chunk item width ok =>
    [("ci", .int chunk), ("ok", .bool ok), ("width", .int width), ("xi", .int item)]
  | .repeated chunk item take mode =>
    [("ci", .int chunk), ("mode", .str mode.name), ("take", .int take), ("xi", .int item)]
  | .ended ok steps => [("ok", .bool ok), ("steps", .int steps)]

/-- The event that a decision becomes at a place of the log. -/
def event (d : Decision) (index : Nat) : Event :=
  ⟨.int 1, d.eventType, index, some d.details⟩

end Decision

structure Tracer where
  log : Array Event

namespace Tracer

def empty : Tracer := ⟨#[]⟩

/-- Forget all events; numbering starts again. -/
def clear (_ : Tracer) : Tracer := empty

def size (t : Tracer) : Nat := t.log.size

def events (t : Tracer) : List Event := t.log.toList

def note (t : Tracer) (d : Decision) : Tracer := ⟨t.log.push (d.event t.log.size)⟩

/-- How an event is recorded: the tracer and the type have places, and details have names of
their own. -/
def recordSignature : Signature :=
  ⟨"MatchTracer.record", [.required "self", .required "typ"], false, true⟩

/-- Record an event of any type with any details, in canonical form. -/
def record (t : Tracer) (type : Value) (details : Entries String Value) :
    Except EventError Tracer := do
  match recordSignature.check ⟨[.null, type], details⟩ with
  | .ok () => pure ()
  | .error error => throw (.argument error)
  let event ← Event.ofValue (.record
    [("type", type), ("i", .int t.log.size), ("meta", .record details)])
  return ⟨t.log.push event⟩

def start (t : Tracer) : Except EventError Tracer :=
  t.record (.str EventType.matchStart.name) []

def fixed (t : Tracer) (chunk item width ok : Value) : Except EventError Tracer :=
  t.record (.str EventType.chunkFixed.name)
    [("ci", chunk), ("xi", item), ("width", width), ("ok", ok)]

def repeated (t : Tracer) (chunk item take mode : Value) : Except EventError Tracer :=
  t.record (.str EventType.chunkRepeat.name)
    [("ci", chunk), ("xi", item), ("take", take), ("mode", mode)]

def finish (t : Tracer) (ok steps : Value) : Except EventError Tracer :=
  t.record (.str EventType.matchEnd.name) [("ok", ok), ("steps", steps)]

end Tracer

inductive TraceError where
  | event (error : EventError)
  | unwritable (error : Json.Unwritable)

def TraceError.message : TraceError → String
  | .event error => error.message
  | .unwritable error => error.message

/-- The lines of a trace: one for each event, in canonical form. -/
def Event.traceLines (events : Value) : Except TraceError (List String) :=
  match Event.traceOfValue events with
  | .error error => .error (.event error)
  | .ok events =>
    match events.mapM fun event => Json.write .compact event.toValue with
    | .error error => .error (.unwritable error)
    | .ok lines => .ok lines

/-- A trace as text: each event on a line of its own, with a line break after each. -/
def Event.traceText (events : Value) : Except TraceError String := do
  return String.join ((← traceLines events).map (· ++ "\n"))

def Tracer.toValue (t : Tracer) : Value := .list (t.events.map Event.toValue)

def Tracer.lines (t : Tracer) : Except TraceError (List String) := Event.traceLines t.toValue

end Motif
