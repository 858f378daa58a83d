import Motif.Signature
import Motif.Sorting
import Motif.Value.Hash
import Motif.Value.Order
import Motif.Value.Text

/-!
Trace events in canonical form. An event has a version, a type, an index and
details. Canonical events drop every other key, have their keys in that order,
and have the keys of all mappings in their details sorted and written as text.
-/

namespace Motif

inductive EventType where
  | matchStart
  | chunkFixed
  | chunkRepeat
  | matchEnd
  deriving DecidableEq, Repr

namespace EventType

def name : EventType → String
  | .matchStart => "match.start"
  | .chunkFixed => "chunk.fixed"
  | .chunkRepeat => "chunk.repeat"
  | .matchEnd => "match.end"

def ofName? (name : String) : Option EventType :=
  if name = "match.start" then some .matchStart
  else if name = "chunk.fixed" then some .chunkFixed
  else if name = "chunk.repeat" then some .chunkRepeat
  else if name = "match.end" then some .matchEnd
  else none

end EventType

/-- A canonical event. The version is some value that equals 1. -/
structure Event where
  version : Value
  type : EventType
  index : Nat
  details : Option (Entries String Value)

namespace Event

def toValue (e : Event) : Value :=
  .record ([("v", e.version), ("type", .str e.type.name), ("i", .int e.index)] ++
    match e.details with
    | none => []
    | some details => [("meta", .record details)])

end Event

/-- Why a value is no event, or a list of events no trace. -/
inductive EventError where
  | notMapping (given : Value)
  | version (given : Value)
  | unhashableType (error : Value.Unhashable)
  | type (given : Value)
  | index
  | details
  | incomparableKeys (error : Incomparable)
  | discontiguous (indices : List Nat)
  | notIterable (given : Value)
  /-- Details are named like something else that is recorded. -/
  | argument (error : ArgumentError)

namespace EventError

def message : EventError → String
  | .notMapping given => "event must be a mapping, got <class '" ++ given.className ++ "'>"
  | .version given => "event.v must be 1, got " ++ given.text
  | .unhashableType error => error.message
  | .type given =>
    "event.type must be one of ['chunk.fixed', 'chunk.repeat', 'match.end', 'match.start'], got " ++
      given.text
  | .index => "event.i must be an integer >= 0"
  | .details => "event.meta must be an object/dict when provided"
  | .incomparableKeys error => error.message
  | .discontiguous indices =>
    "event.i must be contiguous 0..n-1 in-order; got " ++
      (Value.list (indices.map fun (i : Nat) => .int i)).text
  | .notIterable given => "'" ++ given.typeName ++ "' object is not iterable"
  | .argument error => error.message

end EventError

namespace Value

/-- A key as text: text is kept, any other key is written out. -/
def keyText : Value → String
  | .str s => s
  | key => key.text

/-- Entries by the text of their keys, if all keys are texts. -/
def textKeyed? {β : Type} : List (Value × β) → Option (Entries String β)
  | [] => some []
  | (.str s, v) :: rest => (textKeyed? rest).map ((s, v) :: ·)
  | _ => none

/-- Sort entries by key and write the keys as text; keys of one text are one key. Texts can
always be compared, so any way of sorting them does. A value that failed to be sorted fails
here, after the keys and in their order. -/
def sortedEntries (entries : List (Value × Except Incomparable Value)) :
    Except Incomparable (Entries String Value) := do
  let sorted ← match textKeyed? entries with
    | some texts => .ok (texts.sorted.map fun entry => (.str entry.1, entry.2))
    | none => Sorting.sort (fun a b => before a.1 b.1) entries
  let values ← sorted.mapM fun entry => entry.2.map fun value => (entry.1.keyText, value)
  return Entries.ofPairs values

/-- The results of a list of computations, up to the first error. -/
def inOrder (results : List (Except Incomparable Value)) : Except Incomparable (List Value) :=
  results.mapM id

mutual

/-- A value with all its mappings sorted and all its tuples turned into lists. -/
def deeplySorted : Value → Except Incomparable Value
  | .dict entries => (sortedEntries (entriesDeeplySorted entries)).map Value.record
  | .seq _ items => (inOrder (allDeeplySorted items)).map Value.list
  | .null => .ok .null
  | .bool b => .ok (.bool b)
  | .int n => .ok (.int n)
  | .float x => .ok (.float x)
  | .str s => .ok (.str s)
  | .bytes bs => .ok (.bytes bs)
  | .object name => .ok (.object name)
  | .pattern p => .ok (.pattern p)
  | .marker m => .ok (.marker m)
termination_by structural v => v

def allDeeplySorted : List Value → List (Except Incomparable Value)
  | [] => []
  | v :: rest => deeplySorted v :: allDeeplySorted rest
termination_by structural vs => vs

def entriesDeeplySorted :
    List (Value × Value) → List (Value × Except Incomparable Value)
  | [] => []
  | (k, v) :: rest => (k, deeplySorted v) :: entriesDeeplySorted rest
termination_by structural entries => entries

end

end Value

namespace Event

/-- The version of an event; an event without one has version 1. -/
def readVersion (entries : List (Value × Value)) : Except EventError Value :=
  let version := (Value.lookUp? (.str "v") entries).getD (.int 1)
  if version == .int 1 then .ok version else .error (.version version)

def readType (entries : List (Value × Value)) : Except EventError EventType :=
  let given := (Value.lookUp? (.str "type") entries).getD .null
  match given.unhashable? with
  | some typeName => .error (.unhashableType ⟨typeName⟩)
  | none =>
    match given with
    | .str name =>
      match EventType.ofName? name with
      | some type => .ok type
      | none => .error (.type given)
    | _ => .error (.type given)

def readIndex (entries : List (Value × Value)) : Except EventError Nat :=
  match Value.lookUp? (.str "i") entries with
  | some (.int (.ofNat n)) => .ok n
  | _ => .error .index

/-- The details as they are given; null counts as none. -/
def readDetails (entries : List (Value × Value)) :
    Except EventError (Option (List (Value × Value))) :=
  match Value.lookUp? (.str "meta") entries with
  | none | some .null => .ok none
  | some (.dict details) => .ok (some details)
  | some _ => .error .details

/-- Details in canonical form. -/
def sortDetails (details : List (Value × Value)) : Except EventError (Entries String Value) :=
  match Value.sortedEntries (Value.entriesDeeplySorted details) with
  | .ok sorted => .ok sorted
  | .error error => .error (.incomparableKeys error)

def ofValue : Value → Except EventError Event
  | .dict entries => do
    let version ← readVersion entries
    let type ← readType entries
    let index ← readIndex entries
    match ← readDetails entries with
    | none => return ⟨version, type, index, none⟩
    | some details => return ⟨version, type, index, some (← sortDetails details)⟩
  | given => .error (.notMapping given)

/-- Canonical events, numbered from 0 without a gap. -/
def ofValues (events : List Value) : Except EventError (List Event) := do
  let events ← events.mapM ofValue
  if events.map (·.index) = List.range events.length then return events
  else throw (.discontiguous (events.map (·.index)))

def traceOfValue (events : Value) : Except EventError (List Event) :=
  match events.iterate? with
  | some events => ofValues events
  | none => .error (.notIterable events)

end Event

end Motif
