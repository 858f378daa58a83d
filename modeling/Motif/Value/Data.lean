import Motif.Value.Basic

/-!
Plain data: the values that data text can spell. Numbers are finite, keys are
text, and nothing is nested more than two hundred levels deep. Tuples count,
because they are written as lists; `asData` makes that change.
-/

namespace Motif

namespace Value

/-- How many levels plain data may be nested. -/
def greatestDataDepth : Nat := 200

def isText : Value → Bool
  | .str _ => true
  | _ => false

mutual

/-- Whether a value is plain data that is nested at most `room` levels. -/
def isDataWithin : Nat → Value → Bool
  | _, .null | _, .bool _ | _, .int _ | _, .str _ => true
  | _, .float x => x.isFinite
  | 0, .seq _ items => items.isEmpty
  | room + 1, .seq _ items => allDataWithin room items
  | 0, .dict entries => entries.isEmpty
  | room + 1, .dict entries => allEntriesDataWithin room entries
  | _, .bytes _ | _, .object _ | _, .pattern _ | _, .marker _ => false
termination_by structural _ v => v

def allDataWithin : Nat → List Value → Bool
  | _, [] => true
  | room, v :: rest => isDataWithin room v && allDataWithin room rest
termination_by structural _ vs => vs

def allEntriesDataWithin : Nat → List (Value × Value) → Bool
  | _, [] => true
  | room, (k, v) :: rest => k.isText && isDataWithin room v && allEntriesDataWithin room rest
termination_by structural _ entries => entries

end

def isData (v : Value) : Bool := isDataWithin greatestDataDepth v

mutual

/-- The same value with a list in place of every tuple. Keys stay as they are. -/
def asData : Value → Value
  | .seq _ items => .seq .list (allAsData items)
  | .dict entries => .dict (entriesAsData entries)
  | .null => .null
  | .bool b => .bool b
  | .int n => .int n
  | .float x => .float x
  | .str s => .str s
  | .bytes bs => .bytes bs
  | .object name => .object name
  | .pattern p => .pattern p
  | .marker m => .marker m
termination_by structural v => v

def allAsData : List Value → List Value
  | [] => []
  | v :: rest => asData v :: allAsData rest
termination_by structural vs => vs

def entriesAsData : List (Value × Value) → List (Value × Value)
  | [] => []
  | (k, v) :: rest => (k, asData v) :: entriesAsData rest
termination_by structural entries => entries

end

end Value

end Motif
