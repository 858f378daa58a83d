import Motif.Proofs.Cut

/-!
Items by number. Reading an item or a slice by number never fails quietly as long as
the numbers lie in the range; elsewhere numbers below zero count from the end, and
slices are cut off at the ends. The numbers here are integers, so that a number that
falls out of the range can be said at all. Together with the lengths that a repetition
goes through, counted up or down between two ends, they give the walk of a sequence
in terms of one list of items and a place in it.
-/

namespace Motif

namespace Position

variable {α : Type}

/-- The item with a number. Numbers below zero count from the end. -/
def item? (items : List α) (index : Int) : Option α :=
  let fromStart : Int := if index < 0 then index + items.length else index
  if fromStart < 0 then none else items[fromStart.toNat]?

/-- Where a slice begins or ends. A number below zero counts from the end, and what lies outside
is moved to the nearest end. -/
def clamp (length : Nat) (index : Int) : Nat :=
  let fromStart : Int := if index < 0 then index + length else index
  min fromStart.toNat length

/-- The items from one number up to another one, which is not included. -/
def slice (items : List α) (start stop : Int) : List α :=
  (items.take (clamp items.length stop)).drop (clamp items.length start)

/-- The numbers from `start` up to `stop`, which is not included. -/
def upTo (start stop : Int) : List Int :=
  (List.range (stop - start).toNat).map fun k : Nat => start + (k : Int)

/-- The numbers from `start` down to `stop`, which is not included. -/
def downTo (start stop : Int) : List Int :=
  (List.range (start - stop).toNat).map fun k : Nat => start - (k : Int)

theorem item?_natCast (items : List α) (index : Nat) : item? items index = items[index]? := by
  have hsign : ¬ ((index : Int) < 0) := by omega
  simp [item?, hsign]

theorem clamp_natCast {length index : Nat} (h : index ≤ length) : clamp length index = index := by
  have hsign : ¬ ((index : Int) < 0) := by omega
  simp [clamp, hsign, h]

/-- Within the range, a slice holds just as many items as there are numbers between its ends. -/
theorem slice_natCast (items : List α) {start take : Nat} (h : start + take ≤ items.length) :
    slice items start ((start : Int) + take) = (items.drop start).take take := by
  have hstop : ((start : Int) + take) = ((start + take : Nat) : Int) := by
    push_cast
    rfl
  have hstart : start ≤ items.length := by omega
  rw [slice, hstop, clamp_natCast h, clamp_natCast hstart, List.take_add, List.drop_append]
  have hlength : (items.take start).length = start := List.length_take_of_le hstart
  simp [hlength]

end Position

namespace Repetition

/-- The lengths that the bounds allow when `available` items may be taken, counted down from the
largest or up from the smallest. -/
def countedLengths (r : Repetition) (available : Int) : List Int :=
  let low : Int := r.least
  let high : Int := match r.bounds with
    | none => available
    | some bounds => min available bounds.max
  match r.mode with
  | .greedy => Position.downTo high (low - 1)
  | .lazy => Position.upTo low (high + 1)

theorem upTo_eq_ascending (low : Nat) (high : Int) :
    Position.upTo low (high + 1) =
      ((List.range (high + 1 - low).toNat).map (· + low)).map fun k : Nat => (k : Int) := by
  rw [Position.upTo, List.map_map]
  apply List.map_congr_left
  intro k _
  simp only [Function.comp]
  omega

theorem downTo_eq_descending (low : Nat) (high : Int) :
    Position.downTo high ((low : Int) - 1) =
      ((List.range (high + 1 - low).toNat).map (· + low)).reverse.map fun k : Nat => (k : Int) := by
  have hcount : (high - ((low : Int) - 1)).toNat = (high + 1 - low).toNat := by omega
  rw [Position.downTo, hcount]
  apply List.ext_getElem
  · simp
  · intro i hi _
    simp only [List.length_map, List.length_range] at hi
    simp only [List.getElem_map, List.getElem_range, List.getElem_reverse, List.length_map,
      List.length_range]
    omega

/-- Counting goes through the lengths that are tried, in the same order. -/
theorem countedLengths_eq (r : Repetition) (available : Int) :
    r.countedLengths available = (r.takes available).map fun k : Nat => (k : Int) := by
  obtain ⟨mode, bounds⟩ := r
  cases mode with
  | greedy => exact downTo_eq_descending _ _
  | lazy => exact upTo_eq_ascending _ _

end Repetition

namespace Value

/-- A value occurs in another one on a level when so many sequences enclose it there. -/
inductive Occurs (v : Value) : Nat → Value → Prop
  | whole : Occurs v 0 v
  | item {level form items item} (h : Occurs v level (.seq form items)) (hitem : item ∈ items) :
    Occurs v (level + 1) item

mutual

/-- How deep sequences are nested in a value: none in what is no sequence, one in a flat one. -/
def nesting : Value → Nat
  | .seq _ items => deepest items + 1
  | .null | .bool _ | .int _ | .float _ | .str _ | .bytes _ | .dict _ | .object _ | .pattern _
  | .marker _ => 0
termination_by structural v => v

def deepest : List Value → Nat
  | [] => 0
  | v :: rest => max (nesting v) (deepest rest)
termination_by structural vs => vs

end

theorem nesting_le_deepest {items : List Value} {item : Value} (h : item ∈ items) :
    item.nesting ≤ deepest items := by
  induction items with
  | nil => cases h
  | cons first rest ih =>
    simp only [deepest]
    rcases List.mem_cons.mp h with rfl | hrest
    · exact Nat.le_max_left _ _
    · exact Nat.le_trans (ih hrest) (Nat.le_max_right _ _)

/-- The deeper a value occurs, the less is nested in it. -/
theorem Occurs.add_nesting_le {v w : Value} {level : Nat} (h : Occurs v level w) :
    level + w.nesting ≤ v.nesting := by
  induction h with
  | whole => simp
  | item _ hitem ih =>
    have hdeep := nesting_le_deepest hitem
    simp only [nesting] at ih
    omega

end Value

end Motif
