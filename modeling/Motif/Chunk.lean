import Motif.Pattern

/-!
The elements of a sequence pattern, cut into chunks. A fixed chunk is a longest
run of elements that take exactly one item each; a repeated chunk is one
repetition, which may take any number of items that its bounds allow. What an
element is does not matter here, only whether it is a repetition, so the cut is
made over any type of elements.
-/

namespace Motif

inductive Chunk (α : Type) where
  | fixed (elements : List α)
  | repeated (element : α) (repetition : Repetition)

namespace Chunk

variable {α β : Type}

def elements : Chunk α → List α
  | .fixed elements => elements
  | .repeated element _ => [element]

def width? : Chunk α → Option Nat
  | .fixed elements => some elements.length
  | .repeated .. => none

def least : Chunk α → Nat
  | .fixed elements => elements.length
  | .repeated _ repetition => repetition.least

/-- Put an element that takes one item in front of chunks. -/
def consFixed (element : α) : List (Chunk α) → List (Chunk α)
  | .fixed elements :: rest => .fixed (element :: elements) :: rest
  | chunks => .fixed [element] :: chunks

def cut (repetition? : α → Option Repetition) : List α → List (Chunk α)
  | [] => []
  | element :: rest =>
    match repetition? element with
    | some repetition => .repeated element repetition :: cut repetition? rest
    | none => consFixed element (cut repetition? rest)

/-- The fewest items that the chunks can take together. -/
def leastTotal : List (Chunk α) → Nat
  | [] => 0
  | chunk :: rest => chunk.least + leastTotal rest

/-- The fewest items from each chunk on, down to none after the last. -/
def tailMinimums : List (Chunk α) → List Nat
  | [] => [0]
  | chunk :: rest => leastTotal (chunk :: rest) :: tailMinimums rest

@[simp] theorem flatMap_elements_consFixed (element : α) (chunks : List (Chunk α)) :
    (consFixed element chunks).flatMap elements = element :: chunks.flatMap elements := by
  unfold consFixed
  split <;> simp [elements]

/-- The cut loses no element and keeps their order. -/
theorem flatMap_elements_cut (repetition? : α → Option Repetition) (items : List α) :
    (cut repetition? items).flatMap elements = items := by
  induction items with
  | nil => rfl
  | cons item rest ih =>
    unfold cut
    split
    · simp [elements, ih]
    · simp [ih]

@[simp] theorem leastTotal_consFixed (element : α) (chunks : List (Chunk α)) :
    leastTotal (consFixed element chunks) = leastTotal chunks + 1 := by
  unfold consFixed
  split
  · simp only [leastTotal, least, List.length_cons]
    omega
  · simp only [leastTotal, least, List.length_cons, List.length_nil]
    omega

/-- An element that is no repetition adds one item to what the chunks need, and a repetition
adds its least length. -/
theorem leastTotal_cut_cons (repetition? : α → Option Repetition) (item : α) (rest : List α) :
    leastTotal (cut repetition? (item :: rest)) =
      ((repetition? item).map Repetition.least).getD 1 + leastTotal (cut repetition? rest) := by
  cases found : repetition? item with
  | none =>
    rw [cut, found, leastTotal_consFixed, Nat.add_comm]
    rfl
  | some repetition =>
    rw [cut, found]
    rfl

/-- There is one entry for each chunk and one for the end. -/
@[simp] theorem length_tailMinimums (chunks : List (Chunk α)) :
    (tailMinimums chunks).length = chunks.length + 1 := by
  induction chunks with
  | nil => rfl
  | cons chunk rest ih => simp [tailMinimums, ih]

end Chunk

def Pattern.chunks {α : Type} (elements : List (Pattern α)) : List (Chunk (Pattern α)) :=
  Chunk.cut Pattern.repetition? elements

end Motif
