import Motif.Bind

/-!
What the proofs about matching need to know of the build of patterns: induction
over a pattern with a hypothesis for every part of a choice or a sequence, which
patterns can be matched at all, how deep a pattern makes a search descend, and
how the chunks of a sequence carry over from patterns to their matchers.
-/

namespace Motif

namespace Chunk

variable {α β : Type}

/-- Replace every element of a chunk by its image. -/
def map (f : α → β) : Chunk α → Chunk β
  | .fixed elements => .fixed (elements.map f)
  | .repeated element repetition => .repeated (f element) repetition

theorem map_id : map (id : α → α) = id := by
  funext chunk
  cases chunk with
  | fixed elements => rw [map, List.map_id, id]
  | repeated element repetition => rfl

@[simp] theorem elements_map (f : α → β) (chunk : Chunk α) :
    (chunk.map f).elements = chunk.elements.map f := by
  cases chunk <;> rfl

@[simp] theorem least_map (f : α → β) (chunk : Chunk α) : (chunk.map f).least = chunk.least := by
  cases chunk with
  | fixed elements => exact List.length_map f
  | repeated element repetition => rfl

@[simp] theorem leastTotal_map (f : α → β) (chunks : List (Chunk α)) :
    leastTotal (chunks.map (map f)) = leastTotal chunks := by
  induction chunks with
  | nil => rfl
  | cons chunk rest ih => simp only [List.map_cons, leastTotal, least_map, ih]

theorem consFixed_map (f : α → β) (element : α) (chunks : List (Chunk α)) :
    consFixed (f element) (chunks.map (map f)) = (consFixed element chunks).map (map f) := by
  rcases chunks with _ | ⟨_ | _, rest⟩ <;> rfl

/-- Cutting looks only at which elements repeat, so it can be done before or after the
elements are replaced. -/
theorem cut_map (repeats : α → Option Repetition) (again : β → Option Repetition) (f : α → β)
    (hsame : ∀ element, again (f element) = repeats element) (elements : List α) :
    cut again (elements.map f) = (cut repeats elements).map (map f) := by
  induction elements with
  | nil => rfl
  | cons element rest ih =>
    simp only [List.map_cons, cut, hsame, ih]
    cases repeats element with
    | none => exact consFixed_map f element _
    | some repetition => rfl

/-- A chunk is aligned when it holds what it says: a fixed chunk no repetition, and a repeated
chunk an element that repeats in just that way. -/
def Aligned (repeats : α → Option Repetition) : Chunk α → Prop
  | .fixed elements => ∀ element ∈ elements, repeats element = none
  | .repeated element repetition => repeats element = some repetition

theorem aligned_consFixed (repeats : α → Option Repetition) (element : α)
    (hnone : repeats element = none) (chunks : List (Chunk α))
    (haligned : ∀ chunk ∈ chunks, chunk.Aligned repeats) :
    ∀ chunk ∈ consFixed element chunks, chunk.Aligned repeats := by
  rcases chunks with _ | ⟨elements | ⟨other, repetition⟩, rest⟩
  · simpa [consFixed, Aligned] using hnone
  · obtain ⟨hfixed, hrest⟩ := List.forall_mem_cons.mp haligned
    exact List.forall_mem_cons.mpr ⟨List.forall_mem_cons.mpr ⟨hnone, hfixed⟩, hrest⟩
  · have hfirst : (Chunk.fixed [element]).Aligned repeats := by
      simpa [Aligned] using hnone
    exact List.forall_mem_cons.mpr ⟨hfirst, haligned⟩

theorem aligned_cut (repeats : α → Option Repetition) (elements : List α) :
    ∀ chunk ∈ cut repeats elements, chunk.Aligned repeats := by
  induction elements with
  | nil => simp [cut]
  | cons element rest ih =>
    unfold cut
    split
    · next repetition hsome => exact List.forall_mem_cons.mpr ⟨hsome, ih⟩
    · next hnone => exact aligned_consFixed repeats element hnone _ ih

end Chunk

namespace Pattern

section

variable {α : Type}

/-- Induction over a pattern. A choice and a sequence come with a hypothesis for each of
their parts. -/
theorem induction {motive : Pattern α → Prop}
    (wildcard : motive .wildcard)
    (literal : ∀ value, motive (.literal value))
    (typeCheck : ∀ kind, motive (.typeCheck kind))
    (alternation : ∀ options, (∀ p ∈ options, motive p) → motive (.alternation options))
    (sequence : ∀ elements, (∀ p ∈ elements, motive p) → motive (.sequence elements))
    (repeated : ∀ inner mode bounds, motive inner → motive (.repeated inner mode bounds))
    (arrayOf : ∀ inner bounds, motive inner → motive (.arrayOf inner bounds))
    (named : ∀ label inner, motive inner → motive (.named label inner))
    (unspecified : ∀ tag, motive (.unspecified tag))
    (misfit : ∀ flaw value, motive (.misfit flaw value))
    (choiceFrom : ∀ source options, (∀ p ∈ options, motive p) →
      motive (.choiceFrom source options))
    (p : Pattern α) : motive p := by
  refine @Pattern.rec α motive (fun ps => ∀ p ∈ ps, motive p) wildcard literal typeCheck
    alternation sequence repeated arrayOf named unspecified misfit choiceFrom
    (by simp) (fun first rest hfirst hrest p hp => ?_) p
  rcases List.mem_cons.mp hp with rfl | hp
  · exact hfirst
  · exact hrest p hp

mutual

/-- Whether every node of a pattern can be matched: none is of unspecified kind, and no value
stands in a pattern's place. -/
def isSound : Pattern α → Bool
  | .wildcard | .literal _ | .typeCheck _ => true
  | .alternation options | .choiceFrom _ options => areSound options
  | .sequence elements => areSound elements
  | .repeated inner _ _ | .arrayOf inner _ | .named _ inner => isSound inner
  | .unspecified _ | .misfit .. => false
termination_by structural p => p

def areSound : List (Pattern α) → Bool
  | [] => true
  | p :: rest => isSound p && areSound rest
termination_by structural ps => ps

end

theorem areSound_iff (ps : List (Pattern α)) :
    areSound ps = true ↔ ∀ p ∈ ps, p.isSound = true := by
  induction ps with
  | nil => simp [areSound]
  | cons p rest ih => simp [areSound, ih]

theorem areSound_eq_false {ps : List (Pattern α)} {p : Pattern α} (hp : p ∈ ps)
    (hunsound : p.isSound = false) : areSound ps = false := by
  refine Bool.eq_false_iff.mpr fun hall => ?_
  have hsound := (areSound_iff ps).mp hall p hp
  rw [hunsound] at hsound
  cases hsound

mutual

/-- The largest number of sequences and arrays on a way from a pattern down to a leaf. -/
def height : Pattern α → Nat
  | .sequence elements => tallest elements + 1
  | .arrayOf inner _ => height inner + 1
  | .alternation options | .choiceFrom _ options => tallest options
  | .repeated inner _ _ | .named _ inner => height inner
  | .wildcard | .literal _ | .typeCheck _ | .unspecified _ | .misfit .. => 0
termination_by structural p => p

def tallest : List (Pattern α) → Nat
  | [] => 0
  | p :: rest => max (height p) (tallest rest)
termination_by structural ps => ps

end

theorem height_le_tallest (ps : List (Pattern α)) (p : Pattern α) (hp : p ∈ ps) :
    p.height ≤ tallest ps := by
  induction ps with
  | nil => cases hp
  | cons first rest ih =>
    simp only [tallest]
    rcases List.mem_cons.mp hp with rfl | hrest
    · exact Nat.le_max_left _ _
    · exact Nat.le_trans (ih hrest) (Nat.le_max_right _ _)

end

/-- A pattern as a sequence uses it. -/
def matcher (lengths : LengthPolicy) (p : Pattern Value) : Matcher :=
  ⟨p.repetition?, bindWith lengths p⟩

theorem matchersWith_eq_map (lengths : LengthPolicy) (ps : List (Pattern Value)) :
    matchersWith lengths ps = ps.map (matcher lengths) := by
  induction ps with
  | nil => rfl
  | cons p rest ih => rw [matchersWith, ih, List.map_cons, matcher]

/-- The chunks that a sequence pattern walks are the chunks of its elements, each element
turned into its matcher. -/
theorem cut_matchersWith (lengths : LengthPolicy) (elements : List (Pattern Value)) :
    Chunk.cut Matcher.repetition? (matchersWith lengths elements) =
      (chunks elements).map (Chunk.map (matcher lengths)) := by
  rw [matchersWith_eq_map]
  exact Chunk.cut_map repetition? Matcher.repetition? (matcher lengths) (fun _ => rfl) elements

/-- The chunks of a sequence hold its elements and nothing else. -/
theorem mem_of_mem_chunks {elements : List (Pattern Value)} {chunk : Chunk (Pattern Value)}
    {p : Pattern Value} (hchunk : chunk ∈ chunks elements) (hp : p ∈ chunk.elements) :
    p ∈ elements := by
  rw [← Chunk.flatMap_elements_cut repetition? elements]
  exact List.mem_flatMap.mpr ⟨chunk, hchunk, hp⟩

end Pattern

end Motif
