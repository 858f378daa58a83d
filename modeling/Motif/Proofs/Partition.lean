import Mathlib.Algebra.GroupWithZero.Nat
import Mathlib.Data.List.Chain
import Motif.Proofs.Collecting
import Motif.Proofs.Repeating

/-!
The chunks of a sequence are the only partition of its elements into runs and single repetitions
in which no run is empty and no run follows another. So nothing depends on how the chunks are
found: whatever has these properties is what the pass over the elements collects. What the chunks
from one on need is counted on the elements themselves.
-/

namespace Motif

namespace Chunk

variable {α : Type}

def isFixed : Chunk α → Bool
  | .fixed _ => true
  | .repeated .. => false

/-- In front of the cut of the rest, elements that do not repeat are put one by one. -/
theorem cut_append_of_fixed {repetition? : α → Option Repetition} {run : List α}
    (hrun : ∀ element ∈ run, repetition? element = none) (rest : List α) :
    cut repetition? (run ++ rest) = run.foldr consFixed (cut repetition? rest) := by
  induction run with
  | nil => rfl
  | cons element later ih =>
    obtain ⟨hnone, hlater⟩ := List.forall_mem_cons.mp hrun
    rw [List.cons_append, cut, hnone, List.foldr_cons, ih hlater]

/-- The entry of a chunk is what the chunks from there on need together. -/
theorem getElem?_tailMinimums {chunks : List (Chunk α)} {ci : Nat} (hci : ci ≤ chunks.length) :
    (tailMinimums chunks)[ci]? = some (leastTotal (chunks.drop ci)) := by
  induction chunks generalizing ci with
  | nil =>
    obtain rfl := Nat.le_zero.mp hci
    rfl
  | cons chunk rest ih =>
    cases ci with
    | zero => rfl
    | succ ci => exact ih (Nat.le_of_succ_le_succ hci)

/-- Elements need an item for each of them that does not repeat, and for each repetition as many as
its bounds ask for. -/
theorem leastTotal_cut (repetition? : α → Option Repetition) (items : List α) :
    leastTotal (cut repetition? items) =
      items.countP (fun item => (repetition? item).isNone) +
        ((items.filterMap repetition?).map Repetition.least).sum := by
  induction items with
  | nil => rfl
  | cons item rest ih =>
    rw [leastTotal_cut_cons, ih, List.countP_cons]
    cases hitem : repetition? item with
    | none =>
      rw [List.filterMap_cons_none hitem, Option.map_none, Option.getD_none, Option.isNone_none,
        if_pos rfl]
      omega
    | some repetition =>
      rw [List.filterMap_cons_some hitem, Option.map_some, Option.getD_some, Option.isNone_some,
        if_neg Bool.false_ne_true, List.map_cons, List.sum_cons]
      omega

end Chunk

namespace Pattern

section

variable {α : Type} {elements : List (Pattern α)} {chunks : List (Chunk (Pattern α))}

/-- A pattern repeats when there is a repetition under its labels. -/
theorem repetition?_eq_some_iff {p : Pattern α} {repetition : Repetition} :
    p.repetition? = some repetition ↔
      ∃ labels inner, p = under labels (.repeated inner repetition.mode repetition.bounds) := by
  constructor
  · intro hrepeats
    induction p using Pattern.induction with
    | repeated inner mode bounds _ =>
      cases hrepeats
      exact ⟨[], inner, rfl⟩
    | named label inner ih =>
      obtain ⟨labels, body, rfl⟩ := ih hrepeats
      exact ⟨label :: labels, body, rfl⟩
    | _ => cases hrepeats
  · rintro ⟨labels, inner, rfl⟩
    exact repetition?_under labels _

/-- Chunks are a partition of elements when they give the elements back in their order, each run
holds at least one element and none that repeats, each repeated chunk holds one element, as it is,
with the repetition under its labels, and no run follows another. -/
structure Partition (elements : List (Pattern α)) (chunks : List (Chunk (Pattern α))) : Prop where
  joined : chunks.flatMap Chunk.elements = elements
  runs : ∀ run, .fixed run ∈ chunks → run ≠ [] ∧ ∀ p ∈ run, p.repetition? = none
  repetitions : ∀ p repetition, .repeated p repetition ∈ chunks →
    ∃ labels inner, p = under labels (.repeated inner repetition.mode repetition.bounds)
  apart : chunks.IsChain fun chunk next => chunk.isFixed = true → next.isFixed = false

theorem partition_nil : Partition ([] : List (Pattern α)) [] where
  joined := rfl
  runs _ hrun := by cases hrun
  repetitions _ _ hmem := by cases hmem
  apart := .nil

theorem Partition.aligned (h : Partition elements chunks) :
    ∀ chunk ∈ chunks, chunk.Aligned repetition? := by
  intro chunk hchunk
  cases chunk with
  | fixed run => exact (h.runs run hchunk).2
  | repeated p repetition => exact repetition?_eq_some_iff.mpr (h.repetitions p repetition hchunk)

/-- From a chunk on, a partition is one of the elements there. -/
theorem Partition.drop (h : Partition elements chunks) (ci : Nat) :
    Partition ((chunks.drop ci).flatMap Chunk.elements) (chunks.drop ci) where
  joined := rfl
  runs run hrun := h.runs run (List.mem_of_mem_drop hrun)
  repetitions p repetition hmem := h.repetitions p repetition (List.mem_of_mem_drop hmem)
  apart := h.apart.drop ci

theorem Partition.consRepeated (h : Partition elements chunks) {p : Pattern α}
    {repetition : Repetition} (hrepeats : p.repetition? = some repetition) :
    Partition (p :: elements) (.repeated p repetition :: chunks) where
  joined := by rw [List.flatMap_cons, h.joined]; rfl
  runs run hrun := by
    rcases List.mem_cons.mp hrun with hfirst | hrun
    · cases hfirst
    · exact h.runs run hrun
  repetitions q repetition' hmem := by
    rcases List.mem_cons.mp hmem with hfirst | hmem
    · cases hfirst
      exact repetition?_eq_some_iff.mp hrepeats
    · exact h.repetitions q repetition' hmem
  apart := List.isChain_cons.mpr ⟨fun _ _ hfixed => (nomatch hfixed), h.apart⟩

/-- A run of one element may stand in front of a partition that begins with no run. -/
theorem Partition.consRun (h : Partition elements chunks) {p : Pattern α}
    (hfixed : p.repetition? = none) (hstart : ∀ chunk ∈ chunks.head?, chunk.isFixed = false) :
    Partition (p :: elements) (.fixed [p] :: chunks) where
  joined := by rw [List.flatMap_cons, h.joined]; rfl
  runs run hrun := by
    rcases List.mem_cons.mp hrun with hfirst | hrun
    · cases hfirst
      exact ⟨List.cons_ne_nil _ _, List.forall_mem_singleton.mpr hfixed⟩
    · exact h.runs run hrun
  repetitions q repetition hmem := by
    rcases List.mem_cons.mp hmem with hfirst | hmem
    · cases hfirst
    · exact h.repetitions q repetition hmem
  apart := List.isChain_cons.mpr ⟨fun chunk hchunk _ => hstart chunk hchunk, h.apart⟩

/-- The run at the start of a partition may be made longer. -/
theorem Partition.extendRun {run : List (Pattern α)} (h : Partition elements (.fixed run :: chunks))
    {p : Pattern α} (hfixed : p.repetition? = none) :
    Partition (p :: elements) (.fixed (p :: run) :: chunks) where
  joined := by rw [← h.joined, List.flatMap_cons, List.flatMap_cons]; rfl
  runs other hother := by
    rcases List.mem_cons.mp hother with hfirst | hother
    · cases hfirst
      have hrun := (h.runs run List.mem_cons_self).2
      exact ⟨List.cons_ne_nil _ _, List.forall_mem_cons.mpr ⟨hfixed, hrun⟩⟩
    · exact h.runs other (List.mem_cons_of_mem _ hother)
  repetitions q repetition hmem := by
    rcases List.mem_cons.mp hmem with hfirst | hmem
    · cases hfirst
    · exact h.repetitions q repetition (List.mem_cons_of_mem _ hmem)
  apart := List.isChain_cons.mpr (List.isChain_cons.mp h.apart)

theorem Partition.consFixed (h : Partition elements chunks) {p : Pattern α}
    (hfixed : p.repetition? = none) : Partition (p :: elements) (Chunk.consFixed p chunks) := by
  rcases chunks with _ | ⟨run | ⟨q, repetition⟩, rest⟩
  · exact h.consRun hfixed (by simp)
  · exact h.extendRun hfixed
  · exact h.consRun hfixed (by simp [Chunk.isFixed])

theorem partition_chunks (elements : List (Pattern α)) :
    Partition elements (Pattern.chunks elements) := by
  induction elements with
  | nil => exact partition_nil
  | cons p rest ih =>
    rw [Pattern.chunks, Chunk.cut]
    split
    · next repetition hrepeats => exact ih.consRepeated hrepeats
    · next hfixed => exact ih.consFixed hfixed

/-- A run that is followed by no run is put together again from its elements. -/
theorem Partition.foldr_consFixed {run : List (Pattern α)}
    (h : Partition elements (.fixed run :: chunks)) :
    run.foldr Chunk.consFixed chunks = .fixed run :: chunks := by
  have hflush : Chunk.flush [] run = [.fixed run] :=
    if_neg (mt List.isEmpty_iff.mp (h.runs run List.mem_cons_self).1)
  rcases chunks with _ | ⟨other | ⟨p, repetition⟩, rest⟩
  · rw [Chunk.foldr_consFixed_nil, hflush]
  · have hapart := (List.isChain_cons_cons.mp h.apart).1 rfl
    cases hapart
  · rw [Chunk.foldr_consFixed_repeated, hflush]
    rfl

theorem Partition.eq_chunks (h : Partition elements chunks) : chunks = Pattern.chunks elements := by
  obtain rfl := h.joined
  induction chunks with
  | nil => rfl
  | cons chunk rest ih =>
    have haligned := h.aligned chunk List.mem_cons_self
    have hrest : rest = Pattern.chunks (rest.flatMap Chunk.elements) := ih (h.drop 1)
    rw [Pattern.chunks] at hrest ⊢
    rw [List.flatMap_cons]
    cases chunk with
    | fixed run =>
      rw [Chunk.elements, Chunk.cut_append_of_fixed haligned, ← hrest, h.foldr_consFixed]
    | repeated p repetition =>
      have hrepeats : p.repetition? = some repetition := haligned
      rw [Chunk.elements, List.singleton_append, Chunk.cut, hrepeats, ← hrest]

theorem partition_iff : Partition elements chunks ↔ chunks = Pattern.chunks elements := by
  constructor
  · exact Partition.eq_chunks
  · rintro rfl
    exact partition_chunks elements

/-- What the chunks from one on need together is counted on their elements. -/
theorem leastTotal_drop_chunks (elements : List (Pattern α)) (ci : Nat) :
    let later := ((Pattern.chunks elements).drop ci).flatMap Chunk.elements
    Chunk.leastTotal ((Pattern.chunks elements).drop ci) =
      later.countP (fun p => p.repetition?.isNone) +
        ((later.filterMap repetition?).map Repetition.least).sum := by
  intro later
  have hlater : (Pattern.chunks elements).drop ci = Pattern.chunks later :=
    ((partition_chunks elements).drop ci).eq_chunks
  rw [hlater]
  exact Chunk.leastTotal_cut repetition? later

end

end Pattern

end Motif
