import Motif.Proofs.Structure

/-!
The chunks of a sequence pattern and the items that they need, as one pass over the elements finds
them. The pass keeps the run of elements that take one item each until a repetition ends the run, or
the elements do. What is needed from each chunk on is added up from the last chunk to the first.
Both come to what the chunks are by their structure.
-/

namespace Motif.Chunk

variable {α : Type}

/-- End a run of elements. A run without elements is no chunk. -/
def flush (chunks : List (Chunk α)) (run : List α) : List (Chunk α) :=
  if run.isEmpty then chunks else chunks ++ [.fixed run]

/-- Go over elements with the chunks that are done and the run that goes on. -/
def collect (repetition? : α → Option Repetition) :
    List (Chunk α) → List α → List α → List (Chunk α)
  | chunks, run, [] => flush chunks run
  | chunks, run, element :: rest =>
    match repetition? element with
    | none => collect repetition? chunks (run ++ [element]) rest
    | some repetition =>
      collect repetition? (flush chunks run ++ [.repeated element repetition]) [] rest

theorem flush_eq_append (chunks : List (Chunk α)) (run : List α) :
    flush chunks run = chunks ++ flush [] run := by
  unfold flush
  split
  · exact (List.append_nil chunks).symm
  · rfl

theorem foldr_consFixed_nil (run : List α) : run.foldr consFixed [] = flush [] run := by
  induction run with
  | nil => rfl
  | cons element rest ih =>
    rw [List.foldr_cons, ih]
    cases rest <;> rfl

theorem foldr_consFixed_repeated (run : List α) (element : α) (repetition : Repetition)
    (later : List (Chunk α)) :
    run.foldr consFixed (.repeated element repetition :: later) =
      flush [] run ++ .repeated element repetition :: later := by
  induction run with
  | nil => rfl
  | cons first rest ih =>
    rw [List.foldr_cons, ih]
    cases rest <;> rfl

/-- The pass adds to the chunks that are done those of the run and of the rest together. -/
theorem collect_eq_append (repetition? : α → Option Repetition) (chunks : List (Chunk α))
    (run elements : List α) :
    collect repetition? chunks run elements =
      chunks ++ run.foldr consFixed (cut repetition? elements) := by
  induction elements generalizing chunks run with
  | nil => rw [collect, flush_eq_append, cut, foldr_consFixed_nil]
  | cons element rest ih =>
    rw [collect, cut]
    cases repetition? element with
    | none =>
      dsimp only
      rw [ih, List.foldr_append, List.foldr_cons, List.foldr_nil]
    | some repetition =>
      dsimp only
      rw [ih, List.foldr_nil, foldr_consFixed_repeated, flush_eq_append, List.append_assoc,
        List.append_assoc, List.singleton_append]

theorem collect_eq_cut (repetition? : α → Option Repetition) (elements : List α) :
    collect repetition? [] [] elements = cut repetition? elements := by
  rw [collect_eq_append, List.nil_append, List.foldr_nil]

/-- What is needed from each chunk on, added up from the last chunk to the first. -/
def accumulate (chunks : List (Chunk α)) : List Nat :=
  (chunks.reverse.foldl (fun tails chunk => tails ++ [tails.getLastD 0 + chunk.least]) [0]).reverse

theorem foldl_tails_eq (chunks : List (Chunk α)) :
    chunks.reverse.foldl (fun tails chunk => tails ++ [tails.getLastD 0 + chunk.least]) [0] =
      (tailMinimums chunks).reverse := by
  induction chunks with
  | nil => rfl
  | cons chunk rest ih =>
    have hlast : (tailMinimums rest).reverse.getLastD 0 = leastTotal rest := by
      cases rest <;> simp [tailMinimums, leastTotal]
    rw [List.reverse_cons, List.foldl_append, ih, List.foldl_cons, List.foldl_nil, hlast,
      tailMinimums, List.reverse_cons, leastTotal, Nat.add_comm]

theorem accumulate_eq_tailMinimums (chunks : List (Chunk α)) :
    accumulate chunks = tailMinimums chunks := by
  rw [accumulate, foldl_tails_eq, List.reverse_reverse]

end Motif.Chunk
