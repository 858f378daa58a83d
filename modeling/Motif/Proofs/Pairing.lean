import Motif.Proofs.Outcome

/-!
Two runs side by side. Patterns that are built alike are matched by runs that are put
together alike, and whatever relates two such runs part by part relates them as
wholes. So a relation between runs need only be checked against the ways to put runs
together, one pair at a time; what is put together of many parts follows. Only
decisions about chunks are recorded inside a match, so nothing is asked about others.
-/

namespace Motif

/-- Whether a decision is about a chunk, and not about a match as a whole. -/
def Decision.ofChunk : Decision → Bool
  | .fixed .. | .repeated .. => true
  | .started | .ended .. => false

namespace Run

/-- A relation between runs, each seen as a function of the captures that it starts from, which
relates each of the simplest runs to itself and is kept when both sides are put together in the
same way on one level. -/
structure Paired (R : (Captures → Run) → (Captures → Run) → Prop) : Prop where
  succeed : R succeed succeed
  fail : R (fun _ => fail) fun _ => fail
  andThen : ∀ {first first' next next'}, R first first' → R next next' →
    R (fun captures => andThen (first captures) next)
      fun captures => andThen (first' captures) next'
  orElse : ∀ {first first' second second'}, R first first' → R second second' →
    R (fun captures => orElse (first captures) (second captures))
      fun captures => orElse (first' captures) (second' captures)
  counted : ∀ {body body'}, R body body' →
    R (fun captures => counted (body captures)) fun captures => counted (body' captures)
  noting : ∀ d {body body'}, d.ofChunk = true → R body body' →
    R (fun captures => noting d (body captures)) fun captures => noting d (body' captures)

namespace Paired

variable {R : (Captures → Run) → (Captures → Run) → Prop} {α : Type}

theorem guard (hR : Paired R) (holds : Bool) : R (Run.guard holds) (Run.guard holds) := by
  cases holds with
  | true => exact hR.succeed
  | false => exact hR.fail

theorem firstOf (hR : Paired R) {ways : List α} {run run' : α → Captures → Run}
    (hruns : ∀ way ∈ ways, R (run way) (run' way)) :
    R (fun captures => Run.firstOf ways fun way => run way captures)
      fun captures => Run.firstOf ways fun way => run' way captures := by
  induction ways with
  | nil => exact hR.fail
  | cons way rest ih =>
    obtain ⟨hway, hrest⟩ := List.forall_mem_cons.mp hruns
    exact hR.orElse hway (ih hrest)

theorem inTurn (hR : Paired R) {parts : List α} {run run' : α → Captures → Run}
    (hruns : ∀ part ∈ parts, R (run part) (run' part)) :
    R (Run.inTurn parts run) (Run.inTurn parts run') := by
  induction parts with
  | nil => exact hR.succeed
  | cons part rest ih =>
    obtain ⟨hpart, hrest⟩ := List.forall_mem_cons.mp hruns
    exact hR.andThen hpart (ih hrest)

theorem bindEach (hR : Paired R) {bind bind' : Value → Captures → Run}
    (hbind : ∀ v, R (bind v) (bind' v)) (bounds : Option Bounds) (v : Value) :
    R (Motif.bindEach bounds bind v) (Motif.bindEach bounds bind' v) := by
  unfold Motif.bindEach
  cases v with
  | seq form items =>
    cases hallow : Bounds.allow bounds items.length with
    | true =>
      simp only [Value.items?, hallow, if_true]
      exact hR.inTurn fun item _ => hbind item
    | false =>
      simp only [Value.items?, hallow, Bool.false_eq_true, if_false]
      exact hR.fail
  | _ => exact hR.fail

variable {f g : α → Matcher}

/-- Walks that begin with a fixed chunk each, and then go on in related ways. -/
theorem walk_fixed (hR : Paired R) {lengths lengths' : LengthPolicy} {form : Form} {parts : List α}
    (hparts : ∀ part ∈ parts, ∀ v, R ((f part).bind v) ((g part).bind v))
    {rest rest' : List (Chunk Matcher)} {ci xi : Nat} {items : List Value}
    (hrest : R
      (Sequence.walk lengths form (ci + 1) rest (xi + parts.length) (items.drop parts.length))
      (Sequence.walk lengths' form (ci + 1) rest' (xi + parts.length)
        (items.drop parts.length))) :
    R (Sequence.walk lengths form ci (.fixed (parts.map f) :: rest) xi items)
      (Sequence.walk lengths' form ci (.fixed (parts.map g) :: rest') xi items) := by
  simp only [Sequence.walk, List.length_map]
  apply hR.counted
  by_cases hnarrow : items.length < parts.length
  · simp only [hnarrow, if_true]
    exact hR.noting _ rfl hR.fail
  · simp only [hnarrow, if_false, List.zip_map_left, inTurn_map]
    have hturn := hR.inTurn fun part (hpart : part ∈ parts.zip items) =>
      hparts part.1 (List.of_mem_zip hpart).1 part.2
    exact hR.andThen (hR.orElse hturn (hR.noting _ rfl hR.fail)) (hR.noting _ rfl hrest)

/-- Walks that try the same lengths. -/
theorem walk (hR : Paired R) (lengths : LengthPolicy) (form : Form) {chunks : List (Chunk α)}
    (hchunks : ∀ chunk ∈ chunks, ∀ part ∈ chunk.elements, ∀ v,
      R ((f part).bind v) ((g part).bind v)) (ci xi : Nat) (items : List Value) :
    R (Sequence.walk lengths form ci (chunks.map (Chunk.map f)) xi items)
      (Sequence.walk lengths form ci (chunks.map (Chunk.map g)) xi items) := by
  induction chunks generalizing ci xi items with
  | nil => exact hR.guard items.isEmpty
  | cons chunk rest ih =>
    obtain ⟨hown, hlater⟩ := List.forall_mem_cons.mp hchunks
    have hrest := ih hlater
    cases chunk with
    | fixed parts => exact hR.walk_fixed hown (hrest _ _ _)
    | repeated part repetition =>
      simp only [List.map_cons, Chunk.map, Sequence.walk, Chunk.leastTotal_map]
      refine hR.counted (hR.firstOf fun take _ => hR.noting _ rfl (hR.andThen ?_ (hrest _ _ _)))
      exact hown part List.mem_cons_self _

end Paired

end Run

/-! ### Runs in lockstep -/

/-- The same kind of outcome, with captures that are related when both are matches. -/
inductive Outcome.Related (related : Captures → Captures → Prop) : Outcome → Outcome → Prop
  | matched {captures captures' : Captures} (h : related captures captures') :
    Related related (.matched captures) (.matched captures')
  | noMatch : Related related .noMatch .noMatch
  | aborted (reason : Abort) : Related related (.aborted reason) (.aborted reason)

namespace Run

/-- Two runs go in lockstep when from related captures, and in the same state, they come to the
same kind of outcome with related captures, and to the same state. -/
def Lockstep (related : Captures → Captures → Prop) (run run' : Captures → Run) : Prop :=
  ∀ captures captures', related captures captures' → ∀ s,
    Outcome.Related related (run captures s).1 (run' captures' s).1 ∧
      (run captures s).2 = (run' captures' s).2

section

variable {related : Captures → Captures → Prop} {run run' next next' : Captures → Run}

theorem lockstep_andThen (h : Lockstep related run run') (hnext : Lockstep related next next') :
    Lockstep related (fun captures => andThen (run captures) next)
      fun captures => andThen (run' captures) next' := by
  intro captures captures' hcaptures s
  obtain ⟨houtcome, hstate⟩ := h captures captures' hcaptures s
  rcases hrun : run captures s with ⟨outcome, between⟩
  rcases hrun' : run' captures' s with ⟨outcome', between'⟩
  rw [hrun, hrun'] at houtcome hstate
  obtain rfl : between = between' := hstate
  simp only [andThen, hrun, hrun']
  cases houtcome with
  | matched hmade => exact hnext _ _ hmade between
  | noMatch => exact ⟨.noMatch, rfl⟩
  | aborted reason => exact ⟨.aborted reason, rfl⟩

theorem lockstep_orElse (h : Lockstep related run run') (hnext : Lockstep related next next') :
    Lockstep related (fun captures => orElse (run captures) (next captures))
      fun captures => orElse (run' captures) (next' captures) := by
  intro captures captures' hcaptures s
  obtain ⟨houtcome, hstate⟩ := h captures captures' hcaptures s
  rcases hrun : run captures s with ⟨outcome, between⟩
  rcases hrun' : run' captures' s with ⟨outcome', between'⟩
  rw [hrun, hrun'] at houtcome hstate
  obtain rfl : between = between' := hstate
  simp only [orElse, hrun, hrun']
  cases houtcome with
  | matched hmade => exact ⟨.matched hmade, rfl⟩
  | noMatch => exact hnext _ _ hcaptures between
  | aborted reason => exact ⟨.aborted reason, rfl⟩

theorem lockstep_counted (h : Lockstep related run run') :
    Lockstep related (fun captures => counted (run captures))
      fun captures => counted (run' captures) := by
  intro captures captures' hcaptures s
  cases hstep : s.step.1 with
  | none =>
    simp only [counted_of_none hstep]
    exact h captures captures' hcaptures s.step.2
  | some reason =>
    simp only [counted_of_some hstep, and_true]
    exact .aborted reason

theorem lockstep_nested (h : Lockstep related run run') :
    Lockstep related (fun captures => nested (run captures))
      fun captures => nested (run' captures) := by
  intro captures captures' hcaptures s
  cases henter : s.enter.1 with
  | none =>
    obtain ⟨houtcome, hstate⟩ := h captures captures' hcaptures s.enter.2
    simp only [nested_of_none henter, hstate, and_true]
    exact houtcome
  | some reason =>
    simp only [nested_of_some henter, and_true]
    exact .aborted reason

/-- Runs that are put together alike of runs in lockstep go in lockstep. -/
theorem paired_lockstep (related : Captures → Captures → Prop) : Paired (Lockstep related) where
  succeed _ _ h _ := ⟨.matched h, rfl⟩
  fail _ _ _ _ := ⟨.noMatch, rfl⟩
  andThen := lockstep_andThen
  orElse := lockstep_orElse
  counted := lockstep_counted
  noting d _ _ _ h captures captures' hcaptures s := h captures captures' hcaptures (s.note d)

/-- A run that is given up is in lockstep with itself. -/
theorem lockstep_abort (reason : Abort) :
    Lockstep related (fun _ => abort reason) fun _ => abort reason :=
  fun _ _ _ _ => ⟨.aborted reason, rfl⟩

end

end Run

end Motif
