import Mathlib.Data.List.Forall2
import Motif.Proofs.Dispatching

/-!
The history that a tracer keeps. However a match ends, it leaves a block: its start, decisions about
chunks, and its end. So several matches that one tracer watches leave one block each, in the order
in which they were made, and none begins before the one before it has ended. Events are numbered as
they come, over all blocks. When matches report to the shared tracer, the matches that a dispatch
makes are among them, those of patterns that are called as handlers as well.
-/

namespace Motif

variable {η σ ε ρ : Type}

/-- A match that is asked for. -/
structure Call where
  pattern : Pattern Value
  value : Value
  limits : Limits

def Call.report (call : Call) (tracer : Option Tracer) : Report :=
  call.pattern.matchAgainst call.value call.limits tracer

/-- A block has the brackets of a match when it goes from the start of a match over decisions about
chunks to its end, and what it says of the end is so. -/
def Report.Brackets (report : Report) (block : List Decision) : Prop :=
  ∃ chunks : List Decision, (∀ d ∈ chunks, d.ofChunk = true) ∧
    block = .started :: (chunks ++ [.ended report.outcome.isMatched report.steps])

namespace Tracer

/-- Whether the events bear their places in the log. -/
def Numbered (t : Tracer) : Prop := t.events.map (·.index) = List.range t.size

/-- The events that decisions become at the places from an index on. -/
def numbered (index : Nat) (ds : List Decision) : List Event :=
  (ds.zipIdx index).map fun entry => entry.1.event entry.2

theorem numbered_empty : Tracer.empty.Numbered := rfl

theorem events_foldl_note (t : Tracer) (ds : List Decision) :
    (ds.foldl note t).events = t.events ++ numbered t.size ds := by
  induction ds generalizing t with
  | nil => exact (List.append_nil _).symm
  | cons d rest ih =>
    have hevents : (t.note d).events = t.events ++ [d.event t.size] := Array.toList_push
    have hsize : (t.note d).size = t.size + 1 := Array.size_push _
    rw [List.foldl_cons, ih, hevents, hsize, List.append_assoc]
    rfl

theorem map_index_numbered (index : Nat) (ds : List Decision) :
    (numbered index ds).map (·.index) = List.range' index ds.length := by
  induction ds generalizing index with
  | nil => rfl
  | cons d rest ih =>
    rw [List.length_cons, List.range'_succ, ← ih (index + 1)]
    rfl

/-- Decisions are noted down at the next free places. -/
theorem Numbered.foldl_note {t : Tracer} (h : t.Numbered) (ds : List Decision) :
    (ds.foldl note t).Numbered := by
  have hsize : (ds.foldl note t).size = t.size + ds.length := by
    have hlength := congrArg List.length (t.events_foldl_note ds)
    simpa [events, size, numbered] using hlength
  rw [Numbered, events_foldl_note, List.map_append, h, map_index_numbered, hsize,
    List.range_add, List.range'_eq_map_range]

/-- Make matches one after the other under the eyes of one tracer. -/
def watch (t : Tracer) : List Call → List Report × Tracer
  | [] => ([], t)
  | call :: rest =>
    let report := call.report (some t)
    let (reports, after) := watch (report.tracer.getD t) rest
    (report :: reports, after)

/-- What a tracer has recorded beyond what it held before: one block for each report, with its
brackets, in the order of the reports and numbered from the next free place on. -/
def Chronicles (before : Tracer) (reports : List Report) (after : Tracer) : Prop :=
  ∃ blocks : List (List Decision), List.Forall₂ Report.Brackets reports blocks ∧
    after.events = before.events ++ numbered before.size blocks.flatten

theorem exists_blocks (t : Tracer) (calls : List Call) :
    ∃ blocks, List.Forall₂ Report.Brackets (t.watch calls).1 blocks ∧
      (t.watch calls).2 = blocks.flatten.foldl note t := by
  induction calls generalizing t with
  | nil => exact ⟨[], .nil, rfl⟩
  | cons call rest ih =>
    obtain ⟨chunks, hchunks, htracer⟩ :=
      call.pattern.exists_records call.value call.limits (some t)
    obtain ⟨blocks, hblocks, hafter⟩ := ih ((call.report (some t)).tracer.getD t)
    refine ⟨_ :: blocks, .cons ⟨chunks, hchunks, rfl⟩ hblocks, ?_⟩
    simp only [watch, hafter, List.flatten_cons, List.foldl_append]
    rw [Call.report, htracer]
    rfl

theorem chronicles_watch (t : Tracer) (calls : List Call) :
    t.Chronicles (t.watch calls).1 (t.watch calls).2 := by
  obtain ⟨blocks, hblocks, hafter⟩ := t.exists_blocks calls
  exact ⟨blocks, hblocks, by rw [hafter, events_foldl_note]⟩

theorem Numbered.watch {t : Tracer} (h : t.Numbered) (calls : List Call) :
    (t.watch calls).2.Numbered := by
  obtain ⟨blocks, -, hafter⟩ := t.exists_blocks calls
  rw [hafter]
  exact h.foldl_note _

theorem length_watch (t : Tracer) (calls : List Call) :
    (t.watch calls).1.length = calls.length := by
  induction calls generalizing t with
  | nil => rfl
  | cons call rest ih => exact congrArg (· + 1) (ih _)

theorem watch_append (t : Tracer) (first later : List Call) :
    (t.watch (first ++ later)).2 = ((t.watch first).2.watch later).2 := by
  induction first generalizing t with
  | nil => rfl
  | cons call rest ih => exact ih _

end Tracer

/-! ### The shared tracer -/

/-- A world in which matches report to the shared tracer. -/
def World.traced (t : Tracer) (state : σ) : World σ := ⟨⟨true, t⟩, state⟩

/-- There, a match without a tracer of its own is one more match that the shared tracer watches. -/
theorem World.matchAgainst_traced (t : Tracer) (state : σ) (call : Call) :
    (World.traced t state).matchAgainst call.pattern call.value call.limits =
      ((call.report none).outcome, World.traced (t.watch [call]).2 state) :=
  Prod.ext (World.outcome_matchAgainst _ _ _ _) rfl

/-- The same for a pattern that is called. -/
theorem HandlerKind.call_traced (kind : HandlerKind η σ ε ρ) (p : Pattern Value) (v : Value)
    (t : Tracer) (state : σ) :
    (kind.call (kind.ofPattern p) v (World.traced t state)).2 =
      World.traced (t.watch [⟨p, v, kind.limits⟩]).2 state := by
  have hmatch := World.matchAgainst_traced t state ⟨p, v, kind.limits⟩
  rw [kind.call_ofPattern, Setting.callPattern, hmatch]
  split <;> next heq => exact (Prod.mk.inj heq).2.symm

namespace Dispatch

/-- The matches that a dispatch makes when only patterns are called: the patterns of the clauses up
to the first one that does not fail, and after that the pattern that is called. -/
def calls (limits : Limits) (fallback : Option (Pattern Value)) (v : Value) :
    List (Value × Pattern Value) → List Call
  | [] => (fallback.map fun p => ⟨p, v, limits⟩).toList
  | (pattern, handler) :: rest =>
    let call : Call := ⟨Construct.ofValue pattern, v, limits⟩
    match (call.report none).outcome with
    | .matched captures => [call, ⟨handler, .record captures, limits⟩]
    | .noMatch => call :: calls limits fallback v rest
    | .aborted _ => [call]

/-- A flat list in which all handlers are patterns. -/
def patternItems (clauses : List (Value × Pattern Value)) : List (Item η) :=
  clauses.flatMap fun clause => [.value clause.1, .value (.pattern clause.2)]

theorem written_patternItems (kind : HandlerKind η σ ε ρ)
    (clauses : List (Value × Pattern Value)) :
    Written kind (patternItems clauses)
      (clauses.map fun clause => ⟨Construct.ofValue clause.1, kind.ofPattern clause.2⟩) := by
  induction clauses with
  | nil => exact .nil
  | cons clause rest ih => exact .cons (.value clause.1) rfl ih

theorem run_traced (kind : HandlerKind η σ ε ρ) (fallback : Option (Pattern Value)) (v : Value)
    (clauses : List (Value × Pattern Value)) (t : Tracer) (state : σ) :
    (run kind (fallback.map kind.ofPattern) v
        (clauses.map fun clause => ⟨Construct.ofValue clause.1, kind.ofPattern clause.2⟩)
        (World.traced t state)).2 =
      World.traced (t.watch (calls kind.limits fallback v clauses)).2 state := by
  induction clauses generalizing t with
  | nil =>
    cases fallback with
    | none => rfl
    | some p => exact kind.call_traced p v t state
  | cons clause rest ih =>
    have hmatch :=
      World.matchAgainst_traced t state ⟨Construct.ofValue clause.1, v, kind.limits⟩
    simp only [List.map_cons, run_cons, hmatch, calls]
    cases Call.report ⟨Construct.ofValue clause.1, v, kind.limits⟩ none with
    | mk outcome steps tracer =>
      cases outcome with
      | matched captures => exact kind.call_traced clause.2 (.record captures) _ state
      | noMatch => exact ih _
      | aborted reason => rfl

end Dispatch

/-- What may be asked for in a world: a match without a tracer of its own, or a dispatch to
patterns. -/
inductive Request where
  | single (call : Call)
  | dispatch (clauses : List (Value × Pattern Value)) (fallback : Option (Pattern Value))
    (value : Value)

namespace Request

def serve (kind : HandlerKind η σ ε ρ) (w : World σ) : Request → World σ
  | .single call => (w.matchAgainst call.pattern call.value call.limits).2
  | .dispatch clauses fallback v =>
    (Dispatch.dispatch kind (Dispatch.patternItems clauses) (fallback.map kind.ofPattern) v w).2

/-- The matches that are made for a request. -/
def calls (limits : Limits) : Request → List Call
  | .single call => [call]
  | .dispatch clauses fallback v => Dispatch.calls limits fallback v clauses

theorem serve_traced (kind : HandlerKind η σ ε ρ) (t : Tracer) (state : σ) (request : Request) :
    request.serve kind (World.traced t state) =
      World.traced (t.watch (request.calls kind.limits)).2 state := by
  cases request with
  | single call => exact congrArg Prod.snd (World.matchAgainst_traced t state call)
  | dispatch clauses fallback v =>
    rw [serve, Dispatch.dispatch_of_written (Dispatch.written_patternItems kind clauses)]
    exact Dispatch.run_traced kind fallback v clauses t state

theorem foldl_serve_traced (kind : HandlerKind η σ ε ρ) (t : Tracer) (state : σ)
    (requests : List Request) :
    requests.foldl (serve kind) (World.traced t state) =
      World.traced (t.watch (requests.flatMap (calls kind.limits))).2 state := by
  induction requests generalizing t with
  | nil => rfl
  | cons request rest ih =>
    rw [List.foldl_cons, serve_traced, ih, List.flatMap_cons, Tracer.watch_append]

end Request

/-- Traces are well bracketed and numbered. Whatever matches are made under the eyes of one tracer,
and however they end, each one of them leaves a block with its brackets, in the order in which they
were made; and if all events bore their places before, they do so afterwards. For the shared tracer
it is the same: what is asked for comes down to matches, those that dispatches make among them, and
their blocks are what it records. -/
theorem Tracer.chronicles_requests (kind : HandlerKind η σ ε ρ) (t : Tracer) (state : σ)
    (calls : List Call) (requests : List Request) :
    let watched := t.watch calls
    let made := requests.flatMap (Request.calls kind.limits)
    let served := requests.foldl (Request.serve kind) (World.traced t state)
    watched.1.length = calls.length ∧ t.Chronicles watched.1 watched.2 ∧
    served = World.traced (t.watch made).2 state ∧ (t.watch made).1.length = made.length ∧
    t.Chronicles (t.watch made).1 served.observation.shared ∧
    (t.Numbered → watched.2.Numbered ∧ served.observation.shared.Numbered) := by
  intro watched made served
  have hserved : served = World.traced (t.watch made).2 state :=
    Request.foldl_serve_traced kind t state requests
  have hshared : served.observation.shared = (t.watch made).2 := by
    rw [hserved]
    rfl
  refine ⟨t.length_watch calls, t.chronicles_watch calls, hserved, t.length_watch made, ?_, ?_⟩
  · rw [hshared]
    exact t.chronicles_watch made
  · intro hnumbered
    rw [hshared]
    exact ⟨hnumbered.watch calls, hnumbered.watch made⟩

/-- A match that is given up for its depth, and after it a dispatch that calls a pattern: three
blocks, from the first event on. -/
theorem Tracer.chronicles_requests_empty :
    let pair : Pattern Value := .sequence [.sequence [.wildcard], .named "a" .wildcard]
    let v := Value.list [.list [.null], .int 1]
    let setting : Setting Unit Unit := ⟨.standard, fun _ => (), (), fun _ => (), fun _ => ()⟩
    let kind : HandlerKind (Callable Unit Unit Unit) Unit Unit Unit := setting.callables
    let requests := [.single ⟨pair, v, ⟨.number 1, .number 0, by decide⟩⟩,
      .dispatch [(.pattern pair, .wildcard)] none v]
    let shared :=
      (requests.foldl (Request.serve kind) (World.traced .empty ())).observation.shared
    shared.Numbered ∧ shared.events.map (·.type) =
      [.matchStart, .matchEnd, .matchStart, .chunkFixed, .chunkFixed, .matchEnd,
        .matchStart, .matchEnd] := by
  intro pair v setting kind requests shared
  obtain ⟨-, -, -, -, -, hnumbered⟩ := Tracer.chronicles_requests kind .empty () [] requests
  exact ⟨(hnumbered Tracer.numbered_empty).2, by decide⟩

end Motif
