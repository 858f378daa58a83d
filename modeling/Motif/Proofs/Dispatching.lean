import Motif.Dispatch.Table
import Motif.Proofs.Watching

/-!
What a dispatch calls, and when. The list is checked as a whole, and a mistake in it leaves the
world as it is. After that the clauses are scanned: each is matched once, up to the first whose
match does anything but fail, and its handler is called once, in the world that the scan leaves
behind. What has been built from a list once answers each value just as a dispatch on the list
would, since nothing that happens on the way changes the clauses.

All this holds of handlers of any kind, so it holds of callables and of the handlers of tables.
-/

namespace Motif

variable {η σ ε ρ : Type}

namespace World

theorem outcome_matchAgainst (w : World σ) (p : Pattern Value) (v : Value) (limits : Limits) :
    (w.matchAgainst p v limits).1 = (p.matchAgainst v limits none).outcome :=
  w.observation.outcome_matchAgainst p v limits

end World

namespace Dispatch

/-! ### The check -/

namespace Item

def isCallable : Item η → Bool
  | .handler _ | .value (.pattern _) | .value (.marker _) => true
  | .value _ => false

variable {kind : HandlerKind η σ ε ρ} {item : Item η}

theorem isCallable_of_handler {found : η} (h : item.handler? kind = .ok found) :
    item.isCallable = true := by
  cases item with
  | handler own => rfl
  | value v =>
    cases v with
    | pattern p => rfl
    | marker m => rfl
    | _ => cases h

/-- What cannot be called is a value, and it is the value that is reported. -/
theorem eq_value_of_error {given : Value} (h : item.handler? kind = .error given) :
    item = .value given ∧ item.isCallable = false := by
  cases item with
  | handler own => cases h
  | value v =>
    cases v <;> cases h <;> exact ⟨rfl, rfl⟩

end Item

/-- A flat list is malformed when an item is left over, or when what stands in the place of some
handler cannot be called. -/
def Malformed (items : List (Item η)) : Prop :=
  items.length % 2 = 1 ∨ ∃ (index : Nat) (handler : Item η),
    items[2 * index + 1]? = some handler ∧ handler.isCallable = false

/-- What there is to report of a malformed list: that an item is left over, with the number of
items, or else the first handler that cannot be called, with its number and what it is instead. -/
def Fault (items : List (Item η)) : UsageError → Prop
  | .oddClauses count => items.length % 2 = 1 ∧ count = items.length
  | .handler index given =>
    items.length % 2 = 0 ∧ items[2 * index + 1]? = some (.value given) ∧
      (Item.value given : Item η).isCallable = false ∧ ∀ earlier < index,
        ∃ handler, items[2 * earlier + 1]? = some handler ∧ handler.isCallable = true
  | _ => False

/-- Clauses as they are written in a flat list: an item for the pattern, and an item for the
handler. -/
inductive Written (kind : HandlerKind η σ ε ρ) : List (Item η) → List (Clause η) → Prop
  | nil : Written kind [] []
  | cons (pattern : Item η) {handler : Item η} {found : η} {items : List (Item η)}
    {clauses : List (Clause η)} (hhandler : handler.handler? kind = .ok found)
    (hrest : Written kind items clauses) :
    Written kind (pattern :: handler :: items) (⟨pattern.pattern, found⟩ :: clauses)

variable {kind : HandlerKind η σ ε ρ} {items : List (Item η)} {clauses : List (Clause η)}

theorem not_malformed_cons {pattern handler : Item η} (hown : handler.isCallable = true)
    (hrest : ¬ Malformed items) : ¬ Malformed (pattern :: handler :: items) := by
  rintro (hodd | ⟨index, other, hother, hnot⟩)
  · refine hrest (Or.inl ?_)
    simp only [List.length_cons] at hodd
    omega
  · cases index with
    | zero =>
      cases hother
      rw [hown] at hnot
      cases hnot
    | succ index => exact hrest (Or.inr ⟨index, other, hother, hnot⟩)

theorem Written.not_malformed (h : Written kind items clauses) : ¬ Malformed items := by
  induction h with
  | nil => simp [Malformed]
  | cons pattern hhandler _ ih =>
    exact not_malformed_cons (Item.isCallable_of_handler hhandler) ih

theorem pairUp_of_written (h : Written kind items clauses) (index : Nat) :
    pairUp kind index items = .ok clauses := by
  induction h generalizing index with
  | nil => rfl
  | cons pattern hhandler _ ih =>
    simp only [pairUp, hhandler, ih, bind, Except.bind, pure, Except.pure]

theorem ofItems_of_written (h : Written kind items clauses) :
    ofItems kind items = .ok clauses := by
  have heven : ¬ items.length % 2 ≠ 0 := fun hodd =>
    h.not_malformed (Or.inl (Nat.mod_two_ne_zero.mp hodd))
  rw [ofItems, if_neg heven]
  exact pairUp_of_written h 0

theorem Fault.malformed {mistake : UsageError} (h : Fault items mistake) : Malformed items := by
  cases mistake with
  | oddClauses count => exact Or.inl h.1
  | handler index given => exact Or.inr ⟨index, .value given, h.2.1, h.2.2.1⟩
  | _ => exact h.elim

/-- Pairing up writes out the clauses, or it stops at the first handler that cannot be called. -/
theorem pairUp_spec (kind : HandlerKind η σ ε ρ) : ∀ {items : List (Item η)} (start : Nat),
    items.length % 2 = 0 →
    (∃ clauses, pairUp kind start items = .ok clauses ∧ Written kind items clauses) ∨
      ∃ index given, pairUp kind start items = .error (.handler (start + index) given) ∧
        Fault items (.handler index given)
  | [], _, _ => Or.inl ⟨[], rfl, .nil⟩
  | [_], _, heven => by cases heven
  | pattern :: handler :: rest, start, heven => by
    cases hhandler : handler.handler? kind with
    | error given =>
      obtain ⟨rfl, hnot⟩ := Item.eq_value_of_error hhandler
      have hmistake : pairUp kind start (pattern :: .value given :: rest) =
          .error (.handler (start + 0) given) := by
        simp only [pairUp, hhandler, Nat.add_zero]
      exact Or.inr ⟨0, given, hmistake, heven, rfl, hnot, by simp⟩
    | ok found =>
      have hrest : rest.length % 2 = 0 := by
        simp only [List.length_cons] at heven
        omega
      rcases pairUp_spec kind (start + 1) hrest with
        ⟨clauses, hclauses, hwritten⟩ | ⟨index, given, hmistake, -, hgiven, hnot, hearlier⟩
      · refine Or.inl ⟨_, ?_, .cons pattern hhandler hwritten⟩
        simp only [pairUp, hhandler, hclauses, bind, Except.bind, pure, Except.pure]
      · refine Or.inr ⟨index + 1, given, ?_, heven, hgiven, hnot, ?_⟩
        · simp only [pairUp, hhandler, hmistake, bind, Except.bind]
          rw [Nat.add_assoc, Nat.add_comm 1]
        · intro earlier hlt
          cases earlier with
          | zero => exact ⟨handler, rfl, Item.isCallable_of_handler hhandler⟩
          | succ earlier => exact hearlier earlier (Nat.lt_of_succ_lt_succ hlt)

/-- The check writes out the clauses, or it reports what is wrong. -/
theorem ofItems_spec (kind : HandlerKind η σ ε ρ) (items : List (Item η)) :
    (∃ clauses, ofItems kind items = .ok clauses ∧ Written kind items clauses) ∨
      ∃ mistake, ofItems kind items = .error mistake ∧ Fault items mistake := by
  by_cases heven : items.length % 2 = 0
  · have hitems : ofItems kind items = pairUp kind 0 items := if_neg (by omega)
    rw [hitems]
    rcases pairUp_spec kind 0 heven with hwritten | ⟨index, given, hmistake, hfault⟩
    · exact Or.inl hwritten
    · rw [Nat.zero_add] at hmistake
      exact Or.inr ⟨_, hmistake, hfault⟩
  · exact Or.inr ⟨_, if_pos heven, by omega, rfl⟩

/-! ### The scan -/

/-- What a match against the pattern of a clause comes to. -/
def Clause.outcome (kind : HandlerKind η σ ε ρ) (clause : Clause η) (v : Value) : Outcome :=
  (clause.pattern.matchAgainst v kind.limits none).outcome

/-- The world after a value has been matched against the patterns of clauses, once against each of
them, in their order. -/
def scan (kind : HandlerKind η σ ε ρ) (v : Value) (clauses : List (Clause η)) (w : World σ) :
    World σ :=
  clauses.foldl (fun w clause => (w.matchAgainst clause.pattern v kind.limits).2) w

variable {fallback : Option η} {v : Value} {w : World σ} {clause : Clause η}
  {before after : List (Clause η)}

theorem matchAgainst_eq (kind : HandlerKind η σ ε ρ) (clause : Clause η) (v : Value)
    (w : World σ) :
    w.matchAgainst clause.pattern v kind.limits =
      (clause.outcome kind v, scan kind v [clause] w) :=
  Prod.ext (w.outcome_matchAgainst clause.pattern v kind.limits) rfl

theorem scan_append (kind : HandlerKind η σ ε ρ) (v : Value) (first later : List (Clause η))
    (w : World σ) :
    scan kind v (first ++ later) w = scan kind v later (scan kind v first w) :=
  List.foldl_append

/-- What is answered does not depend on the number at which counting starts. -/
theorem answer_selectFrom (kind : HandlerKind η σ ε ρ) (fallback : Option η) (v : Value)
    (clauses : List (Clause η)) (w : World σ) (start other : Nat) :
    let selected := selectFrom kind.limits fallback v start clauses w
    let again := selectFrom kind.limits fallback v other clauses w
    answer kind v selected.1 selected.2 = answer kind v again.1 again.2 := by
  induction clauses generalizing w start other with
  | nil => cases fallback <;> rfl
  | cons clause rest ih =>
    simp only [selectFrom]
    rcases w.matchAgainst clause.pattern v kind.limits with ⟨_ | _ | _, w⟩
    · rfl
    · exact ih w (start + 1) (other + 1)
    · rfl

theorem run_cons (kind : HandlerKind η σ ε ρ) (fallback : Option η) (v : Value)
    (clause : Clause η) (rest : List (Clause η)) (w : World σ) :
    run kind fallback v (clause :: rest) w =
      match w.matchAgainst clause.pattern v kind.limits with
      | (.matched captures, w) => kind.call clause.handler (.record captures) w
      | (.noMatch, w) => run kind fallback v rest w
      | (.aborted reason, w) => (.error (kind.aborted reason), w) := by
  rw [run, selectFrom]
  rcases w.matchAgainst clause.pattern v kind.limits with ⟨_ | _ | _, w⟩
  · rfl
  · exact answer_selectFrom kind fallback v rest w 1 0
  · rfl

/-- Clauses that do not match are passed by. -/
theorem run_append (hbefore : ∀ clause ∈ before, clause.outcome kind v = .noMatch)
    (after : List (Clause η)) :
    run kind fallback v (before ++ after) w =
      run kind fallback v after (scan kind v before w) := by
  induction before generalizing w with
  | nil => rfl
  | cons clause rest ih =>
    obtain ⟨hclause, hrest⟩ := List.forall_mem_cons.mp hbefore
    simp only [List.cons_append, run_cons, matchAgainst_eq, hclause]
    exact ih hrest

/-- The first clause that is not passed by decides. -/
theorem run_of_aborted (hbefore : ∀ earlier ∈ before, earlier.outcome kind v = .noMatch)
    {reason : Abort} (hclause : clause.outcome kind v = .aborted reason) :
    run kind fallback v (before ++ clause :: after) w =
      (.error (kind.aborted reason), scan kind v (before ++ [clause]) w) := by
  rw [run_append hbefore, scan_append]
  simp only [run_cons, matchAgainst_eq, hclause]

theorem run_of_matched (hbefore : ∀ earlier ∈ before, earlier.outcome kind v = .noMatch)
    {captures : Captures} (hclause : clause.outcome kind v = .matched captures) :
    run kind fallback v (before ++ clause :: after) w =
      kind.call clause.handler (.record captures) (scan kind v (before ++ [clause]) w) := by
  rw [run_append hbefore, scan_append]
  simp only [run_cons, matchAgainst_eq, hclause]

theorem run_of_noMatch (hall : ∀ clause ∈ clauses, clause.outcome kind v = .noMatch) :
    run kind fallback v clauses w =
      match fallback with
      | some handler => kind.call handler v (scan kind v clauses w)
      | none => (.ok kind.noMatch, scan kind v clauses w) := by
  rw [← List.append_nil clauses, run_append hall, List.append_nil]
  cases fallback <;> rfl

/-! ### One value after the other -/

/-- What is answered to values, one after the other in the same world, whether or not there was
an error before. -/
def answers {α : Type} (answer : Value → World σ → α × World σ) :
    List Value → World σ → List α × World σ
  | [], w => ([], w)
  | v :: rest, w =>
    let (first, w) := answer v w
    let (later, w) := answers answer rest w
    (first :: later, w)

theorem answers_map {α β : Type} {answer : Value → World σ → α × World σ}
    {again : Value → World σ → β × World σ} {f : α → β}
    (h : ∀ v w, again v w = (f (answer v w).1, (answer v w).2)) (vs : List Value) (w : World σ) :
    answers again vs w = ((answers answer vs w).1.map f, (answers answer vs w).2) := by
  induction vs generalizing w with
  | nil => rfl
  | cons v rest ih => simp only [answers, h, ih, List.map_cons]

theorem dispatch_of_written (h : Written kind items clauses) (fallback : Option η) (v : Value)
    (w : World σ) :
    dispatch kind items fallback v w =
      (.ok (run kind fallback v clauses w).1, (run kind fallback v clauses w).2) := by
  rw [dispatch, ofItems_of_written h]

/-- Dispatch calls one handler, once, and the right one, whatever kind of handlers there are. In a
malformed list what is wrong is reported before anything else happens, and no dispatcher is built.
From any other list a dispatcher is built, and it answers through the clauses as they are written.
The first clause whose match does not fail decides: where the match is given up, that is the answer
and nothing is called; where there are captures, the handler of the clause is called with them, in
the world after the scan up to this clause. If all matches fail, the fallback is called with the
value itself, after the whole scan, or there is no match. On a sequence of values, the dispatcher
answers each one as a fresh dispatch on the list would, whatever has been answered before. -/
theorem dispatch_answers (kind : HandlerKind η σ ε ρ) (items : List (Item η))
    (fallback : Option η) :
    (Malformed items → ∃ mistake, Fault items mistake ∧
      dispatcher kind items fallback = .error mistake ∧
      ∀ v w, dispatch kind items fallback v w = (.error mistake, w)) ∧
    (¬ Malformed items → ∃ clauses answer, Written kind items clauses ∧
      dispatcher kind items fallback = .ok answer ∧
      (∀ v w, dispatch kind items fallback v w = (.ok (answer v w).1, (answer v w).2)) ∧
      (∀ before clause after v w, clauses = before ++ clause :: after →
        (∀ earlier ∈ before, earlier.outcome kind v = .noMatch) →
        (∀ reason, clause.outcome kind v = .aborted reason →
          answer v w = (.error (kind.aborted reason), scan kind v (before ++ [clause]) w)) ∧
        (∀ captures, clause.outcome kind v = .matched captures →
          answer v w =
            kind.call clause.handler (.record captures) (scan kind v (before ++ [clause]) w))) ∧
      (∀ v w, (∀ clause ∈ clauses, clause.outcome kind v = .noMatch) →
        answer v w =
          match fallback with
          | some handler => kind.call handler v (scan kind v clauses w)
          | none => (.ok kind.noMatch, scan kind v clauses w)) ∧
      ∀ vs w, answers (dispatch kind items fallback) vs w =
        ((answers answer vs w).1.map .ok, (answers answer vs w).2)) := by
  rcases ofItems_spec kind items with ⟨clauses, hclauses, hwritten⟩ | ⟨mistake, hmistake, hfault⟩
  · refine ⟨fun hmalformed => absurd hmalformed hwritten.not_malformed, fun _ => ?_⟩
    have hdispatch := dispatch_of_written hwritten fallback
    refine ⟨clauses, fun v => run kind fallback v clauses, hwritten, ?_, hdispatch, ?_, ?_, ?_⟩
    · rw [dispatcher, hclauses]
      rfl
    · rintro before clause after v w rfl hbefore
      exact ⟨fun reason => run_of_aborted hbefore, fun captures => run_of_matched hbefore⟩
    · intro v w hall
      exact run_of_noMatch hall
    · exact answers_map hdispatch
  · refine ⟨fun _ => ⟨mistake, hfault, ?_, fun v w => ?_⟩,
      fun hproper => absurd hfault.malformed hproper⟩
    · rw [dispatcher, hmistake]
      rfl
    · rw [dispatch, hmistake]

/-- Of two clauses with callables the second one matches. Its callable is called once, as the world
shows that keeps all arguments, and that of the first clause is not. -/
theorem dispatch_answers_second :
    let keep : Callable (List Value) Unit Nat := fun argument w =>
      (.ok w.state.length, { w with state := argument :: w.state })
    let setting : Setting Unit Nat := ⟨.standard, fun _ => 0, 0, fun _ => (), fun _ => ()⟩
    let items := [.value (.int 1), .handler keep,
      .value (.pattern (.named "a" .wildcard)), .handler keep]
    ¬ Malformed items ∧ dispatch setting.callables items none (.int 2) ⟨.off, []⟩ =
      (.ok (.ok 0), ⟨.off, [.record [("a", .int 2)]]⟩) := by
  intro keep setting items
  have hitems : Written setting.callables items
      [⟨.literal (.int 1), keep⟩, ⟨.named "a" .wildcard, keep⟩] :=
    .cons (.value (.int 1)) rfl (.cons (.value (.pattern (.named "a" .wildcard))) rfl .nil)
  have hproper := hitems.not_malformed
  obtain ⟨clauses, answer, hwritten, -, hdispatch, hdecides, -⟩ :=
    (dispatch_answers setting.callables items none).2 hproper
  -- What is written in the list is no choice, so the clauses are known.
  have hclauses := (ofItems_of_written hwritten).symm.trans (ofItems_of_written hitems)
  cases hclauses
  have hanswer := (hdecides [⟨.literal (.int 1), keep⟩] ⟨.named "a" .wildcard, keep⟩ []
    (.int 2) ⟨.off, []⟩ rfl (List.forall_mem_singleton.mpr rfl)).2 [("a", .int 2)] rfl
  refine ⟨hproper, ?_⟩
  rw [hdispatch, hanswer]
  rfl

end Dispatch

/-- To dispatch on a table is to dispatch on its items, with handlers of its kind. -/
theorem Table.dispatch_items (o : Observation) (items : List ClauseItem)
    (fallback : Option Handler) (v : Value) :
    Dispatch.dispatch Handler.kind items fallback v ⟨o, ()⟩ =
      match ofItems items fallback with
      | .error mistake => (.error mistake, ⟨o, ()⟩)
      | .ok table => (.ok (table.dispatch o v).1.reply, ⟨(table.dispatch o v).2, ()⟩) := by
  rw [Dispatch.dispatch, ofItems]
  cases Dispatch.ofItems Handler.kind items <;> rfl

end Motif
