import Motif.Dispatch.Table
import Motif.Proofs.Decision
import Motif.Proofs.Naming
import Motif.Proofs.Watching

/-!
Which labels a match binds can be read off the pattern. Nothing is bound but the labels that
occur in it. A label is sure to be bound if it stands where every match has to pass: not only in
one of several options, and not only in a repetition that may do without items. Limits have no
part in it, since they only keep a search from matching. So a handler that reads the entry of a
sure label always finds it.
-/

namespace Motif

namespace Pattern

section

variable {α : Type}

mutual

/-- Whether every match of a pattern binds a label. A choice is sure of what all its options are
sure of, so one without options, which never matches, is sure of everything. A repetition is sure
of nothing unless its bounds ask for an item. -/
def surelyBinds (label : String) : Pattern α → Bool
  | .named own inner => own == label || surelyBinds label inner
  | .sequence elements => anySurelyBinds label elements
  | .alternation options | .choiceFrom _ options => allSurelyBind label options
  | .repeated inner _ bounds | .arrayOf inner bounds =>
    decide (1 ≤ Bounds.least bounds) && surelyBinds label inner
  | .wildcard | .literal _ | .typeCheck _ | .unspecified _ | .misfit .. => false
termination_by structural p => p

def anySurelyBinds (label : String) : List (Pattern α) → Bool
  | [] => false
  | p :: rest => surelyBinds label p || anySurelyBinds label rest
termination_by structural ps => ps

def allSurelyBind (label : String) : List (Pattern α) → Bool
  | [] => true
  | p :: rest => surelyBinds label p && allSurelyBind label rest
termination_by structural ps => ps

end

theorem anySurelyBinds_iff (label : String) (ps : List (Pattern α)) :
    anySurelyBinds label ps = true ↔ ∃ p ∈ ps, p.surelyBinds label = true := by
  induction ps with
  | nil => simp [anySurelyBinds]
  | cons p rest ih => simp [anySurelyBinds, ih]

theorem allSurelyBind_iff (label : String) (ps : List (Pattern α)) :
    allSurelyBind label ps = true ↔ ∀ p ∈ ps, p.surelyBinds label = true := by
  induction ps with
  | nil => simp [allSurelyBind]
  | cons p rest ih => simp [allSurelyBind, ih]

theorem mem_allLabels {ps : List (Pattern α)} {p : Pattern α} {label : String} (hp : p ∈ ps)
    (h : label ∈ p.labels) : label ∈ allLabels ps := by
  rw [allLabels_eq_flatMap]
  exact List.mem_flatMap.mpr ⟨p, hp, h⟩

end

/-- What is captured together is captured by one of the parts, and what a part captures on its own
is captured by all together. -/
theorem YieldsAll.mem_keys_iff {parts : List (Pattern Value × Value)} {made : Captures}
    (h : YieldsAll parts made) {label : String} :
    label ∈ made.keys ↔ ∃ part ∈ parts, ∃ own, Yields part.1 part.2 own ∧ label ∈ own.keys := by
  induction parts generalizing made with
  | nil =>
    cases h
    simp [Entries.keys]
  | cons part rest ih =>
    cases h with
    | @cons p v parts own later hfirst hrest =>
      have happend : label ∈ (own ++ later).keys ↔ label ∈ own.keys ∨ label ∈ later.keys := by
        rw [Entries.keys, List.map_append]
        exact List.mem_append
      rw [happend, ih hrest]
      constructor
      · rintro (hown | ⟨other, hother, hyields⟩)
        · exact ⟨_, List.mem_cons_self, own, hfirst, hown⟩
        · exact ⟨other, List.mem_cons_of_mem _ hother, hyields⟩
      · rintro ⟨other, hother, made, hyields, hlabel⟩
        rcases List.mem_cons.mp hother with rfl | hother
        · rw [hyields.unique hfirst] at hlabel
          exact Or.inl hlabel
        · exact Or.inr ⟨other, hother, made, hyields, hlabel⟩

end Pattern

/-- Every element of a sequence gets a piece of a cut. -/
theorem Sequence.exists_piece {form : Form} {elements : List (Pattern Value)} {lengths : List Nat}
    {items : List Value} {parts : List (Pattern Value × Value)}
    (hcut : pieces form elements lengths items = some parts) {p : Pattern Value}
    (hp : p ∈ elements) : ∃ piece, (p, piece) ∈ parts := by
  rw [← map_fst_of_pieces hcut] at hp
  obtain ⟨part, hpart, rfl⟩ := List.mem_map.mp hp
  exact ⟨part.2, hpart⟩

namespace Pattern

/-- Only labels that occur in the pattern are captured. -/
theorem Yields.mem_labels {p : Pattern Value} {v : Value} {made : Captures}
    (h : Yields p v made) {label : String} (hlabel : label ∈ made.keys) : label ∈ p.labels := by
  induction p using Pattern.induction generalizing v made with
  | wildcard | literal expected | typeCheck kind =>
    cases h
    cases hlabel
  | alternation options ih =>
    cases h with
    | alternation hoptions _ h =>
      have hp := hoptions ▸ List.mem_append_right _ List.mem_cons_self
      exact mem_allLabels hp (ih _ hp h hlabel)
  | choiceFrom source options ih =>
    cases h with
    | choiceFrom hoptions _ h =>
      have hp := hoptions ▸ List.mem_append_right _ List.mem_cons_self
      exact mem_allLabels hp (ih _ hp h hlabel)
  | sequence elements ih =>
    cases h with
    | sequence _ hcut h =>
      obtain ⟨part, hpart, own, hown, hlabel⟩ := h.mem_keys_iff.mp hlabel
      have hp := Sequence.mem_of_mem_pieces hcut hpart
      exact mem_allLabels hp (ih _ hp hown hlabel)
  | repeated inner mode bounds ih =>
    cases h with
    | repeated _ h =>
      obtain ⟨part, hpart, own, hown, hlabel⟩ := h.mem_keys_iff.mp hlabel
      obtain ⟨item, -, rfl⟩ := List.mem_map.mp hpart
      exact ih hown hlabel
  | arrayOf inner bounds ih =>
    cases h with
    | arrayOf _ h =>
      obtain ⟨part, hpart, own, hown, hlabel⟩ := h.mem_keys_iff.mp hlabel
      obtain ⟨item, -, rfl⟩ := List.mem_map.mp hpart
      exact ih hown hlabel
  | named own inner ih =>
    cases h with
    | @named _ _ _ made h =>
      rw [Entries.keys, List.map_append] at hlabel
      rcases List.mem_append.mp hlabel with hinner | hown
      · exact List.mem_cons_of_mem own (ih h hinner)
      · rw [List.mem_singleton.mp hown]
        exact List.mem_cons_self
  | unspecified tag => cases h
  | misfit flaw value => cases h

/-- A repetition that has to take an item captures what all its items capture. -/
theorem mem_keys_of_repeated {inner : Pattern Value} {bounds : Option Bounds} {items : List Value}
    {made : Captures} {label : String} (hleast : 1 ≤ Bounds.least bounds)
    (hlength : Bounds.allow bounds items.length = true)
    (h : YieldsAll (items.map (Prod.mk inner)) made)
    (hinner : ∀ item own, Yields inner item own → label ∈ own.keys) : label ∈ made.keys := by
  have hsome : Bounds.least bounds ≤ items.length :=
    @Repetition.least_le_of_allow ⟨.greedy, bounds⟩ _ hlength
  obtain ⟨item, hitem⟩ := List.exists_mem_of_length_pos (Nat.le_trans hleast hsome)
  have hpart : (inner, item) ∈ items.map (Prod.mk inner) := List.mem_map_of_mem hitem
  obtain ⟨own, hown⟩ := h.exists_yields _ hpart
  exact h.mem_keys_iff.mpr ⟨_, hpart, own, hown, hinner item own hown⟩

/-- What a pattern is sure of is captured. -/
theorem Yields.mem_keys {p : Pattern Value} {v : Value} {made : Captures} (h : Yields p v made)
    {label : String} (hsure : p.surelyBinds label = true) : label ∈ made.keys := by
  induction p using Pattern.induction generalizing v made with
  | wildcard | literal expected | typeCheck kind => cases hsure
  | alternation options ih =>
    cases h with
    | alternation hoptions _ h =>
      have hp := hoptions ▸ List.mem_append_right _ List.mem_cons_self
      exact ih _ hp h ((allSurelyBind_iff label options).mp hsure _ hp)
  | choiceFrom source options ih =>
    cases h with
    | choiceFrom hoptions _ h =>
      have hp := hoptions ▸ List.mem_append_right _ List.mem_cons_self
      exact ih _ hp h ((allSurelyBind_iff label options).mp hsure _ hp)
  | sequence elements ih =>
    cases h with
    | sequence _ hcut h =>
      obtain ⟨p, hp, hsure⟩ := (anySurelyBinds_iff label elements).mp hsure
      obtain ⟨piece, hpart⟩ := Sequence.exists_piece hcut hp
      obtain ⟨own, hown⟩ := h.exists_yields _ hpart
      exact h.mem_keys_iff.mpr ⟨_, hpart, own, hown, ih p hp hown hsure⟩
  | repeated inner mode bounds ih =>
    obtain ⟨hleast, hsure⟩ := Bool.and_eq_true_iff.mp hsure
    cases h with
    | repeated hlength h =>
      exact mem_keys_of_repeated (of_decide_eq_true hleast) hlength h fun item own hown =>
        ih hown hsure
  | arrayOf inner bounds ih =>
    obtain ⟨hleast, hsure⟩ := Bool.and_eq_true_iff.mp hsure
    cases h with
    | arrayOf hlength h =>
      exact mem_keys_of_repeated (of_decide_eq_true hleast) hlength h fun item own hown =>
        ih hown hsure
  | named own inner ih =>
    cases h with
    | @named _ _ _ made h =>
      rw [Entries.keys, List.map_append]
      rcases Bool.or_eq_true_iff.mp hsure with hown | hinner
      · rw [eq_of_beq hown]
        exact List.mem_append_right _ List.mem_cons_self
      · exact List.mem_append_left _ (ih h hinner)
  | unspecified tag => cases h
  | misfit flaw value => cases h

/-- What a match captures, whatever the limits, is what the pattern yields. -/
theorem exists_yields_of_matched {p : Pattern Value} {v : Value} {limits : Limits}
    {tracer : Option Tracer} {captures : Captures}
    (h : (p.matchAgainst v limits tracer).outcome = .matched captures) :
    ∃ made, Yields p v made ∧ captures = Entries.overlay [] made :=
  (decides Repetition.faithful_lengths p v []).matched h

end Pattern

namespace Table

variable {o : Observation} {w w' : World Unit} {v : Value} {index : Nat} {handler : Handler}
  {captures : Captures}

/-- A clause is only selected when its pattern matches, and the captures are those of the match. -/
theorem exists_clause_of_selectFrom {limits : Limits} {fallback : Option Handler} {start : Nat}
    {clauses : List (Dispatch.Clause Handler)}
    (h : Dispatch.selectFrom limits fallback v start clauses w =
      (.clause index handler captures, w')) :
    start ≤ index ∧ ∃ clause, clauses[index - start]? = some clause ∧ clause.handler = handler ∧
      (clause.pattern.matchAgainst v limits none).outcome = .matched captures := by
  induction clauses generalizing w start with
  | nil => cases fallback <;> cases h
  | cons clause rest ih =>
    have hmatch := w.observation.outcome_matchAgainst clause.pattern v limits
    simp only [Dispatch.selectFrom, World.matchAgainst] at h
    rcases hrun : w.observation.matchAgainst clause.pattern v limits with
      ⟨found | _ | reason, after⟩
    · rw [hrun] at h hmatch
      cases h
      exact ⟨Nat.le_refl _, clause, by simp, rfl, hmatch.symm⟩
    · rw [hrun] at h
      obtain ⟨hlater, other, hother, hfound⟩ := ih h
      have hindex : index - start = index - (start + 1) + 1 := by omega
      exact ⟨by omega, other, by rw [hindex]; exact hother, hfound⟩
    · rw [hrun] at h
      cases h

/-- When a clause answers, its handler was applied to what its pattern captured. -/
theorem exists_clause_of_dispatch {table : Table}
    (h : (table.dispatch o v).1.selection = .clause index handler captures) :
    ∃ clause, table.clauses[index]? = some clause ∧ clause.handler = handler ∧
      (clause.pattern.matchAgainst v Limits.standard none).outcome = .matched captures ∧
      ∃ o', (table.dispatch o v).1.reply = (handler.apply o' (.record captures)).1 := by
  unfold dispatch at h ⊢
  rcases hselect : Dispatch.selectFrom Handler.kind.limits table.fallback v 0 table.clauses ⟨o, ()⟩
    with ⟨selection, w⟩
  rw [hselect] at h
  obtain rfl : selection = .clause index handler captures := h
  obtain ⟨-, clause, hclause, hhandler, hmatched⟩ := exists_clause_of_selectFrom hselect
  exact ⟨clause, hclause, hhandler, hmatched, w.observation, rfl⟩

end Table

namespace Pattern

/-- What a match has captured, within any limits, has every label that the pattern is sure of and
no label but the pattern's own. -/
theorem keys_of_matched {p : Pattern Value} {v : Value} {limits : Limits}
    {tracer : Option Tracer} {captures : Captures}
    (h : (p.matchAgainst v limits tracer).outcome = .matched captures) :
    (∀ label, p.surelyBinds label = true → label ∈ captures.keys) ∧
      ∀ label ∈ captures.keys, label ∈ p.labels := by
  obtain ⟨made, hmade, rfl⟩ := exists_yields_of_matched h
  refine ⟨fun label hsure => ?_, fun label hlabel => ?_⟩
  · exact Entries.mem_keys_overlay.mpr (Or.inr (hmade.mem_keys hsure))
  · rcases Entries.mem_keys_overlay.mp hlabel with hnone | hlabel
    · cases hnone
    · exact hmade.mem_labels hlabel

/-- The labels that a match binds, within any limits: those that the pattern is sure of are bound,
and none that does not occur in it. So when a clause answers whose handler reads the entry of a
sure label, the handler finds it. -/
theorem matchAgainst_labels (p : Pattern Value) (v : Value) (limits : Limits)
    (tracer : Option Tracer) :
    (∀ captures, (p.matchAgainst v limits tracer).outcome = .matched captures →
      (∀ label, p.surelyBinds label = true → label ∈ captures.keys) ∧
        ∀ label ∈ captures.keys, label ∈ p.labels) ∧
    ∀ (o : Observation) (table : Table) (index : Nat) (label : String),
      table.clauses[index]? = some ⟨p, .entry label⟩ → p.surelyBinds label = true →
      ∀ handler captures, (table.dispatch o v).1.selection = .clause index handler captures →
        ∃ found, (table.dispatch o v).1.reply = .ok (.value found) := by
  refine ⟨fun captures hmatched => keys_of_matched hmatched, ?_⟩
  intro o table index label hclause hsure handler captures hselection
  obtain ⟨clause, hfound, hhandler, hmatched, o', hreply⟩ :=
    Table.exists_clause_of_dispatch hselection
  rw [hclause] at hfound
  cases hfound
  cases hhandler
  obtain ⟨found, hentry⟩ :=
    Entries.exists_find?_of_mem_keys ((keys_of_matched hmatched).1 label hsure)
  refine ⟨found, ?_⟩
  rw [hreply]
  simp only [Handler.apply, Value.record, Value.labelledEntry, Value.lookUp?_record, hentry]
  rfl

/-- Either option binds the head, and the repetition has to take an item; the rest may be empty. -/
theorem matchAgainst_labels_optional :
    let p : Pattern Value := .sequence
      [.alternation [.named "head" (.literal (.int 1)), .sequence [.named "head" .wildcard]],
        .repeated (.named "item" .wildcard) .greedy (some ⟨1, 2, by decide⟩),
        .repeated (.named "rest" .wildcard) .lazy none]
    let v := Value.list [.list [.int 0], .str "a", .str "b"]
    let table : Table := ⟨[⟨.literal .null, .entry "rest"⟩, ⟨p, .entry "item"⟩], none⟩
    let captures : Captures := [("head", .int 0), ("item", .str "b")]
    (p.matchAgainst v Limits.standard none).outcome = .matched captures ∧
      "item" ∈ captures.keys ∧ (∀ label ∈ captures.keys, label ∈ p.labels) ∧
      p.surelyBinds "rest" = false ∧ "rest" ∉ captures.keys ∧
      ∃ found, (table.dispatch .off v).1.reply = .ok (.value found) := by
  intro p v table captures
  obtain ⟨hbinds, hreads⟩ := matchAgainst_labels p v Limits.standard none
  have hmatched : (p.matchAgainst v Limits.standard none).outcome = .matched captures := rfl
  obtain ⟨hsure, hown⟩ := hbinds captures hmatched
  refine ⟨hmatched, hsure "item" rfl, hown, rfl, by decide, ?_⟩
  exact hreads .off table 1 "item" rfl rfl (.entry "item") captures rfl

end Pattern

end Motif
