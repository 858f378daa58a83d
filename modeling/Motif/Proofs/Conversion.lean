import Motif.Matching
import Motif.Proofs.Pairing
import Motif.Proofs.RoundTrip

/-!
Tuples and lists are the same to a match. A pattern asks a sequence for its items and never for
its form; only a literal that holds a sequence or a mapping itself could tell. So a match may be
made on plain data in place of the value that it stands for: it takes the same steps, records the
same decisions and comes to the same answer, and what it captures is the plain data of what would
have been captured. Slices are no exception, since the slice of a list is the plain data of the
same slice of a tuple.
-/

namespace Motif

namespace Value

/-- Whether a value holds others: items, or entries. -/
def isContainer : Value → Bool
  | .seq .. | .dict _ => true
  | .null | .bool _ | .int _ | .float _ | .str _ | .bytes _ | .object _ | .pattern _ | .marker _ =>
    false

theorem allAsData_eq_map (vs : List Value) : allAsData vs = vs.map asData := by
  induction vs with
  | nil => rfl
  | cons v rest ih => rw [allAsData, ih, List.map_cons]

theorem asData_seq (form : Form) (items : List Value) :
    asData (.seq form items) = .seq .list (items.map asData) := by
  rw [asData, allAsData_eq_map]

theorem kind_asData (v : Value) : v.asData.kind = v.kind := by
  cases v <;> rfl

/-- What is no container equals a value just when it equals the plain data of the value. -/
theorem strictlyEqual_asData {expected : Value} (h : expected.isContainer = false) (v : Value) :
    expected.strictlyEqual v.asData = expected.strictlyEqual v := by
  cases v with
  | seq form items | dict entries =>
    cases expected with
    | seq form others | dict others => cases h
    | _ => rfl
  | _ => rfl

end Value

namespace Captures

/-- The same labels in the same order, with the plain data of what they stand for. -/
def asData (captures : Captures) : Captures := Entries.mapValues Value.asData captures

theorem put_asData (label : String) (v : Value) (captures : Captures) :
    Entries.put label v.asData (asData captures) = asData (Entries.put label v captures) := by
  induction captures with
  | nil => rfl
  | cons entry rest ih =>
    simp only [asData, Entries.mapValues, List.map_cons, Entries.put] at ih ⊢
    split
    · rfl
    · rw [ih, List.map_cons]

end Captures

/-- The same outcome, with the plain data of what is captured if it is a match. -/
def Outcome.asData : Outcome → Outcome
  | .matched captures => .matched captures.asData
  | .noMatch => .noMatch
  | .aborted reason => .aborted reason

theorem Outcome.isMatched_asData (outcome : Outcome) :
    outcome.asData.isMatched = outcome.isMatched := by
  cases outcome <;> rfl

namespace Run

/-- The second run does on plain data what the first one does on the value. -/
abbrev Converts (run run' : Captures → Run) : Prop :=
  Lockstep (fun captures captures' => captures' = captures.asData) run run'

theorem paired_converts : Paired Converts := paired_lockstep _

variable {run run' : Captures → Run}

theorem Converts.apply (h : Converts run run') (captures : Captures) (s : Search) :
    run' captures.asData s = ((run captures s).1.asData, (run captures s).2) := by
  obtain ⟨houtcome, hstate⟩ := h captures _ rfl s
  refine Prod.ext ?_ hstate.symm
  generalize (run captures s).1 = outcome, (run' captures.asData s).1 = outcome' at houtcome
  cases houtcome with
  | matched hmade => exact congrArg Outcome.matched hmade
  | noMatch => rfl
  | aborted reason => rfl

theorem converts_named (h : Converts run run') (label : String) (v : Value) :
    Converts (fun captures => andThen (run captures) fun made => succeed (made.put label v))
      fun captures => andThen (run' captures) fun made => succeed (made.put label v.asData) := by
  refine paired_converts.andThen h fun captures captures' hcaptures s => ⟨.matched ?_, rfl⟩
  rw [hcaptures]
  exact captures.put_asData label v

variable {bind : Value → Captures → Run}

theorem converts_bindEach (hbind : ∀ v, Converts (bind v) (bind v.asData))
    (bounds : Option Bounds) (v : Value) :
    Converts (bindEach bounds bind v) (bindEach bounds bind v.asData) := by
  unfold bindEach
  cases v with
  | seq form items =>
    simp only [Value.asData_seq, Value.items?, List.length_map]
    cases Bounds.allow bounds items.length with
    | true =>
      simp only [if_true, inTurn_map]
      exact paired_converts.inTurn fun item _ => hbind item
    | false => exact paired_converts.fail
  | _ => exact paired_converts.fail

/-- A walk over the plain data of items tries the same lengths as one over the items. -/
theorem converts_walk (lengths : LengthPolicy) (form : Form) {chunks : List (Chunk Matcher)}
    (hchunks : ∀ chunk ∈ chunks, ∀ matcher ∈ chunk.elements, ∀ v,
      Converts (matcher.bind v) (matcher.bind v.asData)) (ci xi : Nat) (items : List Value) :
    Converts (Sequence.walk lengths form ci chunks xi items)
      (Sequence.walk lengths .list ci chunks xi (items.map Value.asData)) := by
  induction chunks generalizing ci xi items with
  | nil =>
    simp only [Sequence.walk, List.isEmpty_map]
    exact paired_converts.guard items.isEmpty
  | cons chunk rest ih =>
    obtain ⟨hown, hlater⟩ := List.forall_mem_cons.mp hchunks
    cases chunk with
    | fixed matchers =>
      simp only [Sequence.walk, List.length_map, ← List.map_drop]
      refine paired_converts.counted ?_
      by_cases hnarrow : items.length < matchers.length
      · simp only [hnarrow, if_true]
        exact paired_converts.noting _ rfl paired_converts.fail
      · simp only [hnarrow, if_false, List.zip_map_right, inTurn_map]
        have hturn := paired_converts.inTurn fun part (hpart : part ∈ matchers.zip items) =>
          hown part.1 (List.of_mem_zip hpart).1 part.2
        have hfixed := paired_converts.orElse hturn
          (paired_converts.noting (.fixed ci xi matchers.length false) rfl paired_converts.fail)
        exact paired_converts.andThen hfixed (paired_converts.noting _ rfl (ih hlater _ _ _))
    | repeated matcher repetition =>
      simp only [Sequence.walk, List.length_map, ← List.map_drop, ← List.map_take]
      refine paired_converts.counted (paired_converts.firstOf fun take _ => ?_)
      have hslice := hown matcher List.mem_cons_self (.seq form (items.take take))
      rw [Value.asData_seq] at hslice
      exact paired_converts.noting _ rfl (paired_converts.andThen hslice (ih hlater _ _ _))

end Run

namespace Pattern

open Run

theorem mem_allLiterals {ps : List (Pattern Value)} {w : Value} :
    w ∈ allLiterals ps ↔ ∃ p ∈ ps, w ∈ p.literals := by
  induction ps with
  | nil => simp [allLiterals]
  | cons p rest ih => simp [allLiterals, ih]

theorem converts_options {lengths : LengthPolicy} {options : List (Pattern Value)} {v : Value}
    (h : ∀ p ∈ options, Converts (bindWith lengths p v) (bindWith lengths p v.asData)) :
    Converts
      (fun captures => firstOf (matchersWith lengths options) fun option =>
        option.bind v captures)
      fun captures => firstOf (matchersWith lengths options) fun option =>
        option.bind v.asData captures := by
  simp only [matchersWith_eq_map, firstOf_map]
  exact paired_converts.firstOf h

theorem converts_elements {lengths : LengthPolicy} {elements : List (Pattern Value)}
    (h : ∀ p ∈ elements, ∀ v, Converts (bindWith lengths p v) (bindWith lengths p v.asData))
    (form : Form) (items : List Value) :
    Converts
      (Sequence.walk lengths form 0
        (Chunk.cut Matcher.repetition? (matchersWith lengths elements)) 0 items)
      (Sequence.walk lengths .list 0
        (Chunk.cut Matcher.repetition? (matchersWith lengths elements)) 0
        (items.map Value.asData)) := by
  refine converts_walk lengths form (fun chunk hchunk m hm v => ?_) 0 0 items
  have hmem : m ∈ matchersWith lengths elements := by
    rw [← Chunk.flatMap_elements_cut Matcher.repetition? (matchersWith lengths elements)]
    exact List.mem_flatMap.mpr ⟨chunk, hchunk, hm⟩
  rw [matchersWith_eq_map] at hmem
  obtain ⟨p, hp, rfl⟩ := List.mem_map.mp hmem
  exact h p hp v

theorem converts_bindWith (lengths : LengthPolicy) (p : Pattern Value)
    (h : ∀ w ∈ p.literals, w.isContainer = false) (v : Value) :
    Converts (bindWith lengths p v) (bindWith lengths p v.asData) := by
  induction p using Pattern.induction generalizing v with
  | wildcard => exact paired_converts.succeed
  | literal expected =>
    have hsame := Value.strictlyEqual_asData (h expected (List.mem_singleton.mpr rfl)) v
    simp only [bindWith, hsame]
    exact paired_converts.guard _
  | typeCheck kind =>
    simp only [bindWith, Value.kind_asData]
    exact paired_converts.guard _
  | alternation options ih | choiceFrom source options ih =>
    exact converts_options fun p hp =>
      ih p hp (fun w hw => h w (mem_allLiterals.mpr ⟨p, hp, hw⟩)) v
  | sequence elements ih =>
    have helements : ∀ p ∈ elements, ∀ v,
        Converts (bindWith lengths p v) (bindWith lengths p v.asData) :=
      fun p hp => ih p hp fun w hw => h w (mem_allLiterals.mpr ⟨p, hp, hw⟩)
    cases v with
    | seq form items =>
      simp only [bindWith, Value.asData_seq, Value.items?]
      exact lockstep_nested (converts_elements helements form items)
    | _ => exact paired_converts.fail
  | repeated inner mode bounds ih => exact converts_bindEach (ih h) bounds v
  | arrayOf inner bounds ih => exact lockstep_nested (converts_bindEach (ih h) bounds v)
  | named label inner ih => exact converts_named (ih h v) label v
  | unspecified tag => exact lockstep_abort _
  | misfit flaw value => exact lockstep_abort _

/-- Tuples and lists are the same candidate. Where no literal of a pattern is a sequence or a
mapping, a match of the plain data of a value gives the report of a match of the value: the same
answer or the same error, after the same number of steps and with the same record, and the same
labels in the same order, each with the plain data of what is captured under it. The shared tracer
cannot tell the two matches apart either. -/
theorem matchAgainst_asData {p : Pattern Value}
    (hliterals : ∀ w ∈ p.literals, w.isContainer = false) (v : Value) (limits : Limits) :
    (∀ tracer, p.matchAgainst v.asData limits tracer =
      { p.matchAgainst v limits tracer with
        outcome := (p.matchAgainst v limits tracer).outcome.asData }) ∧
    ∀ o : Observation, o.matchAgainst p v.asData limits =
      ((o.matchAgainst p v limits).1.asData, (o.matchAgainst p v limits).2) := by
  have hmatch : ∀ tracer, p.matchAgainst v.asData limits tracer =
      { p.matchAgainst v limits tracer with
        outcome := (p.matchAgainst v limits tracer).outcome.asData } := by
    intro tracer
    let s := Search.fresh limits (tracer.map (·.note .started))
    have hbind : p.bind v.asData [] s = ((p.bind v [] s).1.asData, (p.bind v [] s).2) :=
      (converts_bindWith Repetition.lengths p hliterals v).apply [] s
    simp only [matchAgainst, s, hbind, Outcome.isMatched_asData]
  refine ⟨hmatch, fun o => ?_⟩
  unfold Observation.matchAgainst
  split
  · rw [hmatch]
  · rw [hmatch]

/-- A slice of a tuple that holds a mapping is captured as a list, with a list in the mapping. -/
theorem matchAgainst_asData_slice :
    let p : Pattern Value := .sequence [.literal (.int 1),
      .named "rest" (.repeated .wildcard .greedy none),
      .named "last" (.arrayOf (.typeCheck .number) none)]
    let held : List (Value × Value) := [(.tuple [.int 0], .tuple [.int 2])]
    let v := Value.tuple [.int 1, .dict held, .tuple [.null], .tuple [.int 3]]
    (∀ w ∈ p.literals, w.isContainer = false) ∧
      (p.matchAgainst v.asData .standard none).steps = 3 ∧
      (p.matchAgainst v.asData .standard none).outcome = .matched
        [("rest", .list [.dict [(.tuple [.int 0], .list [.int 2])], .list [.null]]),
          ("last", .list [.int 3])] := by
  intro p held v
  have hliterals : ∀ w ∈ p.literals, w.isContainer = false :=
    List.forall_mem_singleton.mpr rfl
  obtain ⟨hreport, -⟩ := matchAgainst_asData hliterals v .standard
  rw [hreport]
  exact ⟨hliterals, rfl, rfl⟩

/-- A literal that is a sequence itself tells a tuple from a list. -/
example :
    let p : Pattern Value := .literal (.tuple [])
    (p.matchAgainst (.tuple []) .standard none).outcome = .matched [] ∧
      (p.matchAgainst (Value.tuple []).asData .standard none).outcome = .noMatch :=
  ⟨rfl, rfl⟩

end Pattern

end Motif
