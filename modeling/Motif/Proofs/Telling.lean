import Motif.Proofs.History
import Motif.Proofs.Reassembly
import Motif.Proofs.Transcript

/-!
What the record of a match tells of its captures. A walk notes each attempt that it makes, and it
takes none of them back when it gives up a branch. Still the way in which the items were taken in
the end can be read from the record: when a chunk is left for good, all later decisions are about
the chunks after it, so the last decision about each chunk is the one that holds. This needs that
nothing else writes to the record in between, and so that no sequence is part of an element.
-/

namespace Motif

namespace Decision

/-- The number of the chunk that a decision is about. -/
def chunk? : Decision → Option Nat
  | .fixed chunk .. | .repeated chunk .. => some chunk
  | .started | .ended .. => none

/-- The items that a chunk takes by a decision: the number of the first one, and how many. -/
def span? : Decision → Option (Nat × Nat)
  | .fixed _ item width true => some (item, width)
  | .repeated _ item take _ => some (item, take)
  | .fixed _ _ _ false | .started | .ended .. => none

/-- Whether a decision is about the chunk with a number or a later one. -/
def From (ci : Nat) (d : Decision) : Prop := ∃ chunk, d.chunk? = some chunk ∧ ci ≤ chunk

/-- Whether a decision is among others, and none after it is about the same chunk. -/
def Final (ds : List Decision) (d : Decision) : Prop :=
  ∃ before after, ds = before ++ d :: after ∧ ∀ other ∈ after, other.chunk? ≠ d.chunk?

variable {ci : Nat} {d : Decision} {ds : List Decision}

theorem From.weaken (h : d.From (ci + 1)) : d.From ci := by
  obtain ⟨chunk, hchunk, hle⟩ := h
  exact ⟨chunk, hchunk, Nat.le_of_succ_le hle⟩

theorem Final.append_left (h : Final ds d) (earlier : List Decision) :
    Final (earlier ++ ds) d := by
  obtain ⟨before, after, rfl, hlater⟩ := h
  exact ⟨earlier ++ before, after, (List.append_assoc _ _ _).symm, hlater⟩

theorem final_cons (hchunk : d.chunk? = some ci) (hlater : ∀ other ∈ ds, other.From (ci + 1)) :
    Final (d :: ds) d := by
  refine ⟨[], ds, rfl, fun other hother hsame => ?_⟩
  obtain ⟨chunk, hchunk', hle⟩ := hlater other hother
  rw [hsame, hchunk] at hchunk'
  cases hchunk'
  exact Nat.not_succ_le_self ci hle

end Decision

namespace Sequence

open Pattern

/-- Whether spans follow each other from one number to another one without a gap or an overlap. -/
def Tiles : Nat → Nat → List (Nat × Nat) → Prop
  | start, stop, [] => start = stop
  | start, stop, (first, width) :: rest => first = start ∧ Tiles (start + width) stop rest

/-- How chunks take the items of a sequence from one on, each going on where the one before it
stops, until none are left: the decisions that say so, and the pieces that the elements get. -/
inductive Takes (form : Form) (xs : List Value) : Nat → Nat → List (Chunk (Pattern Value)) →
    List Decision → List (Pattern Value × Value) → Prop
  | none {ci} : Takes form xs ci xs.length [] [] []
  | fixed {ci xi ps rest finals parts} (hwide : xi + ps.length ≤ xs.length)
    (h : Takes form xs (ci + 1) (xi + ps.length) rest finals parts) :
    Takes form xs ci xi (.fixed ps :: rest) (.fixed ci xi ps.length true :: finals)
      (ps.zip (xs.drop xi) ++ parts)
  | repeated {ci xi p repetition rest take finals parts} (hfits : xi + take ≤ xs.length)
    (h : Takes form xs (ci + 1) (xi + take) rest finals parts) :
    Takes form xs ci xi (.repeated p repetition :: rest)
      (.repeated ci xi take repetition.mode :: finals)
      ((p, .seq form ((xs.drop xi).take take)) :: parts)

/-- What a walk that comes to its end tells: the items are taken as is chosen for the elements, the
decisions that say so are final, and there are none about the chunks before. -/
structure Walked (form : Form) (xs : List Value) (ci xi : Nat)
    (chunks : List (Chunk (Pattern Value))) (vector : List Nat)
    (parts : List (Pattern Value × Value)) (made : Captures) (finals ds : List Decision) :
    Prop where
  chosen : Chosen form (chunks.flatMap Chunk.elements) (xs.drop xi) vector parts made
  takes : Takes form xs ci xi chunks finals parts
  final : ∀ d ∈ finals, d.Final ds
  onward : ∀ d ∈ ds, d.From ci

section

variable {form : Form} {xs : List Value} {ci xi : Nat} {chunks rest : List (Chunk (Pattern Value))}
  {p : Pattern Value} {ps : List (Pattern Value)} {repetition : Repetition} {vector : List Nat}
  {parts : List (Pattern Value × Value)} {own made : Captures} {finals ds : List Decision}

theorem Takes.tiles (h : Takes form xs ci xi chunks finals parts) :
    Tiles xi xs.length (finals.filterMap Decision.span?) := by
  induction h with
  | none => rfl
  | fixed _ _ ih => exact ⟨rfl, ih⟩
  | repeated _ _ ih => exact ⟨rfl, ih⟩

theorem Takes.length_eq (h : Takes form xs ci xi chunks finals parts) :
    finals.length = chunks.length := by
  induction h with
  | none => rfl
  | fixed _ _ ih => exact congrArg (· + 1) ih
  | repeated _ _ ih => exact congrArg (· + 1) ih

/-- From any chunk on, the chunks go on as they do in the whole. -/
theorem Takes.drop (h : Takes form xs ci xi chunks finals parts) {k : Nat}
    (hk : k ≤ chunks.length) : ∃ start later, Takes form xs (ci + k) start (chunks.drop k)
      (finals.drop k) later ∧ ∀ part ∈ later, part ∈ parts := by
  induction k generalizing ci xi chunks finals parts with
  | zero => exact ⟨xi, parts, h, fun _ hpart => hpart⟩
  | succ k ih =>
    cases h with
    | none => cases hk
    | fixed _ h =>
      obtain ⟨start, later, htakes, hparts⟩ := ih h (Nat.le_of_succ_le_succ hk)
      rw [Nat.add_right_comm] at htakes
      exact ⟨start, later, htakes, fun part hpart => List.mem_append_right _ (hparts part hpart)⟩
    | repeated _ h =>
      obtain ⟨start, later, htakes, hparts⟩ := ih h (Nat.le_of_succ_le_succ hk)
      rw [Nat.add_right_comm] at htakes
      exact ⟨start, later, htakes, fun part hpart => List.mem_cons_of_mem _ (hparts part hpart)⟩

/-- The decision with which a chunk goes on can be found under the number of the chunk. -/
theorem Takes.at_chunk (h : Takes form xs 0 0 chunks finals parts) {k : Nat}
    {chunk : Chunk (Pattern Value)} (hk : chunks[k]? = some chunk) :
    ∃ start rest d finals' later, finals[k]? = some d ∧
      Takes form xs k start (chunk :: rest) (d :: finals') later ∧
      ∀ part ∈ later, part ∈ parts := by
  obtain ⟨hlt, hchunk⟩ := List.getElem?_eq_some_iff.mp hk
  obtain ⟨start, later, htakes, hparts⟩ := h.drop (Nat.le_of_lt hlt)
  have hfinals : k < finals.length := by
    rw [h.length_eq]
    exact hlt
  rw [List.drop_eq_getElem_cons hlt, List.drop_eq_getElem_cons hfinals, hchunk,
    Nat.zero_add] at htakes
  exact ⟨start, _, _, _, later, List.getElem?_eq_getElem hfinals, htakes, hparts⟩

theorem Walked.fixed (hfixed : ∀ p ∈ ps, p.repetition? = none)
    (hwide : xi + ps.length ≤ xs.length) (hown : YieldsAll (ps.zip (xs.drop xi)) own)
    (h : Walked form xs (ci + 1) (xi + ps.length) rest vector parts made finals ds) :
    Walked form xs ci xi (.fixed ps :: rest) vector (ps.zip (xs.drop xi) ++ parts) (own ++ made)
      (.fixed ci xi ps.length true :: finals) (.fixed ci xi ps.length true :: ds) where
  chosen := by
    refine (chosen_fixed hfixed).mpr ⟨?_, parts, own, made, rfl, rfl, hown, ?_⟩
    · rw [List.length_drop]
      omega
    · rw [List.drop_drop]
      exact h.chosen
  takes := .fixed hwide h.takes
  final := List.forall_mem_cons.mpr ⟨Decision.final_cons rfl h.onward, fun d hd =>
    (h.final d hd).append_left [.fixed ci xi ps.length true]⟩
  onward := List.forall_mem_cons.mpr
    ⟨⟨ci, rfl, Nat.le_refl ci⟩, fun d hd => (h.onward d hd).weaken⟩

/-- A repetition adds the decision for the length that it takes, after those for lengths that were
given up. -/
theorem Walked.repeated {take : Nat} {earlier : List Decision}
    (hchosen : Chosen form (p :: rest.flatMap Chunk.elements) (xs.drop xi) (take :: vector)
      ((p, .seq form ((xs.drop xi).take take)) :: parts) (own ++ made))
    (hfits : xi + take ≤ xs.length) (hearlier : ∀ d ∈ earlier, d.From ci)
    (h : Walked form xs (ci + 1) (xi + take) rest vector parts made finals ds) :
    Walked form xs ci xi (.repeated p repetition :: rest) (take :: vector)
      ((p, .seq form ((xs.drop xi).take take)) :: parts) (own ++ made)
      (.repeated ci xi take repetition.mode :: finals)
      (earlier ++ .repeated ci xi take repetition.mode :: ds) where
  chosen := hchosen
  takes := .repeated hfits h.takes
  final := by
    refine List.forall_mem_cons.mpr ⟨?_, fun d hd => ?_⟩
    · exact (Decision.final_cons rfl h.onward).append_left earlier
    · exact ((h.final d hd).append_left [_]).append_left earlier
  onward := by
    refine List.forall_mem_append.mpr ⟨hearlier, List.forall_mem_cons.mpr ⟨?_, fun d hd => ?_⟩⟩
    · exact ⟨ci, rfl, Nat.le_refl ci⟩
    · exact (h.onward d hd).weaken

end

variable {lengths : LengthPolicy}

/-- A walk over chunks tells how their elements take the items from one on, or, by decisions about
these chunks only, that they cannot take them. -/
def Retells (lengths : LengthPolicy) (form : Form) (xs : List Value)
    (chunks : List (Chunk (Pattern Value))) : Prop :=
  ∀ ci xi captures, xi ≤ xs.length →
    (walk lengths form ci (chunks.map (Chunk.map (matcher lengths))) xi (xs.drop xi)
      captures).Tells
      (fun after ds => ∃ vector parts made finals,
        Walked form xs ci xi chunks vector parts made finals ds ∧
          after = captures.overlay made)
      (fun ds => (∀ vector,
        ¬ Valid Matches form (chunks.flatMap Chunk.elements) (xs.drop xi) vector) ∧
          ∀ d ∈ ds, d.From ci)

variable {form : Form} {xs : List Value} {rest : List (Chunk (Pattern Value))}

theorem retells_nil (form : Form) (xs : List Value) : Retells lengths form xs [] := by
  intro ci xi captures hxi
  have hends : (walk lengths form ci [] xi (xs.drop xi) captures).Ensures
      (fun after => xi = xs.length ∧ after = captures)
      (∀ vector, ¬ Valid Matches form [] (xs.drop xi) vector) := by
    refine Run.ensures_guard (fun hempty => ⟨?_, rfl⟩) fun hempty vector hvalid => ?_
    · exact Nat.le_antisymm hxi (List.drop_eq_nil_iff.mp (List.isEmpty_iff.mp hempty))
    · rw [(valid_nil.mp hvalid).2] at hempty
      cases hempty
  refine (hends.tells (Run.quiet_guard _ _)).imp ?_ ?_
  · rintro _ _ ⟨⟨rfl, rfl⟩, rfl⟩
    refine ⟨[], [], [], [], ⟨?_, .none, by simp, by simp⟩, rfl⟩
    exact chosen_nil.mpr ⟨List.drop_length, rfl, rfl, rfl⟩
  · rintro _ ⟨hmiss, rfl⟩
    exact ⟨hmiss, by simp⟩

theorem retells_fixed {ps : List (Pattern Value)} (hfixed : ∀ p ∈ ps, p.repetition? = none)
    (hdecides : ∀ p ∈ ps, Decides lengths p) (hflat : ∀ p ∈ ps, p.isFlat = true)
    (hrest : Retells lengths form xs rest) : Retells lengths form xs (.fixed ps :: rest) := by
  intro ci xi captures hxi
  have hlength : (xs.drop xi).length = xs.length - xi := List.length_drop
  have habout : ∀ ok, (Decision.fixed ci xi ps.length ok).From ci := fun ok =>
    ⟨ci, rfl, Nat.le_refl ci⟩
  simp only [List.map_cons, Chunk.map, walk, List.length_map, List.flatMap_cons, Chunk.elements]
  apply Run.Tells.counted
  split
  · next hnarrow =>
    refine (Run.tells_fail ⟨fun vector hvalid => ?_, by simpa using habout false⟩).noting
    exact absurd ((valid_fixed hfixed).mp hvalid).1 (Nat.not_le.mpr hnarrow)
  · next hwide =>
    have hmem : ∀ part ∈ ps.zip (xs.drop xi), part.1 ∈ ps := fun part hpart =>
      (List.of_mem_zip hpart).1
    have hturn := (ensures_inTurn (fun part hpart => hdecides _ (hmem part hpart)) captures).tells
      (Run.Quiet.inTurn (fun part hpart => quiet_bindWith lengths (hflat _ (hmem part hpart)) _)
        captures)
    rw [List.zip_map_left, Run.inTurn_map, List.drop_drop]
    refine Run.tells_andThen (Run.tells_orElse hturn ?_) ?_ fun _ h => h
    · rintro _ ⟨⟨part, hpart, hmiss⟩, rfl⟩
      refine (Run.tells_fail ⟨fun vector hvalid => ?_, by simpa using habout false⟩).noting
      exact hmiss (((valid_fixed hfixed).mp hvalid).2.1 part hpart)
    · rintro _ _ ⟨⟨own, hown, rfl⟩, rfl⟩
      apply Run.Tells.noting
      refine (hrest (ci + 1) (xi + ps.length) _ (by omega)).imp ?_ ?_
      · rintro _ ds ⟨vector, parts, made, finals, hwalked, rfl⟩
        refine ⟨vector, _, own ++ made, _, hwalked.fixed hfixed (by omega) hown, ?_⟩
        exact (Entries.overlay_append _ _ _).symm
      · rintro ds ⟨hmiss, honward⟩
        refine ⟨fun vector hvalid => ?_, ?_⟩
        · have hlater := ((valid_fixed hfixed).mp hvalid).2.2
          rw [List.drop_drop] at hlater
          exact hmiss vector hlater
        · exact List.forall_mem_cons.mpr ⟨habout true, fun d hd => (honward d hd).weaken⟩

/-- One length of a repetition, tried to the end, tells of that length first. -/
theorem tells_attempt {p : Pattern Value} (hdecides : Decides lengths p)
    (hflat : p.isFlat = true) (hrest : Retells lengths form xs rest) {ci xi take : Nat}
    (mode : Mode) (hfits : xi + take ≤ xs.length) (captures : Captures) :
    (Run.noting (.repeated ci xi take mode) (Run.andThen
      (bindWith lengths p (.seq form ((xs.drop xi).take take)) captures) fun captures =>
        walk lengths form (ci + 1) (rest.map (Chunk.map (matcher lengths))) (xi + take)
          ((xs.drop xi).drop take) captures)).Tells
      (fun after ds => ∃ own vector parts made finals later,
        ds = .repeated ci xi take mode :: later ∧
        Yields p (.seq form ((xs.drop xi).take take)) own ∧
        Walked form xs (ci + 1) (xi + take) rest vector parts made finals later ∧
        after = captures.overlay (own ++ made))
      (fun ds => ¬ Completes form p (rest.flatMap Chunk.elements) (xs.drop xi) take ∧
        ∀ d ∈ ds, d.From ci) := by
  have habout : (Decision.repeated ci xi take mode).From ci := ⟨ci, rfl, Nat.le_refl ci⟩
  have hslice := (hdecides (.seq form ((xs.drop xi).take take)) captures).tells
    (quiet_bindWith lengths hflat _ captures)
  apply Run.Tells.noting
  refine Run.tells_andThen hslice ?_ ?_
  · rintro _ _ ⟨⟨own, hown, rfl⟩, rfl⟩
    rw [List.drop_drop]
    refine (hrest (ci + 1) (xi + take) _ hfits).imp ?_ ?_
    · rintro _ later ⟨vector, parts, made, finals, hwalked, rfl⟩
      refine ⟨own, vector, parts, made, finals, later, rfl, hown, hwalked, ?_⟩
      exact (Entries.overlay_append _ _ _).symm
    · rintro later ⟨hmiss, honward⟩
      refine ⟨?_, List.forall_mem_cons.mpr ⟨habout, fun d hd => (honward d hd).weaken⟩⟩
      rintro ⟨-, -, vector, hvalid⟩
      rw [List.drop_drop] at hvalid
      exact hmiss vector hvalid
  · rintro _ ⟨hmiss, rfl⟩
    exact ⟨fun hcompletes => hmiss hcompletes.2.1, List.forall_mem_singleton.mpr habout⟩

theorem retells_repeated (hlengths : lengths.Faithful) {p : Pattern Value}
    {repetition : Repetition} (hrepeats : p.repetition? = some repetition)
    (hdecides : Decides lengths p) (hflat : p.isFlat = true)
    (haligned : ∀ chunk ∈ rest, chunk.Aligned repetition?)
    (hrest : Retells lengths form xs rest) :
    Retells lengths form xs (.repeated p repetition :: rest) := by
  intro ci xi captures hxi
  have hfits : ∀ take ∈ lengths repetition (xs.drop xi).length (Chunk.leastTotal rest),
      xi + take ≤ xs.length := by
    intro take htake
    have hle := hlengths.fits htake
    rw [List.length_drop] at hle
    omega
  simp only [List.map_cons, Chunk.map, walk, Chunk.leastTotal_map, List.flatMap_cons,
    Chunk.elements, List.cons_append, List.nil_append]
  apply Run.Tells.counted
  refine (Run.tells_firstOf fun take htake =>
    tells_attempt hdecides hflat hrest repetition.mode (hfits take htake) captures).imp ?_ ?_
  · rintro _ _ ⟨before, take, after, earlier, _, hsplit, hbefore, rfl, hearlier, own, vector, parts,
      made, finals, later, rfl, hown, hwalked, rfl⟩
    -- The lengths that were given up left decisions too, but none of them comes after those that
    -- count, and they are about no earlier chunk.
    have hlater := hwalked.chosen
    rw [← List.drop_drop] at hlater
    have hchosen := Chosen.tried hlengths hrepeats haligned hsplit hbefore hown hlater
    have htake : xi + take ≤ xs.length := hfits take (by
      rw [hsplit]
      exact List.mem_append_right _ List.mem_cons_self)
    exact ⟨_, _, _, _, hwalked.repeated hchosen htake hearlier, rfl⟩
  · rintro ds ⟨hmiss, honward⟩
    refine ⟨fun vector hvalid => ?_, honward⟩
    obtain ⟨take, tail, rfl, -⟩ := (valid_repeated hrepeats).mp hvalid
    have hcompletes := (valid_cons_iff_completes hrepeats).mp ⟨tail, hvalid⟩
    exact hmiss take (hcompletes.mem_lengths hlengths hrepeats haligned) hcompletes

theorem retells (hlengths : lengths.Faithful) (form : Form) (xs : List Value)
    {chunks : List (Chunk (Pattern Value))}
    (haligned : ∀ chunk ∈ chunks, chunk.Aligned repetition?)
    (hflat : ∀ chunk ∈ chunks, ∀ p ∈ chunk.elements, p.isFlat = true) :
    Retells lengths form xs chunks := by
  -- The chunks after the first one tell of themselves from wherever the first one stops.
  induction chunks with
  | nil => exact retells_nil form xs
  | cons chunk rest ih =>
    obtain ⟨hchunk, hrest⟩ := List.forall_mem_cons.mp haligned
    obtain ⟨hown, hlater⟩ := List.forall_mem_cons.mp hflat
    have hretells := ih hrest hlater
    cases chunk with
    | fixed ps =>
      exact retells_fixed hchunk (fun p _ => decides hlengths p) hown hretells
    | repeated p repetition =>
      exact retells_repeated hlengths hchunk (decides hlengths p) (hown p List.mem_cons_self)
        hrest hretells

/-- What the decisions of a match tell of its sequence. One decision about each chunk is final, and
these decisions say how the chunks take the items. That about a repetition says where its slice
begins and how long it is, that about a run of elements that take one item each says where the first
of these items is, and together they go over the whole sequence. -/
structure Told (form : Form) (elements : List (Pattern Value)) (items : List Value)
    (parts : List (Pattern Value × Value)) (ds finals : List Decision) : Prop where
  takes : Takes form items 0 0 (chunks elements) finals parts
  length_eq : finals.length = (chunks elements).length
  final : ∀ d ∈ finals, d.Final ds
  repeated : ∀ ci p repetition, (chunks elements)[ci]? = some (Chunk.repeated p repetition) →
    ∃ xi slice, finals[ci]? = some (Decision.repeated ci xi slice.length repetition.mode) ∧
      slice = (items.drop xi).take slice.length ∧ (p, .seq form slice) ∈ parts
  fixed : ∀ ci ps, (chunks elements)[ci]? = some (Chunk.fixed ps) →
    ∃ xi, finals[ci]? = some (Decision.fixed ci xi ps.length true) ∧
      xi + ps.length ≤ items.length ∧ ∀ part ∈ ps.zip (items.drop xi), part ∈ parts
  tiles : Tiles 0 items.length (finals.filterMap Decision.span?)

theorem Walked.told {elements : List (Pattern Value)} {items : List Value} {vector : List Nat}
    {parts : List (Pattern Value × Value)} {made : Captures} {finals ds : List Decision}
    (h : Walked form items 0 0 (chunks elements) vector parts made finals ds) :
    Told form elements items parts ds finals where
  takes := h.takes
  length_eq := h.takes.length_eq
  final := h.final
  tiles := h.takes.tiles
  repeated ci p repetition hchunk := by
    obtain ⟨start, rest, d, finals', later, hd, htakes, hparts⟩ := h.takes.at_chunk hchunk
    cases htakes with
    | @repeated _ _ _ _ _ take _ _ hfits _ =>
      have hlength : ((items.drop start).take take).length = take := by
        rw [List.length_take, List.length_drop]
        omega
      refine ⟨start, (items.drop start).take take, ?_, ?_, hparts _ List.mem_cons_self⟩
      · rw [hlength]
        exact hd
      · rw [hlength]
  fixed ci ps hchunk := by
    obtain ⟨start, rest, d, finals', later, hd, htakes, hparts⟩ := h.takes.at_chunk hchunk
    cases htakes with
    | fixed hwide _ =>
      exact ⟨start, hd, hwide, fun part hpart => hparts part (List.mem_append_left _ hpart)⟩

end Sequence

namespace Pattern

/-- Matching a flat sequence pattern tells how it takes the items of a sequence. -/
theorem tells_sequence {elements : List (Pattern Value)} (hflat : ∀ p ∈ elements, p.isFlat = true)
    (v : Value) (captures : Captures) :
    ((sequence elements).bind v captures).Tells
      (fun after ds => ∃ form items vector parts made finals, v = .seq form items ∧
        Sequence.Walked form items 0 0 (chunks elements) vector parts made finals ds ∧
          after = captures.overlay made)
      fun _ => True := by
  cases v with
  | seq form items =>
    have hretells := Sequence.retells Repetition.faithful_lengths form items
      (Chunk.aligned_cut repetition? elements) fun chunk hchunk p hp =>
        hflat p (mem_of_mem_chunks hchunk hp)
    rw [bind, bindWith, cut_matchersWith]
    refine ((hretells 0 0 captures (Nat.zero_le _)).imp ?_ fun _ _ => trivial).nested
    rintro _ ds ⟨vector, parts, made, finals, hwalked, rfl⟩
    exact ⟨form, items, vector, parts, made, finals, rfl, hwalked, rfl⟩
  | _ => exact Run.tells_fail trivial

/-- What the run of a match tells stands in the log, in the block of the match. -/
theorem exists_block_of_tells {p : Pattern Value} {v : Value}
    {hit : Captures → List Decision → Prop} {miss : List Decision → Prop}
    (h : (p.bind v []).Tells hit miss) {limits : Limits} {t : Tracer} {captures : Captures}
    (hmatched : (p.matchAgainst v limits (some t)).outcome = .matched captures) :
    ∃ ds, hit captures ds ∧
      (p.matchAgainst v limits (some t)).tracer.map Tracer.events = some (t.events ++
        Tracer.numbered t.size (.started ::
          (ds ++ [.ended true (p.matchAgainst v limits (some t)).steps]))) := by
  obtain ⟨ds, htracer, hs⟩ := h (Search.fresh limits (some (t.note .started)))
  have hrun : (p.bind v [] (Search.fresh limits (some (t.note .started)))).1 =
      .matched captures := hmatched
  rw [hrun] at hs
  have hblock : (p.matchAgainst v limits (some t)).tracer =
      some ((.started :: (ds ++ [.ended true (p.matchAgainst v limits (some t)).steps])).foldl
        Tracer.note t) := by
    simp only [matchAgainst, Option.map_some, hrun, htracer, Tracer.told, List.foldl_cons,
      List.foldl_append, List.foldl_nil]
    rfl
  exact ⟨ds, hs, by rw [hblock, Option.map_some, Tracer.events_foldl_note]⟩

/-- The record of a match tells the split that was chosen. If no sequence is nested in the elements
of a sequence pattern and a match of it succeeds, then the decisions in its block of the log tell
how the items were taken: the last decision about each chunk is the one that holds, whatever was
tried before it. What is captured under the label of an element, and not again under the same label
by a later one, is the piece that these decisions give to the element. -/
theorem matchAgainst_tells {elements : List (Pattern Value)}
    (hflat : ∀ p ∈ elements, p.isFlat = true) {v : Value} {limits : Limits} {t : Tracer}
    {captures : Captures}
    (hmatched : ((sequence elements).matchAgainst v limits (some t)).outcome =
      .matched captures) :
    let report := (sequence elements).matchAgainst v limits (some t)
    ∃ form items vector parts made ds finals, v = .seq form items ∧
      Sequence.Chosen form elements items vector parts made ∧
      captures = Entries.overlay [] made ∧
      report.tracer.map Tracer.events = some (t.events ++
        Tracer.numbered t.size (.started :: (ds ++ [.ended true report.steps]))) ∧
      Sequence.Told form elements items parts ds finals ∧
      ∀ before label inner piece after, parts = before ++ (.named label inner, piece) :: after →
        (∀ part ∈ after, label ∉ part.1.labels) → captures.find? label = some piece := by
  intro report
  obtain ⟨ds, ⟨form, items, vector, parts, made, finals, rfl, hwalked, rfl⟩, hblock⟩ :=
    exists_block_of_tells (tells_sequence hflat v []) hmatched
  have hchosen := hwalked.chosen
  rw [List.drop_zero, chunks, Chunk.flatMap_elements_cut] at hchosen
  refine ⟨form, items, vector, parts, made, ds, finals, rfl, hchosen, rfl, hblock, hwalked.told,
    ?_⟩
  rintro before label inner piece after rfl hlater
  show Entries.find? label (Entries.overlay [] made) = some piece
  rw [Entries.find?_overlay_reverse, hchosen.yields.find?_reverse hlater]
  rfl

/-- A greedy repetition that gives an item back, on a log with an entry from before. -/
theorem matchAgainst_tells_given_back :
    let elements : List (Pattern Value) :=
      [.named "head" (.repeated (.typeCheck .number) .greedy none), .literal (.int 2),
        .named "rest" (.repeated .wildcard .lazy none)]
    let items : List Value := [.int 1, .int 2, .int 3]
    let t := Tracer.empty.note (.ended false 7)
    let report := (sequence elements).matchAgainst (.seq .tuple items) .standard (some t)
    report.outcome =
        .matched [("head", .seq .tuple [.int 1]), ("rest", .seq .tuple [.int 3])] ∧
      ∃ parts ds finals, Sequence.Told .tuple elements items parts ds finals := by
  intro elements items t report
  have hmatched : report.outcome =
      .matched [("head", .seq .tuple [.int 1]), ("rest", .seq .tuple [.int 3])] := rfl
  have hflat : ∀ p ∈ elements, p.isFlat = true := by decide
  obtain ⟨form, _, vector, parts, made, ds, finals, hitems, -, -, -, htold, -⟩ :=
    matchAgainst_tells hflat hmatched
  cases hitems
  exact ⟨hmatched, parts, ds, finals, htold⟩

end Pattern

end Motif
