import Motif.Proofs.Captures
import Motif.Proofs.Choice
import Motif.Proofs.Outcome

/-!
The search decides what patterns mean. A run that ends with a match has captured
what the pattern yields, laid over what was captured before, and a run that ends
without one shows that the value has not the pattern's shape. This holds of every
policy that tries the lengths in the preferred order and leaves out only hopeless
ones, within any limits: a run that is given up is the only one that says nothing.
-/

namespace Motif

/-- What a policy has to do for the search to decide: it tries no length that there are no
items for, leaves out no length that the bounds allow and that leaves enough for the later
chunks, and goes from the more to the less preferred. -/
structure LengthPolicy.Faithful (lengths : LengthPolicy) : Prop where
  fits : ∀ {repetition remaining needed length},
    length ∈ lengths repetition remaining needed → length ≤ remaining
  covers : ∀ {repetition remaining needed length},
    Bounds.allow repetition.bounds length = true → length + needed ≤ remaining →
      length ∈ lengths repetition remaining needed
  sorted : ∀ repetition remaining needed,
    (lengths repetition remaining needed).Pairwise repetition.mode.Prefers

namespace Repetition

theorem ascending_sorted (repetition : Repetition) (available : Int) :
    (repetition.ascending available).Pairwise (· < ·) := by
  refine List.pairwise_map.mpr (List.Pairwise.imp (fun hlt => ?_) List.pairwise_lt_range)
  exact Nat.add_lt_add_right hlt _

theorem faithful_lengths : LengthPolicy.Faithful lengths where
  fits hmem := by
    have havailable := ((mem_takes _ _ _).mp hmem).2
    omega
  covers hallow hfits := (mem_takes _ _ _).mpr ⟨hallow, by omega⟩
  sorted repetition remaining needed := by
    obtain ⟨_ | _, bounds⟩ := repetition
    · exact List.pairwise_reverse.mpr (ascending_sorted _ _)
    · exact ascending_sorted _ _

end Repetition

namespace Pattern

/-- What it means for the search to decide a pattern. -/
def Decides (lengths : LengthPolicy) (p : Pattern Value) : Prop :=
  ∀ v captures, (bindWith lengths p v captures).Ensures
    (fun after => ∃ made, Yields p v made ∧ after = captures.overlay made) (¬ Matches p v)

variable {lengths : LengthPolicy}

/-- Patterns that are matched in turn, each on its own value, match together or show one that
does not. -/
theorem ensures_inTurn {parts : List (Pattern Value × Value)}
    (hdecides : ∀ part ∈ parts, Decides lengths part.1) (captures : Captures) :
    (Run.inTurn parts (fun part => bindWith lengths part.1 part.2) captures).Ensures
      (fun after => ∃ made, YieldsAll parts made ∧ after = captures.overlay made)
      (∃ part ∈ parts, ¬ Matches part.1 part.2) := by
  induction parts generalizing captures with
  | nil => exact Run.ensures_succeed ⟨[], .nil, rfl⟩
  | cons part rest ih =>
    obtain ⟨hpart, hrest⟩ := List.forall_mem_cons.mp hdecides
    rw [Run.inTurn_cons]
    refine Run.ensures_andThen ((hpart part.2 captures).imp (fun _ h => h) fun hmiss => ?_) ?_
    · exact ⟨part, List.mem_cons_self, hmiss⟩
    · rintro _ ⟨made, hmade, rfl⟩
      refine (ih hrest (captures.overlay made)).imp ?_ ?_
      · rintro _ ⟨later, hlater, rfl⟩
        exact ⟨made ++ later, .cons hmade hlater, (Entries.overlay_append _ _ _).symm⟩
      · rintro ⟨other, hother, hmiss⟩
        exact ⟨other, List.mem_cons_of_mem part hother, hmiss⟩

theorem ensures_options {options : List (Pattern Value)}
    (hdecides : ∀ p ∈ options, Decides lengths p) (v : Value) (captures : Captures) :
    (Run.firstOf (matchersWith lengths options) fun option => option.bind v captures).Ensures
      (fun after => ∃ before p rest made, options = before ++ p :: rest ∧
        (∀ q ∈ before, ¬ Matches q v) ∧ Yields p v made ∧ after = captures.overlay made)
      (∀ p ∈ options, ¬ Matches p v) := by
  rw [matchersWith_eq_map, Run.firstOf_map]
  refine (Run.ensures_firstOf fun p hp => hdecides p hp v captures).imp ?_ (fun h => h)
  rintro _ ⟨before, p, rest, hoptions, hbefore, made, hmade, rfl⟩
  exact ⟨before, p, rest, made, hoptions, hbefore, hmade, rfl⟩

/-- Matching every item of a value decides whether the value is a sequence of an allowed
length whose items all match. -/
theorem ensures_bindEach {inner : Pattern Value} (hdecides : Decides lengths inner)
    (bounds : Option Bounds) (v : Value) (captures : Captures) :
    (bindEach bounds (bindWith lengths inner) v captures).Ensures
      (fun after => ∃ form items made, v = .seq form items ∧
        Bounds.allow bounds items.length = true ∧
        YieldsAll (items.map (Prod.mk inner)) made ∧ after = captures.overlay made)
      (∀ form items, v = .seq form items → Bounds.allow bounds items.length = true →
        ∃ item ∈ items, ¬ Matches inner item) := by
  cases v with
  | seq form items =>
    simp only [bindEach, Value.items?]
    split
    · next hlength =>
      have hparts : ∀ part ∈ items.map (Prod.mk inner), Decides lengths part.1 := by
        intro part hpart
        obtain ⟨item, _, rfl⟩ := List.mem_map.mp hpart
        exact hdecides
      have hrun := ensures_inTurn hparts captures
      rw [Run.inTurn_map] at hrun
      refine hrun.imp ?_ ?_
      · rintro _ ⟨made, hmade, rfl⟩
        exact ⟨form, items, made, rfl, hlength, hmade, rfl⟩
      · rintro ⟨part, hpart, hmiss⟩ form' items' hsame _
        cases hsame
        obtain ⟨item, hitem, rfl⟩ := List.mem_map.mp hpart
        exact ⟨item, hitem, hmiss⟩
    · next hlength =>
      refine Run.ensures_fail fun form' items' hsame hlength' => ?_
      cases hsame
      exact absurd hlength' hlength
  | _ => exact Run.ensures_fail fun form items hsame => by cases hsame

end Pattern

namespace Sequence

open Pattern

variable {lengths : LengthPolicy}

/-- What a walk over elements is to find: the first valid cut, and what it yields. -/
def YieldsFirst (form : Form) (elements : List (Pattern Value)) (items : List Value)
    (made : Captures) : Prop :=
  ∃ vector parts, First (modes elements) (Valid Matches form elements items) vector ∧
    pieces form elements vector items = some parts ∧ YieldsAll parts made

theorem Chosen.yieldsFirst {form : Form} {elements : List (Pattern Value)} {items : List Value}
    {vector : List Nat} {parts : List (Pattern Value × Value)} {made : Captures}
    (h : Chosen form elements items vector parts made) : YieldsFirst form elements items made :=
  ⟨vector, parts, h.first, h.cut, h.yields⟩

/-- Walking chunks finds the first valid cut for their elements, or shows that there is none. -/
def Finds (lengths : LengthPolicy) (form : Form) (chunks : List (Chunk (Pattern Value))) : Prop :=
  ∀ ci xi items captures,
    (walk lengths form ci (chunks.map (Chunk.map (matcher lengths))) xi items captures).Ensures
      (fun after => ∃ made, YieldsFirst form (chunks.flatMap Chunk.elements) items made ∧
        after = captures.overlay made)
      (∀ vector, ¬ Valid Matches form (chunks.flatMap Chunk.elements) items vector)

theorem finds_nil (form : Form) : Finds lengths form [] := by
  intro ci xi items captures
  refine Run.ensures_guard (fun hempty => ?_) (fun hempty vector hvalid => ?_)
  · have hchosen : Chosen form [] items [] [] [] :=
      chosen_nil.mpr ⟨List.isEmpty_iff.mp hempty, rfl, rfl, rfl⟩
    exact ⟨[], hchosen.yieldsFirst, rfl⟩
  · obtain ⟨-, rfl⟩ := valid_nil.mp hvalid
    cases hempty

theorem finds_fixed {form : Form} {ps : List (Pattern Value)}
    (hfixed : ∀ p ∈ ps, p.repetition? = none) (hdecides : ∀ p ∈ ps, Decides lengths p)
    {rest : List (Chunk (Pattern Value))} (hrest : Finds lengths form rest) :
    Finds lengths form (.fixed ps :: rest) := by
  intro ci xi items captures
  simp only [List.map_cons, Chunk.map, walk, List.length_map, List.flatMap_cons, Chunk.elements]
  apply Run.ensures_counted
  split
  · next hnarrow =>
    refine Run.ensures_noting _ (Run.ensures_fail fun vector hvalid => ?_)
    exact absurd ((valid_fixed hfixed).mp hvalid).1 (Nat.not_le.mpr hnarrow)
  · next hwide =>
    have hparts : ∀ part ∈ ps.zip items, Decides lengths part.1 := fun part hpart =>
      hdecides part.1 (List.of_mem_zip hpart).1
    have hturn := ensures_inTurn hparts captures
    rw [List.zip_map_left, Run.inTurn_map]
    refine Run.ensures_andThen (Run.ensures_orElse hturn fun hmiss => ?_) ?_
    · refine Run.ensures_noting _ (Run.ensures_fail fun vector hvalid => ?_)
      obtain ⟨part, hpart, hpiece⟩ := hmiss
      exact hpiece (((valid_fixed hfixed).mp hvalid).2.1 part hpart)
    · rintro _ ⟨made, hmade, rfl⟩
      apply Run.ensures_noting
      refine (hrest _ _ _ _).imp ?_ ?_
      · rintro _ ⟨later, ⟨vector, parts, hfirst, hcut, hall⟩, rfl⟩
        have hchosen : Chosen form (ps ++ rest.flatMap Chunk.elements) items vector _ _ :=
          (chosen_fixed hfixed).mpr ⟨Nat.not_lt.mp hwide, parts, made, later, rfl, rfl, hmade,
            hfirst, hcut, hall⟩
        exact ⟨made ++ later, hchosen.yieldsFirst, (Entries.overlay_append _ _ _).symm⟩
      · exact fun hmiss vector hvalid => hmiss vector ((valid_fixed hfixed).mp hvalid).2.2

/-- One length of a repeated chunk, tried to the end: it matches if the slice matches and the
rest can be completed. -/
theorem ensures_attempt {form : Form} {p : Pattern Value} (hdecides : Decides lengths p)
    {rest : List (Chunk (Pattern Value))} (hrest : Finds lengths form rest) (d : Decision)
    (ci xi take : Nat) (items : List Value) (captures : Captures) :
    (Run.noting d (Run.andThen
      (bindWith lengths p (.seq form (items.take take)) captures) fun captures =>
        walk lengths form ci (rest.map (Chunk.map (matcher lengths))) xi (items.drop take)
          captures)).Ensures
      (fun after => ∃ made later, Yields p (.seq form (items.take take)) made ∧
        YieldsFirst form (rest.flatMap Chunk.elements) (items.drop take) later ∧
        after = captures.overlay (made ++ later))
      (¬ Completes form p (rest.flatMap Chunk.elements) items take) := by
  apply Run.ensures_noting
  refine Run.ensures_andThen ((hdecides _ captures).imp (fun _ h => h) ?_) ?_
  · exact fun hmiss hcompletes => hmiss hcompletes.2.1
  · rintro _ ⟨made, hmade, rfl⟩
    refine (hrest _ _ _ _).imp ?_ ?_
    · rintro _ ⟨later, hlater, rfl⟩
      exact ⟨made, later, hmade, hlater, (Entries.overlay_append _ _ _).symm⟩
    · rintro hmiss ⟨-, -, vector, hvalid⟩
      exact hmiss vector hvalid

section

variable {form : Form} {p : Pattern Value} {repetition : Repetition}
  {rest : List (Chunk (Pattern Value))} {items : List Value}

/-- A length that can be completed is one that the policy tries. -/
theorem Completes.mem_lengths (hlengths : lengths.Faithful)
    (hrepeats : p.repetition? = some repetition)
    (haligned : ∀ chunk ∈ rest, chunk.Aligned repetition?) {length : Nat}
    (h : Completes form p (rest.flatMap Chunk.elements) items length) :
    length ∈ lengths repetition items.length (Chunk.leastTotal rest) := by
  obtain ⟨hfits, hmatches, later, hvalid⟩ := h
  have hallow := hmatches.allow hrepeats
  have hneeds := leastTotal_le_of_valid haligned hvalid
  rw [List.length_take, Nat.min_eq_left hfits] at hallow
  rw [List.length_drop] at hneeds
  exact hlengths.covers hallow (by omega)

/-- The first length that is tried and can be completed is the one that a repetition takes. -/
theorem Chosen.tried (hlengths : lengths.Faithful) (hrepeats : p.repetition? = some repetition)
    (haligned : ∀ chunk ∈ rest, chunk.Aligned repetition?) {before after : List Nat} {take : Nat}
    (hsplit : lengths repetition items.length (Chunk.leastTotal rest) = before ++ take :: after)
    (hbefore : ∀ earlier ∈ before,
      ¬ Completes form p (rest.flatMap Chunk.elements) items earlier)
    {made later : Captures} (hmade : Yields p (.seq form (items.take take)) made)
    {vector : List Nat} {parts : List (Pattern Value × Value)}
    (hlater : Chosen form (rest.flatMap Chunk.elements) (items.drop take) vector parts later) :
    Chosen form (p :: rest.flatMap Chunk.elements) items (take :: vector)
      ((p, .seq form (items.take take)) :: parts) (made ++ later) := by
  have hcovers : ∀ other, Completes form p (rest.flatMap Chunk.elements) items other →
      other ∈ before ++ take :: after := by
    intro other hother
    rw [← hsplit]
    exact hother.mem_lengths hlengths hrepeats haligned
  have hsorted := hlengths.sorted repetition items.length (Chunk.leastTotal rest)
  have htried : take ∈ lengths repetition items.length (Chunk.leastTotal rest) := by
    rw [hsplit]
    exact List.mem_append_right _ List.mem_cons_self
  rw [hsplit] at hsorted
  refine (chosen_repeated hrepeats).mpr ⟨take, vector, parts, made, later, rfl, rfl, rfl,
    hlengths.fits htried, hmade, hlater, fun other hother hne => ?_⟩
  -- Any other length that can be completed is tried, but not before this one.
  rcases List.mem_append.mp (hcovers other hother) with hmem | hmem
  · exact absurd hother (hbefore other hmem)
  · rcases List.mem_cons.mp hmem with rfl | hmem
    · exact absurd rfl hne
    · have htail := (List.pairwise_append.mp hsorted).2.1
      exact (List.pairwise_cons.mp htail).1 other hmem

end

theorem finds_repeated (hlengths : lengths.Faithful) {form : Form} {p : Pattern Value}
    {repetition : Repetition} (hrepeats : p.repetition? = some repetition)
    (hdecides : Decides lengths p) {rest : List (Chunk (Pattern Value))}
    (haligned : ∀ chunk ∈ rest, chunk.Aligned repetition?) (hrest : Finds lengths form rest) :
    Finds lengths form (.repeated p repetition :: rest) := by
  intro ci xi items captures
  simp only [List.map_cons, Chunk.map, walk, Chunk.leastTotal_map, List.flatMap_cons,
    Chunk.elements, List.cons_append, List.nil_append]
  apply Run.ensures_counted
  refine (Run.ensures_firstOf fun take _ =>
    ensures_attempt hdecides hrest _ _ _ take items captures).imp ?_ ?_
  · rintro _ ⟨before, take, after, hsplit, hbefore, made, later, hmade, hyields, rfl⟩
    obtain ⟨vector, parts, hfirst, hcut, hall⟩ := hyields
    have hchosen : Chosen form (p :: rest.flatMap Chunk.elements) items _ _ (made ++ later) :=
      .tried hlengths hrepeats haligned hsplit hbefore hmade ⟨hfirst, hcut, hall⟩
    exact ⟨made ++ later, hchosen.yieldsFirst, rfl⟩
  · intro hmiss vector hvalid
    obtain ⟨take, tail, rfl, -⟩ := (valid_repeated hrepeats).mp hvalid
    have hcompletes := (valid_cons_iff_completes hrepeats).mp ⟨tail, hvalid⟩
    exact hmiss take (hcompletes.mem_lengths hlengths hrepeats haligned) hcompletes

theorem finds (hlengths : lengths.Faithful) (form : Form) {chunks : List (Chunk (Pattern Value))}
    (haligned : ∀ chunk ∈ chunks, chunk.Aligned repetition?)
    (hdecides : ∀ chunk ∈ chunks, ∀ p ∈ chunk.elements, Decides lengths p) :
    Finds lengths form chunks := by
  induction chunks with
  | nil => exact finds_nil form
  | cons chunk rest ih =>
    obtain ⟨hchunk, hrest⟩ := List.forall_mem_cons.mp haligned
    obtain ⟨hown, hlater⟩ := List.forall_mem_cons.mp hdecides
    have hfinds := ih hrest hlater
    cases chunk with
    | fixed ps => exact finds_fixed hchunk hown hfinds
    | repeated p repetition =>
      exact finds_repeated hlengths hchunk (hown p List.mem_cons_self) hrest hfinds

end Sequence

namespace Pattern

variable {lengths : LengthPolicy}

theorem decides_sequence (hlengths : lengths.Faithful) {elements : List (Pattern Value)}
    (hdecides : ∀ p ∈ elements, Decides lengths p) : Decides lengths (.sequence elements) := by
  intro v captures
  cases v with
  | seq form items =>
    simp only [bindWith, Value.items?, cut_matchersWith]
    apply Run.ensures_nested
    have hfinds := Sequence.finds hlengths form (Chunk.aligned_cut repetition? elements)
      fun chunk hchunk p hp => hdecides p (mem_of_mem_chunks hchunk hp)
    refine (hfinds 0 0 items captures).imp ?_ ?_
    · rw [Chunk.flatMap_elements_cut]
      rintro _ ⟨made, ⟨vector, parts, hfirst, hcut, hall⟩, rfl⟩
      exact ⟨made, .sequence hfirst hcut hall, rfl⟩
    · rw [Chunk.flatMap_elements_cut]
      intro hmiss hmatches
      obtain ⟨vector, hvalid⟩ := matches_sequence_iff.mp hmatches
      exact hmiss vector hvalid
  | _ => exact Run.ensures_fail fun hmatches => by cases hmatches

/-- The search decides every pattern: captures that come out of a run are those that the
pattern yields, and no match means that there is none to be had. -/
theorem decides (hlengths : lengths.Faithful) (p : Pattern Value) : Decides lengths p := by
  induction p using Pattern.induction with
  | wildcard => exact fun v captures => Run.ensures_succeed ⟨[], .wildcard, rfl⟩
  | literal expected =>
    refine fun v captures => Run.ensures_guard ?_ ?_
    · exact fun hequal => ⟨[], .literal hequal, rfl⟩
    · intro hdiffers hmatches
      cases hmatches with
      | literal hequal => exact absurd hequal (Bool.eq_false_iff.mp hdiffers)
  | typeCheck kind =>
    refine fun v captures => Run.ensures_guard ?_ ?_
    · exact fun hkind => ⟨[], .typeCheck (eq_of_beq hkind), rfl⟩
    · intro hdiffers hmatches
      cases hmatches with
      | typeCheck hkind => exact absurd hkind (ne_of_beq_false hdiffers)
  | alternation options ih =>
    refine fun v captures => (ensures_options ih v captures).imp ?_ ?_
    · rintro _ ⟨before, p, rest, made, hoptions, hbefore, hmade, rfl⟩
      exact ⟨made, .alternation hoptions hbefore hmade, rfl⟩
    · intro hmiss hmatches
      cases hmatches with
      | alternation hp hmatches => exact hmiss _ hp hmatches
  | sequence elements ih => exact decides_sequence hlengths ih
  | repeated inner mode bounds ih =>
    refine fun v captures => (ensures_bindEach ih bounds v captures).imp ?_ ?_
    · rintro _ ⟨form, items, made, rfl, hlength, hmade, rfl⟩
      exact ⟨made, .repeated hlength hmade, rfl⟩
    · intro hmiss hmatches
      cases hmatches with
      | repeated hlength hall =>
        obtain ⟨item, hitem, hnot⟩ := hmiss _ _ rfl hlength
        exact hnot (hall item hitem)
  | arrayOf inner bounds ih =>
    refine fun v captures => Run.ensures_nested ((ensures_bindEach ih bounds v captures).imp ?_ ?_)
    · rintro _ ⟨form, items, made, rfl, hlength, hmade, rfl⟩
      exact ⟨made, .arrayOf hlength hmade, rfl⟩
    · intro hmiss hmatches
      cases hmatches with
      | arrayOf hlength hall =>
        obtain ⟨item, hitem, hnot⟩ := hmiss _ _ rfl hlength
        exact hnot (hall item hitem)
  | named label inner ih =>
    refine fun v captures => Run.ensures_andThen ((ih v captures).imp (fun _ h => h) ?_) ?_
    · intro hmiss hmatches
      cases hmatches with
      | named hmatches => exact hmiss hmatches
    · rintro _ ⟨made, hmade, rfl⟩
      refine Run.ensures_succeed ⟨made ++ [(label, v)], .named hmade, ?_⟩
      exact (Entries.overlay_append captures made [(label, v)]).symm
  | unspecified tag => exact fun v captures => Run.ensures_abort _
  | misfit flaw value => exact fun v captures => Run.ensures_abort _
  | choiceFrom source options ih =>
    refine fun v captures => (ensures_options ih v captures).imp ?_ ?_
    · rintro _ ⟨before, p, rest, made, hoptions, hbefore, hmade, rfl⟩
      exact ⟨made, .choiceFrom hoptions hbefore hmade, rfl⟩
    · intro hmiss hmatches
      cases hmatches with
      | choiceFrom hp hmatches => exact hmiss _ hp hmatches

end Pattern

end Motif
