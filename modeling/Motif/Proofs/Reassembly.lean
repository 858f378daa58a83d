import Motif.Proofs.Labels

/-!
A candidate put together again from its captures. The pieces of a cut, one after the other, are the
items of the sequence: none is lost, none comes twice, and their order is kept. Where each element
of a sequence pattern is under a label of its own, each piece can be read from the captures, since
a label keeps what was captured last.
-/

namespace Motif

namespace Pattern

/-- The items that a piece of a pattern is made of: those of a slice if the pattern repeats, and
else the piece itself. -/
def portion (p : Pattern Value) (piece : Value) : List Value :=
  match p.repetition?, piece with
  | none, item => [item]
  | some _, .seq _ slice => slice
  | some _, _ => []

/-- The items that are captured for a pattern under a label. -/
def share (captures : Captures) (label : String) (p : Pattern Value) : List Value :=
  match captures.find? label with
  | some piece => p.portion piece
  | none => []

theorem portion_of_none {p : Pattern Value} (h : p.repetition? = none) (piece : Value) :
    p.portion piece = [piece] := by
  simp only [portion, h]

theorem portion_of_some {p : Pattern Value} {repetition : Repetition}
    (h : p.repetition? = some repetition) (form : Form) (slice : List Value) :
    p.portion (.seq form slice) = slice := by
  simp only [portion, h]

end Pattern

namespace Sequence

variable {form : Form} {elements : List (Pattern Value)} {lengths : List Nat} {items : List Value}
  {parts : List (Pattern Value × Value)}

/-- The pieces of a cut make up the items that were cut. -/
theorem flatMap_portion (hcut : pieces form elements lengths items = some parts) :
    (parts.flatMap fun part => part.1.portion part.2) = items := by
  induction elements generalizing lengths items parts with
  | nil =>
    obtain ⟨-, rfl, rfl⟩ := pieces_nil hcut
    rfl
  | cons p rest ih =>
    obtain ⟨piece, later, lengths', items', rfl, hlater, hpiece⟩ := pieces_cons hcut
    rw [List.flatMap_cons, ih hlater]
    rcases hpiece with ⟨hfixed, -, rfl⟩ | ⟨repetition, taken, hrepeats, -, rfl, rfl⟩
    · rw [Pattern.portion_of_none hfixed]
      rfl
    · rw [Pattern.portion_of_some hrepeats]

/-- An element that repeats gets a slice of the kind of the sequence. -/
theorem exists_slice (hcut : pieces form elements lengths items = some parts)
    {part : Pattern Value × Value} (hpart : part ∈ parts) {repetition : Repetition}
    (hrepeats : part.1.repetition? = some repetition) : ∃ slice, part.2 = .seq form slice := by
  induction elements generalizing lengths items parts with
  | nil =>
    obtain ⟨-, -, rfl⟩ := pieces_nil hcut
    cases hpart
  | cons p rest ih =>
    obtain ⟨piece, later, lengths', items', rfl, hlater, hpiece⟩ := pieces_cons hcut
    rcases List.mem_cons.mp hpart with rfl | hpart
    · rcases hpiece with ⟨hfixed, -, -⟩ | ⟨-, taken, -, -, rfl, -⟩
      · rw [hfixed] at hrepeats
        cases hrepeats
      · exact ⟨taken, rfl⟩
    · exact ih hlater hpart

end Sequence

namespace Pattern

/-- The value that is captured last under the label of an element is that of the element, if no
later element has the label in it. -/
theorem YieldsAll.find?_reverse {before after : List (Pattern Value × Value)} {label : String}
    {inner : Pattern Value} {piece : Value} {made : Captures}
    (h : YieldsAll (before ++ (.named label inner, piece) :: after) made)
    (hlater : ∀ part ∈ after, label ∉ part.1.labels) :
    Entries.find? label made.reverse = some piece := by
  obtain ⟨earlier, rest, rfl, -, hrest⟩ := yieldsAll_append.mp h
  cases hrest with
  | @cons _ _ _ own later hfirst hmade =>
    have hnone : label ∉ Entries.keys later.reverse := by
      intro hkey
      rw [Entries.keys, List.map_reverse, List.mem_reverse] at hkey
      obtain ⟨other, hother, otherMade, hyields, hlabel⟩ := hmade.mem_keys_iff.mp hkey
      exact hlater other hother (hyields.mem_labels hlabel)
    -- The label is bound after all that stands under it, and then not again.
    cases hfirst with
    | named _ =>
      rw [List.reverse_append, List.reverse_append, List.append_assoc, Entries.find?_append,
        Entries.find?_of_notMem_keys hnone, List.reverse_append]
      simp [Entries.find?]

/-- Where every piece is found under the label of its element, the shares are the portions. -/
theorem flatMap_share {fields : List (String × Pattern Value)}
    {parts : List (Pattern Value × Value)} {captures : Captures}
    (hparts : parts.map (·.1) = fields.map fun field => .named field.1 field.2)
    (hfound : ∀ label inner piece, (Pattern.named label inner, piece) ∈ parts →
      captures.find? label = some piece) :
    (fields.flatMap fun field => share captures field.1 field.2) =
      parts.flatMap fun part => part.1.portion part.2 := by
  induction fields generalizing parts with
  | nil =>
    obtain rfl := List.map_eq_nil_iff.mp hparts
    rfl
  | cons field rest ih =>
    obtain ⟨part, later, rfl, hpart, hlater⟩ := List.map_eq_cons_iff.mp hparts
    obtain ⟨p, piece⟩ := part
    obtain rfl : p = .named field.1 field.2 := hpart
    have hpiece := hfound _ _ _ List.mem_cons_self
    have hrest := ih hlater fun label inner piece hpart =>
      hfound label inner piece (List.mem_cons_of_mem _ hpart)
    rw [List.flatMap_cons, List.flatMap_cons, hrest, share, hpiece]
    rfl

/-- The captures of a match put its candidate together again, if each element of the pattern is
under a label that no later element has in it. Concatenating what is captured for the elements, the
item for one that takes one item and the slice for one that repeats, gives the items of the
candidate. All the labels are bound, and the slices are of the candidate's kind and of lengths
that the bounds allow. -/
theorem matchAgainst_reassembles {fields : List (String × Pattern Value)} {form : Form}
    {items : List Value} {limits : Limits} {tracer : Option Tracer} {captures : Captures}
    (hlabels : fields.Pairwise fun field later =>
      field.1 ∉ (Pattern.named later.1 later.2).labels)
    (hmatched : ((Pattern.sequence (fields.map fun field => .named field.1 field.2)).matchAgainst
      (.seq form items) limits tracer).outcome = .matched captures) :
    (fields.flatMap fun field => share captures field.1 field.2) = items ∧
      ∀ field ∈ fields, match field.2.repetition? with
        | none => ∃ item ∈ items, captures.find? field.1 = some item
        | some repetition => ∃ slice, captures.find? field.1 = some (.seq form slice) ∧
            Bounds.allow repetition.bounds slice.length = true := by
  obtain ⟨made, hyields, rfl⟩ := exists_yields_of_matched hmatched
  cases hyields with
  | @sequence _ _ _ lengths parts _ _ hcut hall =>
    have hparts := Sequence.map_fst_of_pieces hcut
    have hdistinct : (parts.map (·.1)).Pairwise fun p later =>
        ∀ label inner, p = .named label inner → label ∉ later.labels := by
      rw [hparts]
      refine List.pairwise_map.mpr (hlabels.imp fun {field later} hnew label inner heq => ?_)
      cases heq
      exact hnew
    have hfound : ∀ label inner piece, (Pattern.named label inner, piece) ∈ parts →
        Entries.find? label (Entries.overlay [] made) = some piece := by
      intro label inner piece hpart
      obtain ⟨before, after, rfl⟩ := List.append_of_mem hpart
      rw [List.map_append, List.map_cons] at hdistinct
      have hnew := (List.pairwise_cons.mp (List.pairwise_append.mp hdistinct).2.1).1
      rw [Entries.find?_overlay_reverse, hall.find?_reverse fun part hpart =>
        hnew _ (List.mem_map_of_mem hpart) label inner rfl]
      rfl
    refine ⟨(flatMap_share hparts hfound).trans (Sequence.flatMap_portion hcut), ?_⟩
    intro field hfield
    obtain ⟨piece, hpart⟩ := Sequence.exists_piece hcut (List.mem_map_of_mem hfield)
    have hpiece := hfound _ _ _ hpart
    cases hrepeats : field.2.repetition? with
    | none =>
      have hportion : (Pattern.named field.1 field.2).portion piece = [piece] :=
        portion_of_none hrepeats piece
      refine ⟨piece, ?_, hpiece⟩
      rw [← Sequence.flatMap_portion hcut]
      exact List.mem_flatMap.mpr ⟨_, hpart, by simp only [hportion, List.mem_singleton]⟩
    | some repetition =>
      obtain ⟨slice, rfl⟩ := Sequence.exists_slice hcut hpart hrepeats
      obtain ⟨own, hown⟩ := hall.exists_yields _ hpart
      cases hown with
      | named hinner => exact ⟨slice, hpiece, hinner.matches.allow hrepeats⟩

/-- A slice, an item and another slice, from a tuple. The label of the first element is also bound
below it. -/
theorem matchAgainst_reassembles_tuple :
    let fields : List (String × Pattern Value) :=
      [("init", .repeated (.alternation [.named "init" (.typeCheck .number), .wildcard]) .lazy
          (some ⟨1, 2, by decide⟩)),
        ("mark", .literal (.str "end")), ("rest", .repeated .wildcard .greedy none)]
    let items : List Value := [.int 1, .int 2, .str "end", .null]
    let captures : Captures := [("init", .seq .tuple [.int 1, .int 2]), ("mark", .str "end"),
      ("rest", .seq .tuple [.null])]
    (fields.Pairwise fun field later =>
      field.1 ∉ (Pattern.named later.1 later.2).labels) ∧
    ((Pattern.sequence (fields.map fun field => .named field.1 field.2)).matchAgainst
      (.seq .tuple items) .standard none).outcome = .matched captures ∧
    (fields.flatMap fun field => share captures field.1 field.2) = items := by
  intro fields items captures
  have hlabels : fields.Pairwise fun field later =>
      field.1 ∉ (Pattern.named later.1 later.2).labels := by decide
  have hmatched : ((Pattern.sequence (fields.map fun field => .named field.1 field.2)).matchAgainst
      (.seq .tuple items) .standard none).outcome = .matched captures := rfl
  exact ⟨hlabels, hmatched, (matchAgainst_reassembles hlabels hmatched).1⟩

end Pattern

end Motif
