import Motif.Proofs.Meaning

/-!
The cut that is chosen for a sequence, element by element. Elements that do not repeat take one
item each and leave the choice to the rest. A repetition takes the length that it prefers over all
others on which it matches and which the rest can be completed after, and the rest is cut as it
would be on its own. So a sequence can be reasoned about from its first element on, without looking
at whole vectors of lengths, and a search that goes from one element to the next can be seen to make
this choice.
-/

namespace Motif

namespace Pattern

theorem YieldsAll.append {parts later : List (Pattern Value × Value)} {made made' : Captures}
    (h : YieldsAll parts made) (h' : YieldsAll later made') :
    YieldsAll (parts ++ later) (made ++ made') := by
  induction parts generalizing made with
  | nil =>
    cases h
    exact h'
  | cons part rest ih =>
    cases h with
    | cons hfirst hrest =>
      rw [List.append_assoc]
      exact .cons hfirst (ih hrest)

theorem yieldsAll_append {parts later : List (Pattern Value × Value)} {made : Captures} :
    YieldsAll (parts ++ later) made ↔
      ∃ own rest, made = own ++ rest ∧ YieldsAll parts own ∧ YieldsAll later rest := by
  constructor
  · intro h
    induction parts generalizing made with
    | nil => exact ⟨[], made, rfl, .nil, h⟩
    | cons part parts ih =>
      cases h with
      | cons hfirst hrest =>
        obtain ⟨own, rest, rfl, hown, hlater⟩ := ih hrest
        exact ⟨_, rest, (List.append_assoc _ _ _).symm, .cons hfirst hown, hlater⟩
  · rintro ⟨own, rest, rfl, hown, hlater⟩
    exact hown.append hlater

end Pattern

namespace Sequence

open Pattern

/-- How a sequence is taken apart: the lengths that come first among the valid ones, the pieces that
they cut, and what the elements yield on these. -/
structure Chosen (form : Form) (elements : List (Pattern Value)) (items : List Value)
    (lengths : List Nat) (parts : List (Pattern Value × Value)) (made : Captures) : Prop where
  first : First (modes elements) (Valid Matches form elements items) lengths
  cut : pieces form elements lengths items = some parts
  yields : YieldsAll parts made

/-- Whether a repetition can take a length: it matches the slice, and the rest can be completed. -/
def Completes (form : Form) (p : Pattern Value) (rest : List (Pattern Value)) (items : List Value)
    (length : Nat) : Prop :=
  length ≤ items.length ∧ Matches p (.seq form (items.take length)) ∧
    ∃ lengths, Valid Matches form rest (items.drop length) lengths

variable {form : Form} {p : Pattern Value} {ps rest : List (Pattern Value)}
  {repetition : Repetition} {items : List Value} {lengths : List Nat}
  {parts : List (Pattern Value × Value)} {made : Captures}

theorem chosen_nil :
    Chosen form [] items lengths parts made ↔
      items = [] ∧ lengths = [] ∧ parts = [] ∧ made = [] := by
  constructor
  · rintro ⟨-, hcut, hyields⟩
    obtain ⟨rfl, rfl, rfl⟩ := pieces_nil hcut
    cases hyields
    exact ⟨rfl, rfl, rfl, rfl⟩
  · rintro ⟨rfl, rfl, rfl, rfl⟩
    refine ⟨⟨valid_nil.mpr ⟨rfl, rfl⟩, fun other hother hne => ?_⟩, rfl, .nil⟩
    exact absurd (valid_nil.mp hother).1 hne

/-- Elements that do not repeat take one item each, and the rest is cut on its own. -/
theorem chosen_fixed (hfixed : ∀ p ∈ ps, p.repetition? = none) :
    Chosen form (ps ++ rest) items lengths parts made ↔
      ps.length ≤ items.length ∧ ∃ later own made',
        parts = ps.zip items ++ later ∧ made = own ++ made' ∧ YieldsAll (ps.zip items) own ∧
          Chosen form rest (items.drop ps.length) lengths later made' := by
  -- What the fixed elements take does not depend on the lengths.
  have hsame : ps.length ≤ items.length → (∀ part ∈ ps.zip items, Matches part.1 part.2) →
      ∀ lengths, Valid Matches form (ps ++ rest) items lengths ↔
        Valid Matches form rest (items.drop ps.length) lengths := fun hwide hmatches _ =>
    (valid_fixed hfixed).trans ⟨fun h => h.2.2, fun h => ⟨hwide, hmatches, h⟩⟩
  constructor
  · rintro ⟨hfirst, hcut, hyields⟩
    obtain ⟨hwide, hmatches, -⟩ := (valid_fixed hfixed).mp hfirst.holds
    rw [pieces_fixed form rest lengths hfixed, if_pos hwide] at hcut
    obtain ⟨later, hlater, rfl⟩ := Option.map_eq_some_iff.mp hcut
    obtain ⟨own, made', rfl, hown, hmade'⟩ := yieldsAll_append.mp hyields
    rw [modes_fixed hfixed] at hfirst
    exact ⟨hwide, later, own, made', rfl, rfl, hown, hfirst.congr (hsame hwide hmatches), hlater,
      hmade'⟩
  · rintro ⟨hwide, later, own, made', rfl, rfl, hown, hrest⟩
    have hmatches : ∀ part ∈ ps.zip items, Matches part.1 part.2 := by
      intro part hpart
      obtain ⟨_, hyields⟩ := hown.exists_yields part hpart
      exact hyields.matches
    refine ⟨?_, ?_, hown.append hrest.yields⟩
    · rw [modes_fixed hfixed]
      exact hrest.first.congr fun lengths => (hsame hwide hmatches lengths).symm
    · rw [pieces_fixed form rest lengths hfixed, if_pos hwide, hrest.cut]
      rfl

theorem valid_cons_iff_completes (hrepeats : p.repetition? = some repetition) {length : Nat} :
    (∃ later, Valid Matches form (p :: rest) items (length :: later)) ↔
      Completes form p rest items length := by
  constructor
  · rintro ⟨later, hvalid⟩
    obtain ⟨_, _, hsame, hfits, hmatches, hlater⟩ := (valid_repeated hrepeats).mp hvalid
    cases hsame
    exact ⟨hfits, hmatches, later, hlater⟩
  · rintro ⟨hfits, hmatches, later, hlater⟩
    exact ⟨later, (valid_repeated hrepeats).mpr ⟨length, later, rfl, hfits, hmatches, hlater⟩⟩

/-- A repetition takes the length that it prefers over all others that it can take, and the rest is
cut on its own. -/
theorem chosen_repeated (hrepeats : p.repetition? = some repetition) :
    Chosen form (p :: rest) items lengths parts made ↔
      ∃ length lengths' later own made',
        lengths = length :: lengths' ∧ parts = (p, .seq form (items.take length)) :: later ∧
        made = own ++ made' ∧ length ≤ items.length ∧
        Yields p (.seq form (items.take length)) own ∧
        Chosen form rest (items.drop length) lengths' later made' ∧
        ∀ other, Completes form p rest items other → other ≠ length →
          repetition.mode.Prefers length other := by
  constructor
  · rintro ⟨hfirst, hcut, hyields⟩
    obtain ⟨length, lengths', rfl, hfits, hmatches, hvalid⟩ :=
      (valid_repeated hrepeats).mp hfirst.holds
    rw [pieces_repeated form rest hrepeats, if_pos hfits] at hcut
    obtain ⟨later, hlater, rfl⟩ := Option.map_eq_some_iff.mp hcut
    cases hyields with
    | cons hown hmade' =>
      have hprecedes := hfirst.precedes
      rw [modes_repeated hrepeats] at hprecedes
      refine ⟨length, lengths', later, _, _, rfl, rfl, rfl, hfits, hown,
        ⟨⟨hvalid, fun other hother hne => ?_⟩, hlater, hmade'⟩, fun other hother hne => ?_⟩
      · -- Vectors with the same length in front differ in the rest.
        have hwhole : Valid Matches form (p :: rest) items (length :: other) :=
          (valid_repeated hrepeats).mpr ⟨length, other, rfl, hfits, hmatches, hother⟩
        rcases hprecedes _ hwhole (by simpa using hne) with hself | ⟨-, hrest⟩
        · exact absurd hself Mode.Prefers.irrefl
        · exact hrest
      · obtain ⟨vector, hwhole⟩ := (valid_cons_iff_completes hrepeats).mpr hother
        rcases hprecedes _ hwhole (by simp [hne]) with hprefers | ⟨hsame, -⟩
        · exact hprefers
        · exact absurd hsame.symm hne
  · rintro ⟨length, lengths', later, own, made', rfl, rfl, rfl, hfits, hown, hrest, hprefers⟩
    refine ⟨⟨?_, fun other hother hne => ?_⟩, ?_, .cons hown hrest.yields⟩
    · exact (valid_repeated hrepeats).mpr
        ⟨length, lengths', rfl, hfits, hown.matches, hrest.first.holds⟩
    · obtain ⟨length', vector, rfl, hfits', hmatches', hvector⟩ :=
        (valid_repeated hrepeats).mp hother
      rw [modes_repeated hrepeats]
      by_cases hsame : length' = length
      · subst hsame
        have hrestne : vector ≠ lengths' := fun heq => hne (by rw [heq])
        exact Or.inr ⟨rfl, hrest.first.precedes vector hvector hrestne⟩
      · exact Or.inl (hprefers length' ⟨hfits', hmatches', vector, hvector⟩ hsame)
    · rw [pieces_repeated form rest hrepeats, if_pos hfits, hrest.cut]
      rfl

end Sequence

namespace Pattern

theorem yields_sequence_iff {elements : List (Pattern Value)} {form : Form} {items : List Value}
    {made : Captures} :
    Yields (.sequence elements) (.seq form items) made ↔
      ∃ lengths parts, Sequence.Chosen form elements items lengths parts made := by
  constructor
  · intro h
    cases h with
    | sequence hfirst hcut hyields => exact ⟨_, _, hfirst, hcut, hyields⟩
  · rintro ⟨lengths, parts, hfirst, hcut, hyields⟩
    exact .sequence hfirst hcut hyields

end Pattern

end Motif
