import Motif.Proofs.Cut

/-!
What patterns mean, without a search. `Matches` says which values have the shape
that a pattern describes; it knows nothing of captures, of what repetitions
prefer, or of the order in which anything is tried. `Yields` says in addition
what a match captures: a choice yields what its first matching option yields, and
a sequence what its elements yield on the pieces of the first valid cut. Nothing
that is tried and given up has a part in either.
-/

namespace Motif

theorem Repetition.least_le_of_allow {repetition : Repetition} {length : Nat}
    (hallow : Bounds.allow repetition.bounds length = true) : repetition.least ≤ length := by
  obtain ⟨mode, _ | bounds⟩ := repetition
  · exact Nat.zero_le length
  · simp only [Bounds.allow, Bool.and_eq_true, decide_eq_true_eq] at hallow
    exact hallow.1

theorem Repetition.allow_least (r : Repetition) : Bounds.allow r.bounds r.least = true := by
  obtain ⟨mode, _ | bounds⟩ := r
  · rfl
  · simp [Bounds.allow, least, Bounds.least, bounds.min_le_max]

namespace Pattern

/-- The values that have the shape of a pattern. -/
inductive Matches : Pattern Value → Value → Prop
  | wildcard {v} : Matches .wildcard v
  | literal {expected v} (hequal : expected.strictlyEqual v = true) :
    Matches (.literal expected) v
  | typeCheck {kind v} (hkind : v.kind = kind.kind) : Matches (.typeCheck kind) v
  | alternation {options p v} (hp : p ∈ options) (h : Matches p v) :
    Matches (.alternation options) v
  | sequence {elements form items lengths parts}
    (hcut : Sequence.pieces form elements lengths items = some parts)
    (h : ∀ part ∈ parts, Matches part.1 part.2) : Matches (.sequence elements) (.seq form items)
  | repeated {inner mode bounds form items} (hlength : Bounds.allow bounds items.length = true)
    (h : ∀ item ∈ items, Matches inner item) :
    Matches (.repeated inner mode bounds) (.seq form items)
  | arrayOf {inner bounds form items} (hlength : Bounds.allow bounds items.length = true)
    (h : ∀ item ∈ items, Matches inner item) : Matches (.arrayOf inner bounds) (.seq form items)
  | named {label inner v} (h : Matches inner v) : Matches (.named label inner) v
  | choiceFrom {source options p v} (hp : p ∈ options) (h : Matches p v) :
    Matches (.choiceFrom source options) v

mutual

/-- What a match captures, in the order in which it is captured. A label may come more than
once; which value it keeps is decided when the captures are put together. -/
inductive Yields : Pattern Value → Value → Captures → Prop
  | wildcard {v} : Yields .wildcard v []
  | literal {expected v} (hequal : expected.strictlyEqual v = true) :
    Yields (.literal expected) v []
  | typeCheck {kind v} (hkind : v.kind = kind.kind) : Yields (.typeCheck kind) v []
  | alternation {options before p after v made} (hoptions : options = before ++ p :: after)
    (hbefore : ∀ q ∈ before, ¬ Matches q v) (h : Yields p v made) :
    Yields (.alternation options) v made
  | sequence {elements form items lengths parts made}
    (hfirst : First (Sequence.modes elements) (Sequence.Valid Matches form elements items) lengths)
    (hcut : Sequence.pieces form elements lengths items = some parts)
    (h : YieldsAll parts made) : Yields (.sequence elements) (.seq form items) made
  | repeated {inner mode bounds form items made}
    (hlength : Bounds.allow bounds items.length = true)
    (h : YieldsAll (items.map (Prod.mk inner)) made) :
    Yields (.repeated inner mode bounds) (.seq form items) made
  | arrayOf {inner bounds form items made} (hlength : Bounds.allow bounds items.length = true)
    (h : YieldsAll (items.map (Prod.mk inner)) made) :
    Yields (.arrayOf inner bounds) (.seq form items) made
  | named {label inner v made} (h : Yields inner v made) :
    Yields (.named label inner) v (made ++ [(label, v)])
  | choiceFrom {source options before p after v made}
    (hoptions : options = before ++ p :: after) (hbefore : ∀ q ∈ before, ¬ Matches q v)
    (h : Yields p v made) : Yields (.choiceFrom source options) v made

/-- What patterns capture together, each on its own value. -/
inductive YieldsAll : List (Pattern Value × Value) → Captures → Prop
  | nil : YieldsAll [] []
  | cons {p v parts made later} (hfirst : Yields p v made) (hrest : YieldsAll parts later) :
    YieldsAll ((p, v) :: parts) (made ++ later)

end

theorem matches_sequence_iff {elements : List (Pattern Value)} {form : Form}
    {items : List Value} :
    Matches (.sequence elements) (.seq form items) ↔
      ∃ lengths, Sequence.Valid Matches form elements items lengths := by
  constructor
  · rintro (_ | _ | _ | _ | ⟨hcut, h⟩)
    exact ⟨_, _, hcut, h⟩
  · rintro ⟨lengths, parts, hcut, h⟩
    exact .sequence hcut h

/-- Each part of a whole has its own yield. -/
theorem YieldsAll.exists_yields {parts : List (Pattern Value × Value)} {made : Captures}
    (h : YieldsAll parts made) : ∀ part ∈ parts, ∃ own, Yields part.1 part.2 own := by
  induction parts generalizing made with
  | nil => simp
  | cons part rest ih =>
    cases h with
    | cons hfirst hrest => exact List.forall_mem_cons.mpr ⟨⟨_, hfirst⟩, ih hrest⟩

/-- Only a match captures anything. -/
theorem Yields.matches {p : Pattern Value} {v : Value} {made : Captures} (h : Yields p v made) :
    Matches p v := by
  induction p using Pattern.induction generalizing v made with
  | wildcard => exact .wildcard
  | literal expected =>
    cases h with
    | literal hequal => exact .literal hequal
  | typeCheck kind =>
    cases h with
    | typeCheck hkind => exact .typeCheck hkind
  | alternation options ih =>
    cases h with
    | alternation hoptions _ h =>
      have hp := hoptions ▸ List.mem_append_right _ List.mem_cons_self
      exact .alternation hp (ih _ hp h)
  | sequence elements _ =>
    cases h with
    | sequence hfirst _ _ => exact matches_sequence_iff.mpr ⟨_, hfirst.holds⟩
  | repeated inner mode bounds ih =>
    cases h with
    | repeated hlength h =>
      refine .repeated hlength fun item hitem => ?_
      obtain ⟨own, hown⟩ := h.exists_yields (inner, item) (List.mem_map_of_mem hitem)
      exact ih hown
  | arrayOf inner bounds ih =>
    cases h with
    | arrayOf hlength h =>
      refine .arrayOf hlength fun item hitem => ?_
      obtain ⟨own, hown⟩ := h.exists_yields (inner, item) (List.mem_map_of_mem hitem)
      exact ih hown
  | named label inner ih =>
    cases h with
    | named h => exact .named (ih h)
  | unspecified tag => cases h
  | misfit flaw value => cases h
  | choiceFrom source options ih =>
    cases h with
    | choiceFrom hoptions _ h =>
      have hp := hoptions ▸ List.mem_append_right _ List.mem_cons_self
      exact .choiceFrom hp (ih _ hp h)

/-- If `before ++ p :: after` and `before' ++ p' :: after'` are one list, and the elements in
front of the marked ones fail a test that the marked ones pass, the marked ones are the same. -/
private theorem first_option_unique {α : Type} {passes : α → Prop} {before before' : List α}
    {p p' : α} {after after' : List α}
    (hsame : before ++ p :: after = before' ++ p' :: after')
    (hbefore : ∀ q ∈ before, ¬ passes q) (hbefore' : ∀ q ∈ before', ¬ passes q)
    (hp : passes p) (hp' : passes p') : p = p' := by
  induction before generalizing before' with
  | nil =>
    rcases before' with _ | ⟨q, before'⟩
    · exact (List.cons.inj hsame).1
    · have hq : p = q := (List.cons.inj hsame).1
      exact absurd hp (hq ▸ hbefore' q List.mem_cons_self)
  | cons q before ih =>
    rcases before' with _ | ⟨q', before'⟩
    · have hq : q = p' := (List.cons.inj hsame).1
      exact absurd hp' (hq ▸ hbefore q List.mem_cons_self)
    · exact ih (List.cons.inj hsame).2 (List.forall_mem_cons.mp hbefore).2
        (List.forall_mem_cons.mp hbefore').2

theorem YieldsAll.unique {parts : List (Pattern Value × Value)} {made made' : Captures}
    (hunique : ∀ part ∈ parts, ∀ own own', Yields part.1 part.2 own →
      Yields part.1 part.2 own' → own = own')
    (h : YieldsAll parts made) (h' : YieldsAll parts made') : made = made' := by
  induction parts generalizing made made' with
  | nil =>
    cases h
    cases h'
    rfl
  | cons part rest ih =>
    obtain ⟨hpart, hall⟩ := List.forall_mem_cons.mp hunique
    cases h with
    | cons hfirst hrest =>
      cases h' with
      | cons hfirst' hrest' => rw [hpart _ _ hfirst hfirst', ih hall hrest hrest']

/-- What a match captures is settled by the pattern and the value. -/
theorem Yields.unique {p : Pattern Value} {v : Value} {made made' : Captures}
    (h : Yields p v made) (h' : Yields p v made') : made = made' := by
  induction p using Pattern.induction generalizing v made made' with
  | wildcard =>
    cases h
    cases h'
    rfl
  | literal expected =>
    cases h
    cases h'
    rfl
  | typeCheck kind =>
    cases h
    cases h'
    rfl
  | alternation options ih =>
    cases h with
    | alternation hoptions hbefore h =>
      cases h' with
      | alternation hoptions' hbefore' h' =>
        obtain rfl := first_option_unique (hoptions.symm.trans hoptions') hbefore hbefore'
          h.matches h'.matches
        exact ih _ (hoptions ▸ List.mem_append_right _ List.mem_cons_self) h h'
  | sequence elements ih =>
    cases h with
    | sequence hfirst hcut h =>
      cases h' with
      | sequence hfirst' hcut' h' =>
        obtain rfl := hfirst.unique hfirst'
        obtain rfl := Option.some.inj (hcut.symm.trans hcut')
        refine YieldsAll.unique (fun part hpart own own' hown hown' => ?_) h h'
        exact ih part.1 (Sequence.mem_of_mem_pieces hcut hpart) hown hown'
  | repeated inner mode bounds ih =>
    cases h with
    | repeated _ h =>
      cases h' with
      | repeated _ h' =>
        refine YieldsAll.unique (fun part hpart own own' hown hown' => ?_) h h'
        obtain ⟨item, _, rfl⟩ := List.mem_map.mp hpart
        exact ih hown hown'
  | arrayOf inner bounds ih =>
    cases h with
    | arrayOf _ h =>
      cases h' with
      | arrayOf _ h' =>
        refine YieldsAll.unique (fun part hpart own own' hown hown' => ?_) h h'
        obtain ⟨item, _, rfl⟩ := List.mem_map.mp hpart
        exact ih hown hown'
  | named label inner ih =>
    cases h with
    | named h =>
      cases h' with
      | named h' => rw [ih h h']
  | unspecified tag => cases h
  | misfit flaw value => cases h
  | choiceFrom source options ih =>
    cases h with
    | choiceFrom hoptions hbefore h =>
      cases h' with
      | choiceFrom hoptions' hbefore' h' =>
        obtain rfl := first_option_unique (hoptions.symm.trans hoptions') hbefore hbefore'
          h.matches h'.matches
        exact ih _ (hoptions ▸ List.mem_append_right _ List.mem_cons_self) h h'

/-- A repetition matches only slices of a length that its bounds allow, however many labels it
stands under. -/
theorem Matches.allow {p : Pattern Value} {repetition : Repetition} {form : Form}
    {items : List Value} (hrepeats : p.repetition? = some repetition)
    (h : Matches p (.seq form items)) :
    Bounds.allow repetition.bounds items.length = true := by
  induction p using Pattern.induction with
  | repeated inner mode bounds _ =>
    cases hrepeats
    cases h with
    | repeated hlength _ => exact hlength
  | named label inner ih =>
    cases h with
    | named h => exact ih hrepeats h
  | _ => cases hrepeats

end Pattern

namespace Sequence

/-- Chunks that need more items than there are have no valid cut. -/
theorem leastTotal_le_of_valid {form : Form} {chunks : List (Chunk (Pattern Value))}
    (haligned : ∀ chunk ∈ chunks, chunk.Aligned Pattern.repetition?) {items : List Value}
    {lengths : List Nat}
    (h : Valid Pattern.Matches form (chunks.flatMap Chunk.elements) items lengths) :
    Chunk.leastTotal chunks ≤ items.length := by
  induction chunks generalizing items lengths with
  | nil => exact Nat.zero_le _
  | cons chunk rest ih =>
    obtain ⟨hchunk, hrest⟩ := List.forall_mem_cons.mp haligned
    cases chunk with
    | fixed ps =>
      obtain ⟨hwide, _, hlater⟩ := (valid_fixed hchunk).mp h
      have hneeds := ih hrest hlater
      rw [List.length_drop] at hneeds
      simp only [Chunk.leastTotal, Chunk.least]
      omega
    | repeated p repetition =>
      obtain ⟨length, later, rfl, hfits, hmatches, hlater⟩ := (valid_repeated hchunk).mp h
      have hneeds := ih hrest hlater
      have hallow := hmatches.allow hchunk
      rw [List.length_take, Nat.min_eq_left hfits] at hallow
      have hleast : repetition.least ≤ length := Repetition.least_le_of_allow hallow
      rw [List.length_drop] at hneeds
      simp only [Chunk.leastTotal, Chunk.least]
      omega

end Sequence

end Motif
