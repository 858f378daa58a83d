import Mathlib.Order.Bounds.Defs
import Motif.Proofs.Partition
import Motif.Proofs.Replay

/-!
How many items the chunks of a sequence consume. A walk that matches from a chunk on consumes all
the items that are left there, and at least as many as the chunks need. Just as many are enough
wherever any number is: of each slice that was taken, a beginning of the least length does as well,
and then there is only one length to try for each repetition, so the shorter walk stays on the same
levels and counts no more steps than the longer one.
-/

namespace Motif

namespace Repetition

/-- Where there are just as many items as the repetition and the later chunks need, there is only
one length to try. -/
theorem lengths_least (r : Repetition) (needed : Nat) :
    r.lengths (r.least + needed) needed = [r.least] := by
  have hascending : r.ascending r.least = [r.least] := by
    obtain ⟨mode, _ | bounds⟩ := r
    · simp [ascending, least, Bounds.least]
    · have hhigh : min (bounds.min : Int) bounds.max = bounds.min :=
        Int.min_eq_left (Int.ofNat_le.mpr bounds.min_le_max)
      simp [ascending, least, Bounds.least, hhigh]
  have havailable : ((r.least + needed : Nat) : Int) - needed = r.least := by omega
  rw [lengths, havailable, takes, hascending]
  cases r.mode <;> rfl

end Repetition

namespace Pattern

open Run

/-- A repetition matches only slices of a length that its bounds allow. -/
theorem ensures_allow {lengths : LengthPolicy} {form : Form} {p : Pattern Value}
    {repetition : Repetition} (hrepeats : p.repetition? = some repetition) (slice : List Value)
    (captures : Captures) :
    (bindWith lengths p (.seq form slice) captures).Ensures
      (fun _ => Bounds.allow repetition.bounds slice.length = true) True := by
  induction p using Pattern.induction generalizing captures with
  | repeated inner mode bounds _ =>
    cases hrepeats
    simp only [bindWith, bindEach, Value.items?]
    split
    · next hallow => exact ensures_of_forall fun _ => hallow
    · exact ensures_fail trivial
  | named label inner ih =>
    exact ensures_andThen (ih hrepeats captures) fun _ hallow => ensures_succeed hallow
  | _ => cases hrepeats

end Pattern

namespace Sequence

open Pattern Run

variable {lengths : LengthPolicy} {form : Form} {chunks : List (Chunk (Pattern Value))}
  {ci xi : Nat} {items : List Value} {captures made : Captures} {s after : Search}

/-- Whichever lengths are tried, a walk that matches has at least as many items as its chunks
need. -/
theorem ensures_enough (lengths : LengthPolicy) (form : Form)
    (haligned : ∀ chunk ∈ chunks, chunk.Aligned repetition?) (ci xi : Nat) (items : List Value)
    (captures : Captures) :
    (walk lengths form ci (chunks.map (Chunk.map (matcher lengths))) xi items captures).Ensures
      (fun _ => Chunk.leastTotal chunks ≤ items.length) True := by
  induction chunks generalizing ci xi items captures with
  | nil => exact ensures_of_forall fun _ => Nat.zero_le _
  | cons chunk rest ih =>
    obtain ⟨hchunk, hrest⟩ := List.forall_mem_cons.mp haligned
    cases chunk with
    | fixed ps =>
      simp only [List.map_cons, Chunk.map, walk, List.length_map]
      apply ensures_counted
      split
      · exact ensures_noting _ (ensures_fail trivial)
      · next hwide =>
        refine ensures_andThen (ensures_of_forall fun _ => True.intro) fun captures _ => ?_
        refine ensures_noting _ ((ih hrest _ _ _ _).imp (fun _ hneeds => ?_) id)
        rw [List.length_drop] at hneeds
        simp only [Chunk.leastTotal, Chunk.least]
        omega
    | repeated p repetition =>
      simp only [List.map_cons, Chunk.map, walk, Chunk.leastTotal_map]
      apply ensures_counted
      refine ensures_firstOf_same fun take _ => ensures_noting _ ?_
      refine ensures_andThen (ensures_allow hchunk _ captures) fun captures hallow => ?_
      refine (ih hrest _ _ _ _).imp (fun _ hneeds => ?_) id
      have hleast := Repetition.least_le_of_allow hallow
      rw [List.length_take] at hleast
      rw [List.length_drop] at hneeds
      simp only [Chunk.leastTotal, Chunk.least]
      omega

private theorem zip_append_left {α β : Type} {ps : List α} {taken : List β}
    (htaken : taken.length = ps.length) (left : List β) :
    ps.zip (taken ++ left) = ps.zip taken := by
  have hzip := @List.zip_append _ _ ps [] taken left htaken.symm
  rwa [List.append_nil, List.zip_nil_left, List.append_nil] at hzip

/-- With items for all elements of the run at its start, a walk matches when there is a step left,
the elements match in turn, and the walk over the rest matches. -/
theorem walk_fixed_eq_matched_iff {ps : List (Pattern Value)} {rest : List (Chunk Matcher)}
    {taken left : List Value} (htaken : taken.length = ps.length) :
    walk lengths form ci (.fixed (ps.map (matcher lengths)) :: rest) xi (taken ++ left) captures s =
        (.matched made, after) ↔
      s.step.1 = none ∧ ∃ own between,
        inTurn (ps.zip taken) (fun part => bindWith lengths part.1 part.2) captures s.step.2 =
          (.matched own, between) ∧
        walk lengths form (ci + 1) rest (xi + ps.length) left own
          (between.note (.fixed ci xi ps.length true)) = (.matched made, after) := by
  have hwide : ¬ (taken ++ left).length < ps.length := by
    rw [List.length_append, htaken]
    omega
  simp only [walk, List.length_map, counted_eq_matched_iff, if_neg hwide, List.zip_map_left,
    zip_append_left htaken, inTurn_map, List.drop_left' htaken]
  refine and_congr_right fun _ => ?_
  constructor
  · intro h
    obtain ⟨own, between, hturn, hlater⟩ := andThen_eq_matched_iff.mp h
    rcases orElse_eq_matched_iff.mp hturn with hown | ⟨_, _, hmiss⟩
    · exact ⟨own, between, hown, hlater⟩
    · cases hmiss
  · rintro ⟨own, between, hown, hlater⟩
    exact andThen_eq_matched_iff.mpr
      ⟨own, between, orElse_eq_matched_iff.mpr (Or.inl hown), hlater⟩

/-- With just the items that the repetition at its start and the later chunks need, a walk matches
when the repetition matches its share and the walk over the rest matches. -/
theorem walk_repeated_of_least {m : Matcher} {repetition : Repetition} {rest : List (Chunk Matcher)}
    {taken left : List Value} (htaken : taken.length = repetition.least)
    (hleft : left.length = Chunk.leastTotal rest) (hstep : s.step.1 = none) {own : Captures}
    {between : Search}
    (hown : m.bind (.seq form taken) captures
      (s.step.2.note (.repeated ci xi repetition.least repetition.mode)) = (.matched own, between))
    (hlater : walk Repetition.lengths form (ci + 1) rest (xi + repetition.least) left own between =
      (.matched made, after)) :
    walk Repetition.lengths form ci (.repeated m repetition :: rest) xi (taken ++ left) captures
      s = (.matched made, after) := by
  rw [walk, counted_eq_matched_iff, List.length_append, htaken, hleft, Repetition.lengths_least]
  refine ⟨hstep, orElse_eq_matched_iff.mpr (Or.inl (andThen_eq_matched_iff.mpr ?_))⟩
  rw [List.take_left' htaken, List.drop_left' htaken]
  exact ⟨own, between, hown, hlater⟩

/-- Items suffice for a walk when it matches them from any captures and in any search that is no
further on. -/
def Suffice (form : Form) (ci : Nat) (chunks : List (Chunk (Pattern Value))) (items : List Value)
    (s : Search) : Prop :=
  ∀ xi captures t, t.Behind s → ∃ made after,
    walk Repetition.lengths form ci (chunks.map (Chunk.map (matcher Repetition.lengths))) xi items
      captures t = (.matched made, after)

/-- What a run has matched suffices for it again, in front of what suffices for the later chunks. -/
theorem Suffice.fixed {ps : List (Pattern Value)} {taken left : List Value} {own : Captures}
    {between : Search} (htaken : taken.length = ps.length) (hstep : s.step.1 = none)
    (hown : inTurn (ps.zip taken) (fun part => bindWith Repetition.lengths part.1 part.2) captures
      s.step.2 = (.matched own, between))
    (hleft : Suffice form (ci + 1) chunks left (between.note (.fixed ci xi ps.length true))) :
    Suffice form ci (.fixed ps :: chunks) (taken ++ left) s := by
  intro xi' captures' t hbehind
  have horderly : Orderly (tallest ps) (inTurn (ps.zip taken) fun part =>
      bindWith Repetition.lengths part.1 part.2) :=
    (closed_orderly (tallest ps)).inTurn fun part hpart =>
      orderly_bindWith _ (height_le_tallest ps part.1 (List.of_mem_zip hpart).1) part.2
  obtain ⟨own', between', hown', hbetween⟩ :=
    horderly.standsIn hown captures' t.step.2 hbehind.step
  obtain ⟨made', after', hmade'⟩ := hleft (xi' + ps.length) own'
    (between'.note (.fixed ci xi' ps.length true)) (hbetween.note _ _)
  exact ⟨made', after', (walk_fixed_eq_matched_iff htaken).mpr
    ⟨hbehind.may_step hstep, own', between', hown', hmade'⟩⟩

/-- Of a slice that a repetition has matched, a beginning of the least length suffices for it, in
front of just as many items as the later chunks need. -/
theorem Suffice.repeated {p : Pattern Value} {repetition : Repetition}
    {slice left : List Value} {own : Captures} {before between : Search} {decision : Decision}
    (hrepeats : p.repetition? = some repetition) (hslice : repetition.least ≤ slice.length)
    (hstep : s.step.1 = none) (hbefore : s.step.2.Behind before)
    (hown : bindWith Repetition.lengths p (.seq form slice) captures (before.note decision) =
      (.matched own, between))
    (hlength : left.length = Chunk.leastTotal chunks)
    (hleft : Suffice form (ci + 1) chunks left between) :
    Suffice form ci (.repeated p repetition :: chunks) (slice.take repetition.least ++ left) s := by
  intro xi' captures' t hbehind
  have htaken : (slice.take repetition.least).length = repetition.least :=
    List.length_take_of_le hslice
  have hneeded : left.length =
      Chunk.leastTotal (chunks.map (Chunk.map (matcher Repetition.lengths))) := by
    rw [hlength, Chunk.leastTotal_map]
  -- The slice may have been bound after attempts that failed, its beginning is bound at once.
  have hnoted := (hbehind.step.trans hbefore).note
    (.repeated ci xi' repetition.least repetition.mode) decision
  obtain ⟨own', between', hown', hbetween⟩ :=
    standsIn_slice hrepeats repetition.allow_least hslice hown captures' _ hnoted
  obtain ⟨made', after', hmade'⟩ := hleft (xi' + repetition.least) own' between' hbetween
  exact ⟨made', after',
    walk_repeated_of_least htaken hneeded (hbehind.may_step hstep) hown' hmade'⟩

/-- If a walk matches, then just as many items as its chunks need suffice for it. -/
theorem exists_fewer (haligned : ∀ chunk ∈ chunks, chunk.Aligned repetition?)
    (h : walk Repetition.lengths form ci (chunks.map (Chunk.map (matcher Repetition.lengths))) xi
      items captures s = (.matched made, after)) :
    ∃ fewer : List Value, fewer.length = Chunk.leastTotal chunks ∧
      Suffice form ci chunks fewer s := by
  induction chunks generalizing ci xi items captures s with
  | nil => exact ⟨[], rfl, fun _ captures t _ => ⟨captures, t, rfl⟩⟩
  | cons chunk rest ih =>
    obtain ⟨hchunk, hrest⟩ := List.forall_mem_cons.mp haligned
    cases chunk with
    | fixed ps =>
      have hneeds := (ensures_enough _ form haligned ci xi items captures).matched
        (congrArg Prod.fst h)
      have hwide : ps.length ≤ items.length := by
        simp only [Chunk.leastTotal, Chunk.least] at hneeds
        omega
      obtain ⟨taken, left, rfl, htaken⟩ : ∃ taken left, items = taken ++ left ∧
          taken.length = ps.length :=
        ⟨_, _, (List.take_append_drop ps.length items).symm, List.length_take_of_le hwide⟩
      obtain ⟨hstep, own, between, hown, hlater⟩ := (walk_fixed_eq_matched_iff htaken).mp h
      obtain ⟨fewer, hlength, hfewer⟩ := ih hrest hlater
      refine ⟨taken ++ fewer, ?_, .fixed htaken hstep hown hfewer⟩
      rw [List.length_append, htaken, hlength]
      rfl
    | repeated p repetition =>
      simp only [List.map_cons, Chunk.map, walk, Chunk.leastTotal_map] at h
      obtain ⟨hstep, hways⟩ := counted_eq_matched_iff.mp h
      obtain ⟨take, htake, between, hbetween, hattempt⟩ := exists_way (fun take _ =>
        steady_attempt Repetition.lengths form p rest rfl _ _ _ _) hways
      obtain ⟨own, middle, hown, hlater⟩ := andThen_eq_matched_iff.mp hattempt
      obtain ⟨fewer, hlength, hfewer⟩ := ih hrest hlater
      have hfits : repetition.least ≤ (items.take take).length := by
        rw [List.length_take_of_le (Repetition.faithful_lengths.fits htake)]
        exact Repetition.least_le_of_allow ((Repetition.mem_takes _ _ _).mp htake).1
      refine ⟨(items.take take).take repetition.least ++ fewer, ?_,
        .repeated hchunk hfits hstep hbetween hown hlength hfewer⟩
      rw [List.length_append, List.length_take_of_le hfits, hlength]
      rfl

end Sequence

namespace Pattern

open Run

/-- The walk of a sequence pattern from one of its chunks on. -/
def walkFrom (lengths : LengthPolicy) (form : Form) (elements : List (Pattern Value))
    (ci xi : Nat) : List Value → Captures → Run :=
  Sequence.walk lengths form ci
    ((Chunk.cut Matcher.repetition? (matchersWith lengths elements)).drop ci) xi

/-- The numbers of items that the chunks of a sequence pattern can consume from one of them on, in
a search. The chunks have to come to their end together with the items, so a walk that matches
has consumed all of them. -/
def consumable (lengths : LengthPolicy) (form : Form) (elements : List (Pattern Value))
    (ci xi : Nat) (captures : Captures) (s : Search) : Set Nat :=
  { n | ∃ items made, items.length = n ∧
    (walkFrom lengths form elements ci xi items captures s).1 = .matched made }

theorem walkFrom_eq (lengths : LengthPolicy) (form : Form) (elements : List (Pattern Value))
    (ci xi : Nat) :
    walkFrom lengths form elements ci xi = Sequence.walk lengths form ci
      (((chunks elements).drop ci).map (Chunk.map (matcher lengths))) xi := by
  rw [walkFrom, cut_matchersWith, List.map_drop]

section

variable {elements : List (Pattern Value)} {form : Form} {ci xi n : Nat} {captures : Captures}
  {s : Search}

theorem leastTotal_le_of_consumable {lengths : LengthPolicy}
    (h : n ∈ consumable lengths form elements ci xi captures s) :
    Chunk.leastTotal ((chunks elements).drop ci) ≤ n := by
  obtain ⟨items, made, rfl, hmatched⟩ := h
  rw [walkFrom_eq] at hmatched
  have haligned := ((partition_chunks elements).drop ci).aligned
  exact (Sequence.ensures_enough lengths form haligned ci xi items captures).matched hmatched

theorem leastTotal_consumable
    (h : (consumable Repetition.lengths form elements ci xi captures s).Nonempty) :
    Chunk.leastTotal ((chunks elements).drop ci) ∈
      consumable Repetition.lengths form elements ci xi captures s := by
  obtain ⟨n, items, made, rfl, hmatched⟩ := h
  rw [walkFrom_eq] at hmatched
  obtain ⟨fewer, hlength, hfewer⟩ :=
    Sequence.exists_fewer ((partition_chunks elements).drop ci).aligned (Prod.ext hmatched rfl)
  obtain ⟨made', after, hagain⟩ := hfewer xi captures s (.refl s)
  refine ⟨fewer, made', hlength, ?_⟩
  rw [walkFrom_eq, hagain]

end

/-- Chunks are the unique canonical partition. The pass over the elements of a sequence finds the
only partition into runs of elements that do not repeat and single repetitions in which no run is
empty and no run follows another. There is one least number more than there are chunks. That of a
chunk counts the elements that do not repeat from there on, and adds what the bounds of the
repetitions ask for. Whichever lengths are tried, no walk from there on matches fewer items. And if
any number of items can be consumed there at all, this is the least one that can, by the same
search and within the same limits. -/
theorem chunks_canonical (elements : List (Pattern Value)) :
    let chunks := Pattern.chunks elements
    let tails := Chunk.tailMinimums chunks
    Chunk.collect repetition? [] [] elements = chunks ∧ Chunk.accumulate chunks = tails ∧
    (∀ other, Partition elements other ↔ other = chunks) ∧
    tails.length = chunks.length + 1 ∧
    ∀ ci ≤ chunks.length,
      let later := (chunks.drop ci).flatMap Chunk.elements
      ∃ least, tails[ci]? = some least ∧
      least = later.countP (fun p => p.repetition?.isNone) +
        ((later.filterMap repetition?).map Repetition.least).sum ∧
      (∀ lengths form xi captures s,
        ∀ n ∈ consumable lengths form elements ci xi captures s, least ≤ n) ∧
      ∀ form xi captures s,
        (consumable Repetition.lengths form elements ci xi captures s).Nonempty →
          IsLeast (consumable Repetition.lengths form elements ci xi captures s) least := by
  intro chunks tails
  refine ⟨Chunk.collect_eq_cut repetition? elements, Chunk.accumulate_eq_tailMinimums chunks,
    fun other => partition_iff, Chunk.length_tailMinimums chunks, fun ci hci =>
      ⟨_, Chunk.getElem?_tailMinimums hci, ?_, ?_, ?_⟩⟩
  · exact leastTotal_drop_chunks elements ci
  · exact fun lengths form xi captures s n hn => leastTotal_le_of_consumable hn
  · exact fun form xi captures s hsome =>
      ⟨leastTotal_consumable hsome, fun n hn => leastTotal_le_of_consumable hn⟩

/-- From the repetition between two elements on, three items are consumed in a search, and two are
the least number that is. -/
theorem chunks_canonical_between :
    let elements : List (Pattern Value) := [.literal (.int 1),
      .named "some" (.repeated .wildcard .greedy (some ⟨1, 3, by decide⟩)), .typeCheck .number]
    let numbers := consumable Repetition.lengths .list elements 1 1 []
      (Search.fresh Limits.standard none)
    3 ∈ numbers ∧ IsLeast numbers 2 := by
  intro elements numbers
  have hthree : 3 ∈ numbers :=
    ⟨[.null, .null, .int 4], [("some", .list [.null, .null])], rfl, rfl⟩
  obtain ⟨-, -, -, -, hentries⟩ := chunks_canonical elements
  obtain ⟨least, hentry, -, -, hleast⟩ := hentries 1 (by decide)
  obtain rfl : 2 = least := Option.some.inj hentry
  exact ⟨hthree, hleast _ _ _ _ ⟨3, hthree⟩⟩

end Pattern

end Motif
