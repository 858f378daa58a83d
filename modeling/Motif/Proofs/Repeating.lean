import Motif.Proofs.Answer

/-!
Repetitions that can be written in another way. A repetition that is the only element of a sequence
gets all the items, so it does not matter which lengths it prefers, and an array of the same
elements does as well. A repetition of an exact number of items is its element written so many
times, whatever stands before it and after it in the sequence: the chunks are others, and what is
captured is the same.
-/

namespace Motif

/-- Bounds that allow one length only. -/
def Bounds.exactly (count : Nat) : Bounds := ⟨count, count, Nat.le_refl count⟩

namespace Pattern

section

variable {α : Type}

/-- A pattern under labels, the first of them outermost. -/
def under (labels : List String) (p : Pattern α) : Pattern α := labels.foldr .named p

@[simp] theorem repetition?_under (labels : List String) (p : Pattern α) :
    (under labels p).repetition? = p.repetition? := by
  induction labels with
  | nil => rfl
  | cons label rest ih => exact ih

@[simp] theorem isSound_under (labels : List String) (p : Pattern α) :
    (under labels p).isSound = p.isSound := by
  induction labels with
  | nil => rfl
  | cons label rest ih => exact ih

@[simp] theorem height_under (labels : List String) (p : Pattern α) :
    (under labels p).height = p.height := by
  induction labels with
  | nil => rfl
  | cons label rest ih => exact ih

theorem tallest_append (ps qs : List (Pattern α)) :
    tallest (ps ++ qs) = max (tallest ps) (tallest qs) := by
  induction ps with
  | nil => simp [tallest]
  | cons p rest ih => simp only [List.cons_append, tallest, ih, Nat.max_assoc]

end

/-- Where no limit stands in the way, patterns that yield the same on a value match it with the same
outcome. -/
theorem outcome_eq_of_yields {p q : Pattern Value} (hp : p.isSound = true) (hq : q.isSound = true)
    {limits : Limits} (hsteps : limits.maxSteps.value = 0)
    (hpdepth : p.height ≤ limits.maxDepth.value) (hqdepth : q.height ≤ limits.maxDepth.value)
    {v : Value} (h : ∀ made, Yields p v made ↔ Yields q v made) (tracer : Option Tracer) :
    (p.matchAgainst v limits tracer).outcome = (q.matchAgainst v limits tracer).outcome := by
  have hroom : ∀ {levels : Nat}, levels ≤ limits.maxDepth.value →
      (Search.fresh limits (tracer.map (·.note .started))).Roomy levels := fun hlevels =>
    ⟨hsteps, by simp only [Search.fresh]; omega⟩
  show (p.bind v [] _).1 = (q.bind v [] _).1
  rcases answers hp (hroom hpdepth) v [] with ⟨made, hmade, hrun⟩ | ⟨hmiss, hrun⟩
  · rcases answers hq (hroom hqdepth) v [] with ⟨made', hmade', hrun'⟩ | ⟨hmiss', -⟩
    · rw [hrun, hrun', hmade'.unique ((h made).mp hmade)]
    · exact absurd ((h made).mp hmade).matches hmiss'
  · rcases answers hq (hroom hqdepth) v [] with ⟨made', hmade', -⟩ | ⟨-, hrun'⟩
    · exact absurd ((h made').mpr hmade').matches hmiss
    · rw [hrun, hrun']

/-- Patterns that yield the same on a value still do so under labels. -/
theorem yields_under_congr {p q : Pattern Value} {v : Value}
    (h : ∀ made, Yields p v made ↔ Yields q v made) (labels : List String) (made : Captures) :
    Yields (under labels p) v made ↔ Yields (under labels q) v made := by
  induction labels generalizing made with
  | nil => exact h made
  | cons label rest ih =>
    constructor
    · rintro (_ | _ | _ | _ | _ | _ | _ | hinner)
      exact .named ((ih _).mp hinner)
    · rintro (_ | _ | _ | _ | _ | _ | _ | hinner)
      exact .named ((ih _).mpr hinner)

/-- An array yields on a sequence what a repetition of the same elements does. -/
theorem yields_arrayOf_iff {inner : Pattern Value} {mode : Mode} {bounds : Option Bounds}
    {v : Value} {made : Captures} :
    Yields (.arrayOf inner bounds) v made ↔ Yields (.repeated inner mode bounds) v made := by
  constructor
  · intro h
    cases h with
    | arrayOf hlength hitems => exact .repeated hlength hitems
  · intro h
    cases h with
    | repeated hlength hitems => exact .arrayOf hlength hitems

/-- A repetition matches nothing but sequences. -/
theorem Matches.exists_seq {p : Pattern Value} {repetition : Repetition} {v : Value}
    (hrepeats : p.repetition? = some repetition) (h : Matches p v) :
    ∃ form items, v = .seq form items := by
  induction p using Pattern.induction with
  | repeated inner mode bounds _ =>
    cases h with
    | repeated _ _ => exact ⟨_, _, rfl⟩
  | named label inner ih =>
    cases h with
    | named h => exact ih hrepeats h
  | _ => cases hrepeats

/-- The only element of a sequence, if it repeats, gets the whole sequence. -/
theorem yields_sequence_singleton {p : Pattern Value} {repetition : Repetition} {v : Value}
    {made : Captures} (hrepeats : p.repetition? = some repetition) :
    Yields (.sequence [p]) v made ↔ Yields p v made := by
  constructor
  · intro h
    cases h with
    | sequence hfirst hcut hyields =>
      obtain ⟨length, _, _, own, made', -, -, rfl, -, hown, hrest, -⟩ :=
        (Sequence.chosen_repeated hrepeats).mp ⟨hfirst, hcut, hyields⟩
      obtain ⟨hnone, -, -, rfl⟩ := Sequence.chosen_nil.mp hrest
      rw [List.take_of_length_le (List.drop_eq_nil_iff.mp hnone)] at hown
      rw [List.append_nil]
      exact hown
  · intro h
    obtain ⟨form, items, rfl⟩ := h.matches.exists_seq hrepeats
    refine yields_sequence_iff.mpr ⟨[items.length], _, (Sequence.chosen_repeated hrepeats).mpr
      ⟨items.length, [], [], made, [], rfl, rfl, (List.append_nil made).symm, Nat.le_refl _, ?_,
        Sequence.chosen_nil.mpr ⟨List.drop_length, rfl, rfl, rfl⟩, ?_⟩⟩
    · rw [List.take_length]
      exact h
    · -- No other length leaves nothing over.
      rintro other ⟨hfits, -, lengths, hvalid⟩ hne
      have hnone := List.drop_eq_nil_iff.mp (Sequence.valid_nil.mp hvalid).2
      exact absurd (Nat.le_antisymm hfits hnone) hne

/-- The ways to repeat a pattern over a whole value agree: a sequence with the repetition as its
only element, the repetition on its own, and the array, all under the same labels. Which lengths
the repetition prefers makes no difference to any of them. -/
theorem matchAgainst_alone {inner : Pattern Value} (hsound : inner.isSound = true)
    {limits : Limits} (hsteps : limits.maxSteps.value = 0)
    (hdepth : inner.height < limits.maxDepth.value) (labels : List String) (bounds : Option Bounds)
    (v : Value) (tracer : Option Tracer) :
    let array := under labels (.arrayOf inner bounds)
    ∀ mode, let repetition := under labels (.repeated inner mode bounds)
      ((Pattern.sequence [repetition]).matchAgainst v limits tracer).outcome =
          (array.matchAgainst v limits tracer).outcome ∧
        (repetition.matchAgainst v limits tracer).outcome =
          (array.matchAgainst v limits tracer).outcome := by
  intro array mode repetition
  have hrepeats : repetition.repetition? = some ⟨mode, bounds⟩ := repetition?_under labels _
  have hrepeated : repetition.isSound = true := (isSound_under labels _).trans hsound
  have harray : array.isSound = true := (isSound_under labels _).trans hsound
  have hheight : repetition.height = inner.height := height_under labels _
  have harrayHeight : array.height = inner.height + 1 := height_under labels _
  have hyields : ∀ made, Yields repetition v made ↔ Yields array v made :=
    yields_under_congr (fun _ => yields_arrayOf_iff.symm) labels
  have hsequence : (Pattern.sequence [repetition]).isSound = true :=
    (areSound_iff _).mpr (List.forall_mem_singleton.mpr hrepeated)
  have hsequenceHeight : (Pattern.sequence [repetition]).height ≤ limits.maxDepth.value := by
    simp only [height, tallest, hheight]
    omega
  constructor
  · exact outcome_eq_of_yields hsequence harray hsteps hsequenceHeight (by omega)
      (fun made => (yields_sequence_singleton hrepeats).trans (hyields made)) tracer
  · exact outcome_eq_of_yields hrepeated harray hsteps (by omega) (by omega) hyields tracer

/-- A tuple of two under two labels, whose items take both branches of the element. -/
theorem matchAgainst_alone_tuple :
    let inner : Pattern Value := .alternation [.named "digit" (.typeCheck .number), .wildcard]
    let bounds : Option Bounds := some ⟨1, 2, by decide⟩
    let v : Value := .seq .tuple [.int 1, .null]
    let repetition := under ["whole", "part"] (.repeated inner .lazy bounds)
    let captures : Captures := [("digit", .int 1), ("part", v), ("whole", v)]
    ((Pattern.sequence [repetition]).matchAgainst v .standard none).outcome = .matched captures ∧
      (repetition.matchAgainst v .standard none).outcome = .matched captures := by
  intro inner bounds v repetition captures
  have hagree := @matchAgainst_alone inner rfl .standard rfl (by decide) ["whole", "part"] bounds v
    none .lazy
  exact ⟨hagree.1.trans rfl, hagree.2.trans rfl⟩

end Pattern

namespace Sequence

open Pattern

variable {p : Pattern Value} {elements others : List (Pattern Value)}

/-- Lists of elements that can stand for each other at the end of a sequence: they can be completed
for the same items, and yield the same on these. -/
structure Interchangeable (elements others : List (Pattern Value)) : Prop where
  valid : ∀ form items, (∃ lengths, Valid Matches form elements items lengths) ↔
    ∃ lengths, Valid Matches form others items lengths
  chosen : ∀ form items made, (∃ lengths parts, Chosen form elements items lengths parts made) ↔
    ∃ lengths parts, Chosen form others items lengths parts made

theorem Interchangeable.symm (h : Interchangeable elements others) :
    Interchangeable others elements where
  valid form items := (h.valid form items).symm
  chosen form items made := (h.chosen form items made).symm

theorem Interchangeable.yields (h : Interchangeable elements others) {v : Value} {made : Captures}
    (hyields : Yields (.sequence elements) v made) : Yields (.sequence others) v made := by
  cases hyields with
  | sequence hfirst hcut hmade =>
    exact yields_sequence_iff.mpr ((h.chosen _ _ _).mp ⟨_, _, hfirst, hcut, hmade⟩)

/-- A repetition can take the same lengths before elements that can be completed for the same
items. -/
theorem Interchangeable.completes (h : Interchangeable elements others) (form : Form)
    (items : List Value) (length : Nat) :
    Completes form p elements items length ↔ Completes form p others items length := by
  unfold Completes
  rw [h.valid form (items.drop length)]

theorem Interchangeable.valid_cons (h : Interchangeable elements others) {form : Form}
    {items : List Value} (hvalid : ∃ lengths, Valid Matches form (p :: elements) items lengths) :
    ∃ lengths, Valid Matches form (p :: others) items lengths := by
  obtain ⟨lengths, hvalid⟩ := hvalid
  cases hrepeats : p.repetition? with
  | none =>
    have hfixed : ∀ q ∈ [p], q.repetition? = none := List.forall_mem_singleton.mpr hrepeats
    obtain ⟨hwide, hmatches, hrest⟩ := (valid_fixed hfixed).mp hvalid
    obtain ⟨lengths', hrest'⟩ := (h.valid _ _).mp ⟨lengths, hrest⟩
    exact ⟨lengths', (valid_fixed hfixed).mpr ⟨hwide, hmatches, hrest'⟩⟩
  | some repetition =>
    obtain ⟨length, later, rfl, hfits, hmatches, hrest⟩ := (valid_repeated hrepeats).mp hvalid
    obtain ⟨lengths', hrest'⟩ := (h.valid _ _).mp ⟨later, hrest⟩
    exact ⟨_, (valid_repeated hrepeats).mpr ⟨length, lengths', rfl, hfits, hmatches, hrest'⟩⟩

theorem Interchangeable.chosen_cons (h : Interchangeable elements others) {form : Form}
    {items : List Value} {made : Captures}
    (hchosen : ∃ lengths parts, Chosen form (p :: elements) items lengths parts made) :
    ∃ lengths parts, Chosen form (p :: others) items lengths parts made := by
  obtain ⟨lengths, parts, hchosen⟩ := hchosen
  cases hrepeats : p.repetition? with
  | none =>
    have hfixed : ∀ q ∈ [p], q.repetition? = none := List.forall_mem_singleton.mpr hrepeats
    obtain ⟨hwide, later, own, made', -, rfl, hown, hrest⟩ := (chosen_fixed hfixed).mp hchosen
    obtain ⟨lengths', later', hrest'⟩ := (h.chosen _ _ _).mp ⟨lengths, later, hrest⟩
    exact ⟨lengths', _, (chosen_fixed hfixed).mpr
      ⟨hwide, later', own, made', rfl, rfl, hown, hrest'⟩⟩
  | some repetition =>
    obtain ⟨length, tail, later, own, made', rfl, -, rfl, hfits, hown, hrest, hprefers⟩ :=
      (chosen_repeated hrepeats).mp hchosen
    obtain ⟨tail', later', hrest'⟩ := (h.chosen _ _ _).mp ⟨tail, later, hrest⟩
    exact ⟨_, _, (chosen_repeated hrepeats).mpr ⟨length, tail', later', own, made', rfl, rfl, rfl,
      hfits, hown, hrest', fun other hother =>
        hprefers other ((h.completes form items other).mpr hother)⟩⟩

/-- What can stand for each other still can behind the same elements. -/
theorem Interchangeable.append (h : Interchangeable elements others)
    (front : List (Pattern Value)) : Interchangeable (front ++ elements) (front ++ others) := by
  induction front with
  | nil => exact h
  | cons p rest ih =>
    exact {
      valid := fun _ _ => ⟨ih.valid_cons, ih.symm.valid_cons⟩
      chosen := fun _ _ _ => ⟨ih.chosen_cons, ih.symm.chosen_cons⟩ }

theorem zip_replicate (p : Pattern Value) (count : Nat) (items : List Value) :
    (List.replicate count p).zip items = (items.take count).map (Prod.mk p) := by
  induction count generalizing items with
  | zero => simp
  | succ count ih =>
    cases items with
    | nil => rfl
    | cons item later =>
      rw [List.replicate_succ, List.zip_cons_cons, ih, List.take_succ_cons, List.map_cons]

variable {mode : Mode} {form : Form} {count length : Nat} {items : List Value}

theorem allow_exactly_take (hfits : length ≤ items.length) :
    Bounds.allow (some (.exactly count)) (items.take length).length = true ↔ length = count := by
  rw [List.length_take, Nat.min_eq_left hfits]
  unfold Bounds.exactly Bounds.allow
  simp only [Bool.and_eq_true, decide_eq_true_eq]
  omega

/-- A repetition of an exact number of items matches what so many copies of its element match, one
item each. -/
theorem matches_exactly_iff (hfits : length ≤ items.length) :
    Matches (.repeated p mode (some (.exactly count))) (.seq form (items.take length)) ↔
      length = count ∧ ∀ part ∈ (List.replicate count p).zip items, Matches part.1 part.2 := by
  rw [zip_replicate, List.forall_mem_map]
  constructor
  · intro h
    cases h with
    | repeated hallow hitems =>
      obtain rfl := (allow_exactly_take hfits).mp hallow
      exact ⟨rfl, hitems⟩
  · rintro ⟨rfl, hitems⟩
    exact .repeated ((allow_exactly_take hfits).mpr rfl) hitems

theorem yields_exactly_iff (hfits : length ≤ items.length) {made : Captures} :
    Yields (.repeated p mode (some (.exactly count))) (.seq form (items.take length)) made ↔
      length = count ∧ YieldsAll ((List.replicate count p).zip items) made := by
  rw [zip_replicate]
  constructor
  · intro h
    cases h with
    | repeated hallow hitems =>
      obtain rfl := (allow_exactly_take hfits).mp hallow
      exact ⟨rfl, hitems⟩
  · rintro ⟨rfl, hitems⟩
    exact .repeated ((allow_exactly_take hfits).mpr rfl) hitems

/-- A repetition of an exact number of items can stand for so many copies of its element. -/
theorem interchangeable_exactly (hfixed : p.repetition? = none) (mode : Mode) (count : Nat)
    (rest : List (Pattern Value)) :
    Interchangeable (.repeated p mode (some (.exactly count)) :: rest)
      (List.replicate count p ++ rest) := by
  have hcopies : ∀ q ∈ List.replicate count p, q.repetition? = none := fun q hq => by
    rw [List.eq_of_mem_replicate hq, hfixed]
  constructor
  · intro form items
    constructor
    · rintro ⟨lengths, hvalid⟩
      obtain ⟨length, later, rfl, hfits, hmatches, hrest⟩ := (valid_repeated rfl).mp hvalid
      obtain ⟨rfl, hall⟩ := (matches_exactly_iff hfits).mp hmatches
      refine ⟨later, (valid_fixed hcopies).mpr ?_⟩
      rw [List.length_replicate]
      exact ⟨hfits, hall, hrest⟩
    · rintro ⟨lengths, hvalid⟩
      obtain ⟨hfits, hall, hrest⟩ := (valid_fixed hcopies).mp hvalid
      rw [List.length_replicate] at hfits hrest
      exact ⟨_, (valid_repeated rfl).mpr
        ⟨count, lengths, rfl, hfits, (matches_exactly_iff hfits).mpr ⟨rfl, hall⟩, hrest⟩⟩
  · intro form items made
    constructor
    · rintro ⟨lengths, parts, hchosen⟩
      obtain ⟨length, tail, later, own, made', rfl, -, rfl, hfits, hown, hrest, -⟩ :=
        (chosen_repeated rfl).mp hchosen
      obtain ⟨rfl, hall⟩ := (yields_exactly_iff hfits).mp hown
      refine ⟨tail, (List.replicate length p).zip items ++ later, (chosen_fixed hcopies).mpr ?_⟩
      rw [List.length_replicate]
      exact ⟨hfits, later, own, made', rfl, rfl, hall, hrest⟩
    · rintro ⟨lengths, parts, hchosen⟩
      obtain ⟨hfits, later, own, made', -, rfl, hall, hrest⟩ := (chosen_fixed hcopies).mp hchosen
      rw [List.length_replicate] at hfits hrest
      refine ⟨_, _, (chosen_repeated rfl).mpr ⟨count, lengths, later, own, made', rfl, rfl, rfl,
        hfits, (yields_exactly_iff hfits).mpr ⟨rfl, hall⟩, hrest, fun other hother hne => ?_⟩⟩
      -- The bounds leave the repetition no other length to prefer.
      exact absurd ((matches_exactly_iff hother.1).mp hother.2.1).1 hne

end Sequence

namespace Pattern

theorem isSound_written_out {p : Pattern Value} {mode : Mode} {bounds : Option Bounds}
    {front back : List (Pattern Value)}
    (h : (Pattern.sequence (front ++ .repeated p mode bounds :: back)).isSound = true)
    (count : Nat) :
    (Pattern.sequence (front ++ (List.replicate count p ++ back))).isSound = true := by
  simp only [isSound, areSound_iff, List.forall_mem_append, List.forall_mem_cons] at h ⊢
  obtain ⟨hfront, hp, hback⟩ := h
  refine ⟨hfront, fun q hq => ?_, hback⟩
  rw [List.eq_of_mem_replicate hq]
  exact hp

theorem height_written_out (p : Pattern Value) (mode : Mode) (bounds : Option Bounds)
    (front back : List (Pattern Value)) (count : Nat) :
    (Pattern.sequence (front ++ (List.replicate count p ++ back))).height ≤
      (Pattern.sequence (front ++ .repeated p mode bounds :: back)).height := by
  have hcopies : tallest (List.replicate count p) ≤ p.height := by
    induction count with
    | zero => exact Nat.zero_le _
    | succ count ih => exact Nat.max_le.mpr ⟨Nat.le_refl _, ih⟩
  simp only [height, tallest_append, tallest]
  omega

/-- An exact repetition is the same as its element written out: in a sequence, a repetition of just
so many items can be replaced by that many copies of its element, and the other way round. The
outcome is the same on every value, and so are the captures and their order. -/
theorem matchAgainst_exactly {p : Pattern Value} (hfixed : p.repetition? = none) (mode : Mode)
    (count : Nat) (front back : List (Pattern Value)) {limits : Limits}
    (hsteps : limits.maxSteps.value = 0) (v : Value) (tracer : Option Tracer) :
    let repeating : Pattern Value :=
      .sequence (front ++ .repeated p mode (some (.exactly count)) :: back)
    let writtenOut : Pattern Value := .sequence (front ++ (List.replicate count p ++ back))
    repeating.isSound = true → repeating.height ≤ limits.maxDepth.value →
      (repeating.matchAgainst v limits tracer).outcome =
        (writtenOut.matchAgainst v limits tracer).outcome := by
  intro repeating writtenOut hsound hdepth
  have hinterchangeable := (Sequence.interchangeable_exactly hfixed mode count back).append front
  have hyields : ∀ made, Yields repeating v made ↔ Yields writtenOut v made := fun _ =>
    ⟨hinterchangeable.yields, hinterchangeable.symm.yields⟩
  exact outcome_eq_of_yields hsound (isSound_written_out hsound count) hsteps hdepth
    (Nat.le_trans (height_written_out p mode _ front back count) hdepth) hyields tracer

/-- Two items between two repetitions, of which the first gives one back. -/
theorem matchAgainst_exactly_two :
    let p : Pattern Value := .named "item" .wildcard
    let head : Pattern Value := .named "head" (.repeated (.typeCheck .number) .greedy none)
    let tail : Pattern Value := .named "tail" (.repeated .wildcard .lazy none)
    let v : Value := .seq .list [.int 1, .int 2, .int 3, .str "end"]
    let captures : Captures := [("head", .seq .list [.int 1, .int 2]), ("item", .str "end"),
      ("tail", .seq .list [])]
    ((Pattern.sequence [head, .repeated p .lazy (some (.exactly 2)), tail]).matchAgainst v
        .standard none).outcome = .matched captures ∧
      ((Pattern.sequence [head, p, p, tail]).matchAgainst v .standard none).outcome =
        .matched captures := by
  intro p head tail v captures
  have hsame := @matchAgainst_exactly p rfl .lazy 2 [head] [tail] .standard rfl v none rfl
    (by decide)
  have hwritten : ((Pattern.sequence [head, p, p, tail]).matchAgainst v .standard none).outcome =
      .matched captures := rfl
  exact ⟨hsame.trans hwritten, hwritten⟩

end Pattern

end Motif
