import Motif.Matching
import Motif.Proofs.Decision
import Motif.Proofs.Room

/-!
What matching answers when no limit stands in the way. A sound pattern matches
just the values that have its shape, and a sequence is cut where its repetitions
prefer it: the captures are those of the elements on the pieces of the first valid
cut, made one after the other, and no others.
-/

namespace Motif

namespace Pattern

/-- With enough room the search comes to an answer, and the answer is what the pattern means. -/
theorem answers {p : Pattern Value} (hsound : p.isSound = true) {s : Search}
    (hroom : s.Roomy p.height) (v : Value) (earlier : Captures) :
    (∃ made, Yields p v made ∧ (p.bind v earlier s).1 = .matched (earlier.overlay made)) ∨
      ¬ Matches p v ∧ (p.bind v earlier s).1 = .noMatch := by
  have hanswer : (p.bind v earlier s).1.isAborted = false :=
    (scripted_of_sound Repetition.lengths hsound (Nat.le_refl p.height) v).calm.2 earlier s hroom
  have hdecides := decides Repetition.faithful_lengths p v earlier
  cases hrun : (p.bind v earlier s).1 with
  | matched after =>
    obtain ⟨made, hmade, rfl⟩ := hdecides.matched hrun
    exact Or.inl ⟨made, hmade, rfl⟩
  | noMatch => exact Or.inr ⟨hdecides.missed hrun, rfl⟩
  | aborted reason =>
    rw [hrun] at hanswer
    cases hanswer

theorem binds_iff_matches {p : Pattern Value} (hsound : p.isSound = true) {s : Search}
    (hroom : s.Roomy p.height) (v : Value) (earlier : Captures) :
    (∃ after, (p.bind v earlier s).1 = .matched after) ↔ Matches p v := by
  rcases answers hsound hroom v earlier with ⟨made, hmade, hrun⟩ | ⟨hmiss, hrun⟩
  · exact ⟨fun _ => hmade.matches, fun _ => ⟨_, hrun⟩⟩
  · refine ⟨fun hmatched => ?_, fun hmatches => absurd hmatches hmiss⟩
    obtain ⟨after, hafter⟩ := hmatched
    rw [hrun] at hafter
    cases hafter

/-- A match succeeds on just the values that have the pattern's shape, and on all others it ends
without a match. -/
theorem matchAgainst_iff_matches (p : Pattern Value) (v : Value) (limits : Limits)
    (tracer : Option Tracer) (hsound : p.isSound = true) (hsteps : limits.maxSteps.value = 0)
    (hdepth : p.height ≤ limits.maxDepth.value) :
    ((p.matchAgainst v limits tracer).outcome.isMatched = true ↔ Matches p v) ∧
      ((p.matchAgainst v limits tracer).outcome = .noMatch ↔ ¬ Matches p v) := by
  have hroom : (Search.fresh limits (tracer.map (·.note .started))).Roomy p.height :=
    ⟨hsteps, by simp only [Search.fresh]; omega⟩
  have hreport : (p.matchAgainst v limits tracer).outcome =
      (p.bind v [] (Search.fresh limits (tracer.map (·.note .started)))).1 := rfl
  rw [hreport]
  rcases answers hsound hroom v [] with ⟨made, hmade, hrun⟩ | ⟨hmiss, hrun⟩
  · rw [hrun]
    exact ⟨⟨fun _ => hmade.matches, fun _ => rfl⟩, ⟨nofun, fun h => absurd hmade.matches h⟩⟩
  · rw [hrun]
    exact ⟨⟨nofun, fun h => absurd h hmiss⟩, ⟨fun _ => hmiss, fun _ => rfl⟩⟩

/-- Between two repetitions, the option that is left for the item in the middle decides. -/
theorem matchAgainst_iff_matches_between :
    Matches
      (.sequence [.repeated (.typeCheck .number) .greedy none,
        .alternation [.literal (.int 2), .sequence [.wildcard]],
        .named "rest" (.repeated (.literal (.int 2)) .lazy (some ⟨1, 2, by decide⟩))])
      (.seq .list [.int 1, .int 2, .int 2]) :=
  ((matchAgainst_iff_matches _ _ ⟨.number 2, .number 0, by decide⟩ none rfl rfl
    (by decide)).1).mp rfl

theorem isSound_of_mem {elements : List (Pattern Value)} {p : Pattern Value}
    (hsound : (sequence elements).isSound = true) (hp : p ∈ elements) : p.isSound = true :=
  (areSound_iff elements).mp hsound p hp

theorem roomy_of_mem {elements : List (Pattern Value)} {p : Pattern Value} {s : Search}
    (hroom : s.Roomy (sequence elements).height) (hp : p ∈ elements) : s.Roomy p.height := by
  obtain ⟨hsteps, hdepth⟩ := hroom
  have hlow := height_le_tallest elements p hp
  simp only [height] at hdepth
  exact ⟨hsteps, by omega⟩

/-- Binding the pieces of a cut one after the other captures what they yield. -/
theorem inTurn_of_yieldsAll {elements : List (Pattern Value)}
    (hsound : (sequence elements).isSound = true) {s : Search}
    (hroom : s.Roomy (sequence elements).height) {form : Form} {lengths : List Nat}
    {items : List Value} {parts : List (Pattern Value × Value)}
    (hcut : Sequence.pieces form elements lengths items = some parts) {made : Captures}
    (hmade : YieldsAll parts made) (earlier : Captures) :
    (Run.inTurn parts (fun part => part.1.bind part.2) earlier s).1 =
      .matched (earlier.overlay made) := by
  have hmem : ∀ part ∈ parts, part.1 ∈ elements := fun part hpart =>
    Sequence.mem_of_mem_pieces hcut hpart
  have hlow : ∀ part ∈ parts, part.1.height ≤ tallest elements := fun part hpart =>
    height_le_tallest elements part.1 (hmem part hpart)
  have hcalm : Run.Calm (tallest elements)
      (Run.inTurn parts fun part => part.1.bind part.2) :=
    ((Run.closed_scripted _ true).inTurn fun part hpart =>
      scripted_of_sound _ (isSound_of_mem hsound (hmem part hpart)) (hlow part hpart) part.2).calm
  have hbelow : s.Roomy (tallest elements) :=
    ⟨hroom.1, by have hdepth := hroom.2; simp only [height] at hdepth; omega⟩
  have hanswer := hcalm.2 earlier s hbelow
  have hdecides : ∀ part ∈ parts, Decides Repetition.lengths part.1 := fun part _ =>
    decides Repetition.faithful_lengths part.1
  have hturn := ensures_inTurn hdecides earlier
  cases hrun : (Run.inTurn parts (fun part => part.1.bind part.2) earlier s).1 with
  | matched after =>
    obtain ⟨made', hmade', rfl⟩ := hturn.matched hrun
    rw [YieldsAll.unique (fun _ _ _ _ => Yields.unique) hmade hmade']
  | noMatch =>
    obtain ⟨part, hpart, hmiss⟩ := hturn.missed hrun
    obtain ⟨own, hown⟩ := hmade.exists_yields part hpart
    exact absurd hown.matches hmiss
  | aborted reason =>
    rw [hrun] at hanswer
    cases hanswer

/-- A sequence is cut where its repetitions prefer it. If no cut gives every element a piece on
which its bind succeeds, there is no match. Otherwise the outcome is that of binding the elements
one after the other, each on its piece of the first such cut, and the first repetition has the
length that it prefers over those of all of them. What is captured is what the elements yield
there, and nothing that comes from another cut, from an option that was given up or from a run
of elements that failed half way. -/
theorem bind_sequence_first (elements : List (Pattern Value)) (form : Form) (xs : List Value)
    (earlier : Captures) (s : Search) (hsound : (sequence elements).isSound = true)
    (hroom : s.Roomy (sequence elements).height) :
    let valid := Sequence.Valid (fun p v => ∃ after, (p.bind v earlier s).1 = .matched after)
      form elements xs
    let outcome := ((sequence elements).bind (.seq form xs) earlier s).1
    ((∀ lengths, ¬ valid lengths) → outcome = .noMatch) ∧
    ((∃ lengths, valid lengths) → ∃ lengths parts made,
      First (Sequence.modes elements) valid lengths ∧
      (∀ other, valid other → ∀ mode ∈ (Sequence.modes elements).head?,
        ∀ length ∈ lengths.head?, ∀ length' ∈ other.head?,
          length' = length ∨ mode.Prefers length length') ∧
      Sequence.pieces form elements lengths xs = some parts ∧
      outcome = (Run.inTurn parts (fun part => part.1.bind part.2) earlier s).1 ∧
      YieldsAll parts made ∧ outcome = .matched (earlier.overlay made)) := by
  intro valid outcome
  have hvalid : ∀ lengths, Sequence.Valid Matches form elements xs lengths ↔ valid lengths :=
    fun lengths => Sequence.Valid.congr fun p hp v =>
      (binds_iff_matches (isSound_of_mem hsound hp) (roomy_of_mem hroom hp) v earlier).symm
  rcases answers hsound hroom (.seq form xs) earlier with ⟨made, hmade, hrun⟩ | ⟨hmiss, hrun⟩
  · cases hmade with
    | sequence hfirst hcut hall =>
      have hbest := hfirst.congr hvalid
      refine ⟨fun hnone => absurd hbest.holds (hnone _), fun _ => ⟨_, _, made, hbest, ?_, hcut, ?_,
        hall, hrun⟩⟩
      · exact fun other hother => hbest.head hother
      · exact hrun.trans (inTurn_of_yieldsAll hsound hroom hcut hall earlier).symm
  · refine ⟨fun _ => hrun, fun hsome => ?_⟩
    obtain ⟨lengths, hlengths⟩ := hsome
    exact absurd (matches_sequence_iff.mpr ⟨lengths, (hvalid lengths).mpr hlengths⟩) hmiss

/-- The greedy head gives items back until the text at the end is found, and takes the place of
an earlier capture of its label. -/
theorem bind_sequence_first_given_back :
    let elements : List (Pattern Value) :=
      [.named "head" (.repeated .wildcard .greedy none),
        .alternation [.named "n" (.typeCheck .number), .named "s" (.typeCheck .string)],
        .literal (.str "end"), .named "tail" (.repeated .wildcard .lazy none)]
    let items : List Value := [.int 1, .str "a", .str "end", .int 2]
    let s := Search.fresh Limits.standard none
    ∃ lengths parts made,
      First [.greedy, .lazy] (Sequence.Valid
        (fun p v => ∃ after, (p.bind v [("head", .null)] s).1 = .matched after)
        .list elements items) lengths ∧
      Sequence.pieces .list elements lengths items = some parts ∧ YieldsAll parts made ∧
      ((sequence elements).bind (.seq .list items) [("head", .null)] s).1 =
        .matched (Entries.overlay [("head", .null)] made) := by
  intro elements items s
  have hall := bind_sequence_first elements .list items [("head", .null)] s rfl ⟨rfl, by decide⟩
  have hvalid : Sequence.Valid
      (fun p v => ∃ after, (p.bind v [("head", .null)] s).1 = .matched after)
      .list elements items [1, 1] := by
    refine ⟨_, rfl, fun part hpart => ?_⟩
    rcases hpart with _ | ⟨_, _ | ⟨_, _ | ⟨_, _ | ⟨_, hpart⟩⟩⟩⟩
    · exact ⟨_, rfl⟩
    · exact ⟨_, rfl⟩
    · exact ⟨_, rfl⟩
    · exact ⟨_, rfl⟩
    · cases hpart
  obtain ⟨lengths, parts, made, hfirst, _, hcut, _, hmade, hrun⟩ := hall.2 ⟨[1, 1], hvalid⟩
  exact ⟨lengths, parts, made, hfirst, hcut, hmade, hrun⟩

end Pattern

end Motif
