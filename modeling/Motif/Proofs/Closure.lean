import Motif.Proofs.Pairing

/-!
What every run of a pattern has in common. A property of runs that all ways to put
runs together keep is a property of every pattern, so it need only be checked
against the ways. Going down a level and giving up are asked for separately, since
not every property of interest survives them.
-/

namespace Motif

namespace Run

/-- A property of runs, each seen as a function of the captures that it starts from, which holds
of the simplest runs and is kept by the ways to put runs together on one level. -/
structure Closed (P : (Captures → Run) → Prop) : Prop where
  succeed : P succeed
  capture : ∀ label v, P fun captures => Run.succeed (captures.put label v)
  fail : P fun _ => fail
  andThen : ∀ {first next}, P first → P next → P fun captures => andThen (first captures) next
  orElse : ∀ {first second}, P first → P second →
    P fun captures => orElse (first captures) (second captures)
  counted : ∀ {body}, P body → P fun captures => counted (body captures)
  noting : ∀ d {body}, d.ofChunk = true → P body → P fun captures => noting d (body captures)

namespace Closed

variable {P : (Captures → Run) → Prop} {α : Type}

/-- A property is a relation between equal runs. -/
theorem paired (hP : Closed P) : Paired fun run run' => run = run' ∧ P run where
  succeed := ⟨rfl, hP.succeed⟩
  fail := ⟨rfl, hP.fail⟩
  andThen := by
    rintro _ _ _ _ ⟨rfl, hfirst⟩ ⟨rfl, hnext⟩
    exact ⟨rfl, hP.andThen hfirst hnext⟩
  orElse := by
    rintro _ _ _ _ ⟨rfl, hfirst⟩ ⟨rfl, hsecond⟩
    exact ⟨rfl, hP.orElse hfirst hsecond⟩
  counted := by
    rintro _ _ ⟨rfl, hbody⟩
    exact ⟨rfl, hP.counted hbody⟩
  noting := by
    rintro d _ _ hd ⟨rfl, hbody⟩
    exact ⟨rfl, hP.noting d hd hbody⟩

theorem guard (hP : Closed P) (holds : Bool) : P (Run.guard holds) := (hP.paired.guard holds).2

theorem inTurn (hP : Closed P) {parts : List α} {run : α → Captures → Run}
    (hruns : ∀ part ∈ parts, P (run part)) : P (Run.inTurn parts run) :=
  (hP.paired.inTurn fun part hpart => ⟨rfl, hruns part hpart⟩).2

theorem bindEach (hP : Closed P) {bind : Value → Captures → Run} (hbind : ∀ v, P (bind v))
    (bounds : Option Bounds) (v : Value) : P (Motif.bindEach bounds bind v) :=
  (hP.paired.bindEach (fun v => ⟨rfl, hbind v⟩) bounds v).2

theorem walk (hP : Closed P) (lengths : LengthPolicy) (form : Form)
    {chunks : List (Chunk Matcher)}
    (hbind : ∀ chunk ∈ chunks, ∀ m ∈ chunk.elements, ∀ v, P (m.bind v))
    (ci xi : Nat) (items : List Value) :
    P (Sequence.walk lengths form ci chunks xi items) := by
  have hwalk := hP.paired.walk (f := id) lengths form
    (fun chunk hchunk m hm v => ⟨rfl, hbind chunk hchunk m hm v⟩) ci xi items
  rw [Chunk.map_id, List.map_id] at hwalk
  exact hwalk.2

end Closed

end Run

namespace Pattern

variable {P : (Captures → Run) → Prop}

section

variable {R : (Captures → Run) → (Captures → Run) → Prop} {lengths : LengthPolicy}

theorem paired_options (hR : Run.Paired R) {options : List (Pattern Value)}
    (hbind : ∀ p ∈ options, ∀ v, R (bindWith lengths p v) (bindWith lengths p v)) (v : Value) :
    let run : Captures → Run := fun captures =>
      Run.firstOf (matchersWith lengths options) fun option => option.bind v captures
    R run run := by
  intro run
  refine hR.firstOf fun m hm => ?_
  rw [matchersWith_eq_map] at hm
  obtain ⟨p, hp, rfl⟩ := List.mem_map.mp hm
  exact hbind p hp v

theorem paired_chunks (hR : Run.Paired R) {elements : List (Pattern Value)}
    (hbind : ∀ p ∈ elements, ∀ v, R (bindWith lengths p v) (bindWith lengths p v))
    (form : Form) (items : List Value) :
    let run : Captures → Run := Sequence.walk lengths form 0
      (Chunk.cut Matcher.repetition? (matchersWith lengths elements)) 0 items
    R run run := by
  intro run
  have hwalk := hR.walk (f := matcher lengths) (g := matcher lengths) lengths form
    (fun chunk hchunk p hp v => hbind p (mem_of_mem_chunks hchunk hp) v) 0 0 items
  rw [← cut_matchersWith] at hwalk
  exact hwalk

end

theorem closed_options (hP : Run.Closed P) {lengths : LengthPolicy}
    {options : List (Pattern Value)} (hbind : ∀ p ∈ options, ∀ v, P (bindWith lengths p v))
    (v : Value) :
    P fun captures => Run.firstOf (matchersWith lengths options) fun option =>
      option.bind v captures :=
  (paired_options hP.paired (fun p hp v => ⟨rfl, hbind p hp v⟩) v).2

theorem closed_chunks (hP : Run.Closed P) {lengths : LengthPolicy}
    {elements : List (Pattern Value)} (hbind : ∀ p ∈ elements, ∀ v, P (bindWith lengths p v))
    (form : Form) (items : List Value) :
    P (Sequence.walk lengths form 0
      (Chunk.cut Matcher.repetition? (matchersWith lengths elements)) 0 items) :=
  (paired_chunks hP.paired (fun p hp v => ⟨rfl, hbind p hp v⟩) form items).2

/-- A property that allows for some number of levels, and needs one more of them to go down a
level, holds of every pattern at its height. Where there is a node that cannot be matched, it has
to allow for giving up as well. -/
theorem closed_bindWith_levels {P : Nat → (Captures → Run) → Prop}
    (hP : ∀ levels, Run.Closed (P levels))
    (hnested : ∀ levels {body}, P levels body →
      P (levels + 1) fun captures => Run.nested (body captures))
    (lengths : LengthPolicy) (p : Pattern Value)
    (habort : p.isSound = false → ∀ levels, ∀ reason : Abort, reason.overBudget = false →
      P levels fun _ => Run.abort reason)
    {levels : Nat} (hheight : p.height ≤ levels) (v : Value) :
    P levels (bindWith lengths p v) := by
  induction p using Pattern.induction generalizing levels v with
  | wildcard => exact (hP levels).succeed
  | literal expected => exact (hP levels).guard _
  | typeCheck kind => exact (hP levels).guard _
  | alternation options ih | choiceFrom source options ih =>
    refine closed_options (hP levels) (fun p hp v => ?_) v
    have hlow := Nat.le_trans (height_le_tallest options p hp) hheight
    exact ih p hp (fun h => habort (areSound_eq_false hp h)) hlow v
  | sequence elements ih =>
    obtain ⟨levels, rfl⟩ : ∃ below, levels = below + 1 := Nat.exists_eq_add_one.mpr (by
      simp only [height] at hheight
      omega)
    cases v with
    | seq form items =>
      refine hnested levels (closed_chunks (hP levels) (fun p hp v => ?_) form items)
      have hlow := Nat.le_trans (height_le_tallest elements p hp) (Nat.le_of_succ_le_succ hheight)
      exact ih p hp (fun h => habort (areSound_eq_false hp h)) hlow v
    | _ => exact (hP _).fail
  | repeated inner mode bounds ih =>
    exact (hP levels).bindEach (fun v => ih habort hheight v) bounds v
  | arrayOf inner bounds ih =>
    obtain ⟨levels, rfl⟩ : ∃ below, levels = below + 1 := Nat.exists_eq_add_one.mpr (by
      simp only [height] at hheight
      omega)
    refine hnested levels ((hP levels).bindEach (fun v => ?_) bounds v)
    exact ih habort (Nat.le_of_succ_le_succ hheight) v
  | named label inner ih =>
    exact (hP levels).andThen (ih habort hheight v) ((hP levels).capture label v)
  | unspecified tag => exact habort rfl levels _ rfl
  | misfit flaw value => exact habort rfl levels _ rfl

/-- A property that is kept on one level and when going down a level is a property of every
pattern. -/
theorem closed_bindWith (hP : Run.Closed P)
    (hnested : ∀ {body}, P body → P fun captures => Run.nested (body captures))
    (lengths : LengthPolicy) (p : Pattern Value)
    (habort : p.isSound = false → ∀ reason : Abort, reason.overBudget = false →
      P fun _ => Run.abort reason) (v : Value) : P (bindWith lengths p v) :=
  closed_bindWith_levels (fun _ => hP) (fun _ _ hbody => hnested hbody) lengths p
    (fun hunsound _ => habort hunsound) (Nat.le_refl p.height) v

end Pattern

end Motif
