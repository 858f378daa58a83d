import Motif.Proofs.Account
import Motif.Proofs.Building
import Motif.Proofs.Room

/-!
What is seen in a match. A walk keeps to the items of its sequence as long as it begins among
them, since the lengths that a repetition tries leave enough items for itself and for the later
chunks. With that, the rules of accounting can be followed through every pattern.
-/

namespace Motif

namespace Chunk

theorem leastTotal_eq_sum {α : Type} (chunks : List (Chunk α)) :
    leastTotal chunks = (chunks.map least).sum := by
  induction chunks with
  | nil => rfl
  | cons chunk rest ih => rw [leastTotal, ih, List.map_cons, List.sum_cons]

end Chunk

open Survey

/-- What is tried is a leading part of what there is to try. -/
theorem Survey.tried_prefix {α : Type} (ways : List α) (survey : α → Survey) (s : Search) :
    tried ways survey s <+: ways := by
  induction ways generalizing s with
  | nil => exact List.nil_prefix
  | cons way rest ih =>
    unfold tried
    split
    · exact (List.prefix_cons_inj way).mpr (ih _)
    · exact (List.prefix_cons_inj way).mpr List.nil_prefix

namespace Sequence

open Pattern

/-- The lengths that are counted out where so many items are left are in range. -/
theorem inRange_tried {xs : List Value} {n : Nat} (hn : n ≤ xs.length) (repetition : Repetition)
    {needs : List Nat} {lengths : List Int}
    (h : lengths <+: repetition.countedLengths ((xs.length : Int) - n - needs.sum)) :
    (Move.tried repetition needs n lengths).InRange xs := by
  refine ⟨repetition.takes ((xs.length : Int) - n - needs.sum), ?_, ?_, ?_⟩
  · rw [← Repetition.countedLengths_eq]
    exact h
  · have hremaining : (xs.length : Int) - n = ((xs.length - n : Nat) : Int) := by omega
    rw [hremaining]
    exact Repetition.faithful_lengths.sorted repetition (xs.length - n) needs.sum
  · intro k
    rw [Repetition.mem_takes]
    apply and_congr_right
    intro _
    omega

section

variable {maxDepth : Nat} {depth : Int} {ok : Sight → Prop} {spot : Spot} {form : Form}
variable {xs : List Value} {n ci : Nat}

theorem accounts_reads (hok : ∀ move : Move, move.InRange xs → ok (.moved xs move))
    {ps : List (Pattern Value)}
    (hitems : ∀ p ∈ ps, ∀ item ∈ xs, Accounts maxDepth depth ok (p.survey spot item))
    (hwide : n + ps.length ≤ xs.length) :
    Accounts maxDepth depth ok (inTurn (ps.map surveyor).zipIdx fun part captures =>
      seeing (fun _ => .moved xs (.read ((n : Int) + part.2))) <|
        lookUp (Position.item? xs ((n : Int) + part.2)) fun item =>
          part.1.bind spot item captures) := by
  apply accounts_inTurn
  rintro ⟨surveyor, offset⟩ hpart
  obtain ⟨hinside, hopposite⟩ := List.mem_zipIdx' hpart
  have hoffset : offset < ps.length := by
    rw [List.length_map] at hinside
    exact hinside
  have hsurveyor : surveyor = (ps[offset]).surveyor := hopposite.trans (List.getElem_map _)
  rw [hsurveyor]
  have hindex : (n : Int) + (offset : Int) = ((n + offset : Nat) : Int) := by omega
  apply Accounts.moving
  · apply accounts_lookUp
    intro item hfound
    rw [hindex, Position.item?_natCast] at hfound
    exact hitems _ (List.getElem_mem hoffset) item (List.mem_of_getElem? hfound)
  · intro captures s
    apply hok
    constructor <;> omega

/-- A walk that begins among the items, and that knows what the chunks from its own on need, has
nothing to account for but its moves and what the elements have. -/
theorem accounts_submatch (elements : List (Pattern Value))
    (hok : ∀ move : Move, move.InRange xs → ok (.moved xs move))
    (hitems : ∀ p ∈ elements, p.repetition? = none → ∀ item ∈ xs,
      Accounts maxDepth depth ok (p.survey spot.inside item))
    (hpieces : ∀ p ∈ elements, ∀ repetition, p.repetition? = some repetition →
      ∀ start length, Accounts maxDepth depth ok
        (p.survey spot.cut (.seq form ((xs.drop start).take length))))
    {chunks : List (Chunk (Pattern Value))} {tails : List Nat}
    (hchunks : ∀ chunk ∈ chunks, chunk.Aligned repetition? ∧ ∀ p ∈ chunk.elements, p ∈ elements)
    (htails : tails.drop ci = Chunk.tailMinimums chunks) (hn : n ≤ xs.length) :
    Accounts maxDepth depth ok
      (submatch tails form spot xs ci n (chunks.map (Chunk.map surveyor))) := by
  have hreach : ∀ ci, ok (.moved xs (.reach ci n)) := fun ci => hok _ ⟨by omega, by omega⟩
  induction chunks generalizing ci n with
  | nil =>
    change Accounts maxDepth depth ok fun captures =>
      submatch tails form spot xs ci n [] captures
    simp only [submatch]
    exact (accounts_guard _).moving fun _ _ => hreach ci
  | cons chunk rest ih =>
    obtain ⟨⟨haligned, hmem⟩, hlater⟩ := List.forall_mem_cons.mp hchunks
    obtain ⟨hneeded, hrest⟩ := Chunk.tailMinimums_succ htails
    cases chunk with
    | fixed ps =>
      change Accounts maxDepth depth ok fun captures => submatch tails form spot xs ci n
        (.fixed (ps.map surveyor) :: rest.map (Chunk.map surveyor)) captures
      simp only [submatch, List.length_map]
      refine Accounts.moving ?_ fun _ _ => hreach ci
      apply Accounts.counted
      by_cases hnarrow : (xs.length : Int) - n < ps.length
      · simp only [hnarrow, if_true]
        exact accounts_fail.noting _
      · simp only [hnarrow, if_false]
        have hwide : n + ps.length ≤ xs.length := by omega
        have hown : ∀ p ∈ ps, ∀ item ∈ xs, Accounts maxDepth depth ok (p.survey spot.inside item) :=
          fun p hp => hitems p (hmem p hp) (haligned p hp)
        apply Accounts.andThen
        · apply Accounts.orElse
          · exact accounts_reads hok hown hwide
          · exact accounts_fail.noting _
        · apply Accounts.noting
          exact ih hlater hrest hwide fun ci => hok _ ⟨by omega, by omega⟩
    | repeated p repetition =>
      change Accounts maxDepth depth ok fun captures => submatch tails form spot xs ci n
        (.repeated p.surveyor repetition :: rest.map (Chunk.map surveyor)) captures
      simp only [submatch, hneeded, lookUp]
      have hsum : Chunk.leastTotal rest =
          ((rest.map (Chunk.map surveyor)).map Chunk.least).sum := by
        rw [← Chunk.leastTotal_eq_sum, Chunk.leastTotal_map]
      refine Accounts.moving ?_ fun _ _ => hreach ci
      apply Accounts.counted
      apply Accounts.moving
      · apply accounts_firstOf
        intro way hway
        rw [Repetition.countedLengths_eq] at hway
        obtain ⟨length, hlength, rfl⟩ := List.mem_map.mp hway
        have hfits : n + length ≤ xs.length := by
          have htakes := (Repetition.mem_takes _ _ _).mp hlength
          omega
        rw [Position.slice_natCast xs hfits]
        apply Accounts.noting
        apply Accounts.moving
        · apply Accounts.andThen
          · exact hpieces p (hmem p List.mem_cons_self) repetition haligned n length
          · exact ih hlater hrest hfits fun ci => hok _ ⟨by omega, by omega⟩
        · intro _ _
          apply hok
          refine ⟨ci, n, length, repetition.mode, rfl, hfits, rfl, ?_⟩
          simp only [List.length_take, List.length_drop]
          omega
      · intro captures s
        apply hok
        apply inRange_tried hn
        rw [← hsum]
        exact tried_prefix _ _ s

end

end Sequence

variable {maxDepth : Nat} {depth : Int} {ok : Sight → Prop}

theorem accounts_surveyEach {bind : Value → Captures → Survey} {v : Value}
    (h : ∀ form items, v = .seq form items → ∀ item ∈ items, Accounts maxDepth depth ok (bind item))
    (bounds : Option Bounds) : Accounts maxDepth depth ok (surveyEach bounds bind v) := by
  change Accounts maxDepth depth ok fun captures => surveyEach bounds bind v captures
  unfold surveyEach
  cases v with
  | seq form items =>
    cases hallow : Bounds.allow bounds items.length with
    | true =>
      simp only [Value.items?, hallow, if_true]
      exact accounts_inTurn (h form items rfl)
    | false =>
      simp only [Value.items?, hallow, Bool.false_eq_true, if_false]
      exact accounts_fail
  | _ => exact accounts_fail

namespace Pattern

open Visit

/-- What a visit at a depth sees is what it makes be seen, directly or over others. -/
theorem accounts_survey (p : Pattern Value) (spot : Spot) (v : Value) :
    Accounts maxDepth depth (Sight.Expected maxDepth ⟨p, spot, v, depth⟩) (p.survey spot v) := by
  have hself : ∀ root : Visit, (Sight.applied root).Expected maxDepth root :=
    fun _ => Relation.ReflTransGen.refl
  change Accounts maxDepth depth _ fun captures => p.survey spot v captures
  induction p using Pattern.induction generalizing spot v depth with
  | wildcard =>
    simp only [survey]
    exact accounts_succeed.applied (hself _) rfl
  | literal expected =>
    simp only [survey]
    exact (accounts_guard _).applied (hself _) rfl
  | typeCheck kind =>
    simp only [survey]
    exact (accounts_guard _).applied (hself _) rfl
  | alternation options ih =>
    simp only [survey, surveyors_eq_map, firstOf_map]
    refine Accounts.applied (accounts_firstOf fun p hp => ?_) (hself _) rfl
    exact (ih p hp spot v).imp fun _ => Sight.Expected.head (.option hp)
  | choiceFrom source options ih =>
    simp only [survey, surveyors_eq_map, firstOf_map]
    refine Accounts.applied (accounts_firstOf fun p hp => ?_) (hself _) rfl
    exact (ih p hp spot v).imp fun _ => Sight.Expected.head (.optionFrom hp)
  | sequence elements ih =>
    simp only [survey, cut_surveyors, Chunk.tailMinimums_map]
    cases v with
    | seq form items =>
      refine Accounts.descend (fun hroom => ?_) (hself _) rfl
      apply Sequence.accounts_submatch elements
      · exact fun _ hmove => hmove
      · intro p hp hsingle item hitem
        exact (ih p hp spot.inside item).imp fun _ =>
          Sight.Expected.head (.item hp hsingle hitem hroom)
      · intro p hp repetition hrepeats start length
        exact (ih p hp spot.cut _).imp fun _ =>
          Sight.Expected.head (.piece hp hrepeats start length hroom)
      · intro chunk hchunk
        exact ⟨Chunk.aligned_cut _ _ chunk hchunk, fun p => mem_of_mem_chunks hchunk⟩
      · exact List.drop_zero
      · exact Nat.zero_le _
    | _ => exact accounts_fail.applied (hself _) rfl
  | repeated inner mode bounds ih =>
    simp only [survey]
    refine Accounts.applied (accounts_surveyEach ?_ bounds) (hself _) rfl
    rintro form items rfl item hitem
    exact (ih spot.each item).imp fun _ => Sight.Expected.head (.each hitem)
  | arrayOf inner bounds ih =>
    simp only [survey]
    refine Accounts.descend (fun hroom => accounts_surveyEach ?_ bounds) (hself _) rfl
    rintro form items rfl item hitem
    exact (ih spot.inside item).imp fun _ => Sight.Expected.head (.element hitem hroom)
  | named label inner ih =>
    simp only [survey]
    refine Accounts.labelled ?_ (hself _)
    exact (ih spot v).imp fun _ => Sight.Expected.head .labelled
  | unspecified tag =>
    simp only [survey]
    exact (accounts_abort rfl).applied (hself _) rfl
  | misfit flaw value =>
    simp only [survey]
    exact (accounts_abort rfl).applied (hself _) rfl

/-- The survey of a match begins with the visit of the pattern to the candidate, on no level. -/
theorem accounts_surveyed (p : Pattern Value) (v : Value) (limits : Limits)
    (tracer : Option Tracer) :
    (p.surveyed v limits tracer).Accounts
      (Sight.Expected limits.maxDepth.value ⟨p, .whole, v, 0⟩) []
      (Search.fresh limits (tracer.map (·.note .started))) :=
  accounts_survey p .whole v [] _ rfl rfl

/-- A match fails for a limit only, and it never steps out of range. For a pattern that comes from
the constructors, the compiler or the decoder, and a candidate of any kind, there is a match, or
there is none, or a limit was exceeded. The survey, which looks everything up by number, reports
just that, and every move that is seen on the way is in range. -/
theorem matchAgainst_inRange (p : Pattern Value) (hbuilt : Construct.Built p) (v : Value)
    (limits : Limits) (tracer : Option Tracer) :
    let report := p.matchAgainst v limits tracer
    let seen := p.surveyed v limits tracer
    ((∃ captures, report.outcome = .matched captures) ∨ report.outcome = .noMatch ∨
        ∃ reason, report.outcome = .aborted reason ∧ reason.overBudget = true) ∧
      seen.report? = some report ∧
      ∀ items move, .moved items move ∈ seen.sights → move.InRange items := by
  intro report seen
  refine ⟨?_, p.report?_surveyed v limits tracer, ?_⟩
  · cases houtcome : report.outcome with
    | matched captures => exact Or.inl ⟨captures, rfl⟩
    | noMatch => exact Or.inr (Or.inl rfl)
    | aborted reason =>
      have hfirm := firm_bindWith Repetition.lengths hbuilt.isSound v
      exact Or.inr (Or.inr ⟨reason, rfl, hfirm _ _ reason houtcome⟩)
  · intro items move hmove
    exact (p.accounts_surveyed v limits tracer).sights _ hmove

/-- Of two items, a repetition in front of a literal may take one. -/
theorem matchAgainst_inRange_pair :
    let numbers : Pattern Value := .repeated (.typeCheck .number) .greedy none
    let p : Pattern Value := .sequence [numbers, .literal (.int 2)]
    let items : List Value := [.int 1, .int 2]
    let tried : Sequence.Move := .tried ⟨.greedy, none⟩ [1] 0 [1]
    .moved items tried ∈ (p.surveyed (.list items) .standard none).sights ∧
      tried.InRange items := by
  intro numbers p items tried
  have hseen : .moved items tried ∈ (p.surveyed (.list items) .standard none).sights :=
    List.mem_of_getElem? (i := 2) rfl
  have hnumbers : Construct.Built numbers :=
    @Construct.Built.greedy (.marker (.primitive .number)) .null .null _ nofun rfl
  have hbuilt : Construct.Built p := by
    refine @Construct.Built.sequence [.pattern numbers, .int 2] ?_
    intro v hv q hq
    rcases hv with _ | ⟨_, _ | ⟨_, hv⟩⟩
    · cases hq
      exact hnumbers
    · cases hq
    · cases hv
  obtain ⟨-, -, hinRange⟩ := matchAgainst_inRange p hbuilt (.list items) .standard none
  exact ⟨hseen, hinRange items tried hseen⟩

end Pattern

end Motif
