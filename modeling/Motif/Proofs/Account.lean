import Mathlib.Algebra.GroupWithZero.Nat
import Mathlib.Logic.Relation
import Motif.Proofs.Captures
import Motif.Proofs.Course
import Motif.Proofs.Decision

/-!
What the sights of a match account for. Each way to put surveys together has one rule, and
the rule covers at once everything that is asked about sights: that each of them is as it
should be, that what is captured was seen when it was captured, and that a search gives up
for its depth just where a pattern was seen that had to go down where no level was left.
From the rules it follows for every pattern that each move stays among the items of its
sequence, and that each visit is made by another one, back to the visit of the pattern to
the candidate.
-/

namespace Motif

namespace Sequence

/-- What a move may do among some items. The walk is never before the first item or past the end;
what is read is there; a piece that is taken has the length that is reported; and the lengths
that are tried are a leading part of all those that the bounds allow and that leave the later
chunks enough, the preferred ones first and none of them twice. -/
def Move.InRange (items : List Value) : Move → Prop
  | .reach _ xi => 0 ≤ xi ∧ xi ≤ items.length
  | .read index => 0 ≤ index ∧ index < items.length
  | .take decision piece => ∃ ci xi length mode, decision = .repeated ci xi length mode ∧
    xi + length ≤ items.length ∧ piece = (items.drop xi).take length ∧ piece.length = length
  | .tried repetition needs xi lengths => ∃ all : List Nat,
    lengths <+: all.map (fun k : Nat => (k : Int)) ∧
      all.Pairwise repetition.mode.Prefers ∧
      ∀ k : Nat, k ∈ all ↔ Bounds.allow repetition.bounds k = true ∧
        xi + k + needs.sum ≤ items.length

end Sequence

/-- Whether a pattern goes a level down when it visits a value. -/
def Pattern.descends (p : Pattern Value) (v : Value) : Bool :=
  match p with
  | .sequence _ => v.items?.isSome
  | .arrayOf .. => true
  | _ => false

namespace Visit

/-- One visit makes another one, on the way to the values that it looks at. A level is only gone
down while the search is not as deep as it may be. -/
inductive Makes (maxDepth : Nat) : Visit → Visit → Prop
  | option {options p spot v depth} (hp : p ∈ options) :
    Makes maxDepth ⟨.alternation options, spot, v, depth⟩ ⟨p, spot, v, depth⟩
  | optionFrom {source options p spot v depth} (hp : p ∈ options) :
    Makes maxDepth ⟨.choiceFrom source options, spot, v, depth⟩ ⟨p, spot, v, depth⟩
  | item {elements p spot form items item} {depth : Int} (hp : p ∈ elements)
    (hsingle : p.repetition? = none) (hitem : item ∈ items) (hdepth : depth + 1 ≤ maxDepth) :
    Makes maxDepth ⟨.sequence elements, spot, .seq form items, depth⟩
      ⟨p, spot.inside, item, depth + 1⟩
  | piece {elements p repetition spot form items} {depth : Int} (hp : p ∈ elements)
    (hrepeats : p.repetition? = some repetition) (start length : Nat)
    (hdepth : depth + 1 ≤ maxDepth) :
    Makes maxDepth ⟨.sequence elements, spot, .seq form items, depth⟩
      ⟨p, spot.cut, .seq form ((items.drop start).take length), depth + 1⟩
  | each {inner mode bounds spot form items item depth} (hitem : item ∈ items) :
    Makes maxDepth ⟨.repeated inner mode bounds, spot, .seq form items, depth⟩
      ⟨inner, spot.each, item, depth⟩
  | element {inner bounds spot form items item} {depth : Int} (hitem : item ∈ items)
    (hdepth : depth + 1 ≤ maxDepth) :
    Makes maxDepth ⟨.arrayOf inner bounds, spot, .seq form items, depth⟩
      ⟨inner, spot.inside, item, depth + 1⟩
  | labelled {label inner spot v depth} :
    Makes maxDepth ⟨.named label inner, spot, v, depth⟩ ⟨inner, spot, v, depth⟩

/-- One visit leads to another one over visits that make each other. -/
abbrev LeadsTo (maxDepth : Nat) : Visit → Visit → Prop := Relation.ReflTransGen (Makes maxDepth)

/-- Whether a visit has to go down where no level is left. -/
def TooDeep (maxDepth : Nat) (visit : Visit) : Prop :=
  visit.pattern.descends visit.value = true ∧ (maxDepth : Int) ≤ visit.depth

end Visit

namespace Sight

/-- What is to be expected of the sights of a visit. -/
def Expected (maxDepth : Nat) (root : Visit) : Sight → Prop
  | .applied visit => root.LeadsTo maxDepth visit
  | .moved items move => move.InRange items

def TooDeep (maxDepth : Nat) : Sight → Prop
  | .applied visit => visit.TooDeep maxDepth
  | .moved .. => False

/-- Whether a label was seen to capture a value. -/
def Captures (label : String) (v : Value) : Sight → Prop
  | .applied visit => ∃ inner, visit.pattern = .named label inner ∧ visit.value = v
  | .moved .. => False

theorem Expected.head {maxDepth : Nat} {root visit : Visit} (hmakes : root.Makes maxDepth visit)
    {sight : Sight} (h : sight.Expected maxDepth visit) : sight.Expected maxDepth root := by
  cases sight with
  | applied last => exact Relation.ReflTransGen.head hmakes h
  | moved items move => exact h

end Sight

namespace Seen

/-- Whether the search was given up because it was too deep. -/
def TooDeep (seen : Seen) : Prop := ∃ limit, seen.outcome = some (.aborted (.maxDepth limit))

/-- What was seen accounts for how a survey ended that began with some captures in some search. -/
structure Accounts (ok : Sight → Prop) (captures : Captures) (s : Search) (seen : Seen) : Prop where
  limits : seen.search.limits = s.limits
  depth : ∀ outcome, seen.outcome = some outcome → outcome.isAborted = false →
    seen.search.depth = s.depth
  sights : ∀ sight ∈ seen.sights, ok sight
  captured : ∀ after, seen.outcome = some (.matched after) → ∀ entry ∈ after,
    entry ∈ captures ∨ ∃ sight ∈ seen.sights, sight.Captures entry.1 entry.2
  stopped : seen.TooDeep ↔ ∃ sight ∈ seen.sights, sight.TooDeep s.limits.maxDepth.value

variable {ok : Sight → Prop} {captures between : Captures} {s : Search} {seen later : Seen}

/-- Where a survey went on with some of what was captured, both parts together account for it. -/
theorem Accounts.append (h : seen.Accounts ok captures s) {outcome : Outcome}
    (houtcome : seen.outcome = some outcome) (hanswer : outcome.isAborted = false)
    (hbetween : ∀ entry ∈ between,
      entry ∈ captures ∨ ∃ sight ∈ seen.sights, sight.Captures entry.1 entry.2)
    (hlater : later.Accounts ok between seen.search) :
    (later.after seen.sights).Accounts ok captures s where
  limits := hlater.limits.trans h.limits
  depth := by
    intro last hlast hdone
    have hfirst := h.depth outcome houtcome hanswer
    have hrest := hlater.depth last hlast hdone
    exact hrest.trans hfirst
  sights := by
    intro sight hsight
    rcases List.mem_append.mp hsight with hsight | hsight
    · exact h.sights sight hsight
    · exact hlater.sights sight hsight
  captured := by
    intro after hafter entry hentry
    rcases hlater.captured after hafter entry hentry with hold | ⟨sight, hsight, hcaptures⟩
    · rcases hbetween entry hold with hstart | ⟨sight, hsight, hcaptures⟩
      · exact Or.inl hstart
      · exact Or.inr ⟨sight, List.mem_append_left _ hsight, hcaptures⟩
    · exact Or.inr ⟨sight, List.mem_append_right _ hsight, hcaptures⟩
  stopped := by
    have hfirst : ¬ seen.TooDeep := by
      rintro ⟨limit, hlimit⟩
      rw [houtcome] at hlimit
      cases hlimit
      cases hanswer
    have hstopped := hlater.stopped
    rw [h.limits] at hstopped
    constructor
    · intro hdeep
      obtain ⟨sight, hsight, htoo⟩ := hstopped.mp hdeep
      exact ⟨sight, List.mem_append_right _ hsight, htoo⟩
    · rintro ⟨sight, hsight, htoo⟩
      rcases List.mem_append.mp hsight with hsight | hsight
      · exact absurd (h.stopped.mpr ⟨sight, hsight, htoo⟩) hfirst
      · exact hstopped.mpr ⟨sight, hsight, htoo⟩

theorem Accounts.of_subset (h : seen.Accounts ok captures s)
    (hsub : ∀ entry ∈ captures, entry ∈ between) :
    seen.Accounts ok between s :=
  { h with
    captured := fun after hafter entry hentry =>
      (h.captured after hafter entry hentry).imp_left (hsub entry) }

/-- Nothing has been seen, and nothing has been captured since. -/
theorem accounts_end {outcome : Option Outcome}
    (hmatched : ∀ after, outcome = some (.matched after) → after = captures)
    (hdeep : ∀ limit, outcome ≠ some (.aborted (.maxDepth limit))) :
    (Seen.mk outcome s []).Accounts ok captures s where
  limits := rfl
  depth := fun _ _ _ => rfl
  sights := by simp
  captured := by
    intro after hafter entry hentry
    rw [hmatched after hafter] at hentry
    exact Or.inl hentry
  stopped := by simp [TooDeep, hdeep]

/-- Only one thing has been seen so far, and that is not too deep. -/
theorem accounts_sight {sight : Sight} (captures : Captures) (hok : ok sight)
    (hshallow : ¬ sight.TooDeep s.limits.maxDepth.value) :
    (Seen.mk (some .noMatch) s [sight]).Accounts ok captures s where
  limits := rfl
  depth := fun _ _ _ => rfl
  sights := by simpa using hok
  captured := by simp
  stopped := by simpa [TooDeep] using hshallow

end Seen

namespace Survey

/-- Whatever it starts from, what a survey sees at a depth accounts for how it ends. -/
def Accounts (maxDepth : Nat) (depth : Int) (ok : Sight → Prop) (survey : Captures → Survey) :
    Prop :=
  ∀ captures s, s.limits.maxDepth.value = maxDepth → s.depth = depth →
    (survey captures s).Accounts ok captures s

section

variable {maxDepth : Nat} {depth : Int} {ok : Sight → Prop} {α : Type}
variable {survey first second : Captures → Survey}

theorem Accounts.imp {ok' : Sight → Prop} (h : Accounts maxDepth depth ok survey)
    (himp : ∀ sight, ok sight → ok' sight) : Accounts maxDepth depth ok' survey := by
  intro captures s hlimit hdepth
  have hs := h captures s hlimit hdepth
  exact { hs with sights := fun sight hsight => himp sight (hs.sights sight hsight) }

theorem accounts_succeed : Accounts maxDepth depth ok fun captures =>
    ofRun (Run.succeed captures) := by
  intro captures s _ _
  apply Seen.accounts_end
  · intro after hafter
    cases hafter
    rfl
  · exact nofun

theorem accounts_fail : Accounts maxDepth depth ok fun _ => ofRun Run.fail := by
  intro captures s _ _
  exact Seen.accounts_end nofun nofun

theorem accounts_abort {reason : Abort} (h : reason.overBudget = false) :
    Accounts maxDepth depth ok fun _ => ofRun (Run.abort reason) := by
  intro captures s _ _
  apply Seen.accounts_end
  · exact nofun
  · rintro limit hlimit
    cases hlimit
    cases h

theorem accounts_lost : Accounts maxDepth depth ok fun _ => lost := by
  intro captures s _ _
  exact Seen.accounts_end nofun nofun

theorem accounts_guard (holds : Bool) : Accounts maxDepth depth ok fun captures =>
    ofRun (Run.guard holds captures) := by
  cases holds with
  | true => exact accounts_succeed
  | false => exact accounts_fail

/-- A survey that goes on after an answer starts on the same level and under the same limits. -/
theorem Accounts.proceed {next : Captures → Survey} (hnext : Accounts maxDepth depth ok next)
    {captures between : Captures} {s : Search} {seen : Seen}
    (hlimit : s.limits.maxDepth.value = maxDepth)
    (hdepth : s.depth = depth) (h : seen.Accounts ok captures s) {outcome : Outcome}
    (houtcome : seen.outcome = some outcome) (hanswer : outcome.isAborted = false)
    (hbetween : ∀ entry ∈ between,
      entry ∈ captures ∨ ∃ sight ∈ seen.sights, sight.Captures entry.1 entry.2) :
    ((next between seen.search).after seen.sights).Accounts ok captures s := by
  have hlimit' : seen.search.limits.maxDepth.value = maxDepth := by rw [h.limits, hlimit]
  have hdepth' : seen.search.depth = depth := by rw [h.depth outcome houtcome hanswer, hdepth]
  exact h.append houtcome hanswer hbetween (hnext between seen.search hlimit' hdepth')

theorem Accounts.andThen {next : Captures → Survey} (hfirst : Accounts maxDepth depth ok first)
    (hnext : Accounts maxDepth depth ok next) :
    Accounts maxDepth depth ok fun captures => Survey.andThen (first captures) next := by
  intro captures s hlimit hdepth
  have h := hfirst captures s hlimit hdepth
  simp only [Survey.andThen]
  split
  · next between houtcome =>
    exact hnext.proceed hlimit hdepth h houtcome rfl (h.captured between houtcome)
  · exact h

theorem Accounts.orElse (hfirst : Accounts maxDepth depth ok first)
    (hsecond : Accounts maxDepth depth ok second) :
    Accounts maxDepth depth ok fun captures =>
      Survey.orElse (first captures) (second captures) := by
  intro captures s hlimit hdepth
  have h := hfirst captures s hlimit hdepth
  simp only [Survey.orElse]
  split
  · next houtcome =>
    exact hsecond.proceed hlimit hdepth h houtcome rfl fun _ hentry => Or.inl hentry
  · exact h

theorem Accounts.noting (h : Accounts maxDepth depth ok survey) (d : Decision) :
    Accounts maxDepth depth ok fun captures => Survey.noting d (survey captures) := by
  intro captures s hlimit hdepth
  have hs := h captures (s.note d) hlimit hdepth
  exact ⟨hs.limits, hs.depth, hs.sights, hs.captured, hs.stopped⟩

/-- Giving up for the number of steps is not giving up for the depth. -/
theorem Accounts.counted (h : Accounts maxDepth depth ok survey) :
    Accounts maxDepth depth ok fun captures => Survey.counted (survey captures) := by
  intro captures s hlimit hdepth
  have hlimits := s.limits_step
  have hlevel := s.depth_step
  simp only [Survey.counted]
  rcases hstep : s.step with ⟨_ | reason, after⟩
  · rw [hstep] at hlimits hlevel
    have hs := h captures after (by rw [hlimits, hlimit]) (by rw [hlevel, hdepth])
    have hstopped := hs.stopped
    rw [hlimits] at hstopped
    exact {
      limits := hs.limits.trans hlimits
      depth := fun outcome houtcome hanswer => (hs.depth outcome houtcome hanswer).trans hlevel
      sights := hs.sights
      captured := hs.captured
      stopped := hstopped }
  · rw [hstep] at hlimits hlevel
    have hreason : ∀ limit, reason ≠ .maxDepth limit := by
      rintro limit rfl
      simp only [Search.step] at hstep
      split at hstep <;> cases hstep
    exact {
      limits := hlimits
      depth := fun _ _ _ => hlevel
      sights := by simp
      captured := by simp
      stopped := by simp [Seen.TooDeep, hreason] }

/-- A sight by itself does not change how a survey ends. -/
theorem Accounts.seeing (h : Accounts maxDepth depth ok survey)
    {sight : Captures → Search → Sight}
    (hok : ∀ captures s, s.depth = depth → ok (sight captures s))
    (hshallow : ∀ captures s, s.depth = depth → ¬ (sight captures s).TooDeep maxDepth) :
    Accounts maxDepth depth ok fun captures =>
      Survey.seeing (sight captures) (survey captures) := by
  intro captures s hlimit hdepth
  have hnot : ¬ (sight captures s).TooDeep s.limits.maxDepth.value := by
    rw [hlimit]
    exact hshallow captures s hdepth
  have hseen := Seen.accounts_sight captures (hok captures s hdepth) hnot
  exact h.proceed hlimit hdepth hseen rfl rfl fun _ hentry => Or.inl hentry

theorem Accounts.moving (h : Accounts maxDepth depth ok survey) {items : List Value}
    {move : Captures → Search → Sequence.Move}
    (hok : ∀ captures s, ok (.moved items (move captures s))) :
    Accounts maxDepth depth ok fun captures =>
      Survey.seeing (fun s => .moved items (move captures s)) (survey captures) :=
  h.seeing (fun captures s _ => hok captures s) fun _ _ _ => id

theorem accounts_firstOf {ways : List α} {survey : α → Captures → Survey}
    (h : ∀ way ∈ ways, Accounts maxDepth depth ok (survey way)) :
    Accounts maxDepth depth ok fun captures =>
      firstOf ways fun way => survey way captures := by
  induction ways with
  | nil => exact accounts_fail
  | cons way rest ih =>
    obtain ⟨hway, hrest⟩ := List.forall_mem_cons.mp h
    exact hway.orElse (ih hrest)

theorem accounts_inTurn {parts : List α} {survey : α → Captures → Survey}
    (h : ∀ part ∈ parts, Accounts maxDepth depth ok (survey part)) :
    Accounts maxDepth depth ok (inTurn parts survey) := by
  induction parts with
  | nil => exact accounts_succeed
  | cons part rest ih =>
    obtain ⟨hpart, hrest⟩ := List.forall_mem_cons.mp h
    exact hpart.andThen (ih hrest)

theorem accounts_lookUp {found : Option α} {next : α → Captures → Survey}
    (h : ∀ a, found = some a → Accounts maxDepth depth ok (next a)) :
    Accounts maxDepth depth ok fun captures => lookUp found fun a => next a captures := by
  cases found with
  | none => exact accounts_lost
  | some a => exact h a rfl

variable {p : Pattern Value} {spot : Spot} {v : Value}

/-- A visit that stays on its level. -/
theorem Accounts.applied (h : Accounts maxDepth depth ok survey)
    (hok : ok (.applied ⟨p, spot, v, depth⟩)) (hstays : p.descends v = false) :
    Accounts maxDepth depth ok fun captures =>
      Survey.seeing (fun s => .applied ⟨p, spot, v, s.depth⟩) (survey captures) := by
  apply h.seeing
  · rintro captures s rfl
    exact hok
  · rintro captures s - ⟨hdescends, -⟩
    rw [hstays] at hdescends
    cases hdescends

/-- Below a visit that goes down, the search is one level deeper. -/
theorem Accounts.nested (h : depth + 1 ≤ maxDepth → Accounts maxDepth (depth + 1) ok survey)
    {captures : Captures} {s : Search} (hlimit : s.limits.maxDepth.value = maxDepth)
    (hdepth : s.depth = depth) (hroom : depth + 1 ≤ maxDepth) :
    (Survey.nested (survey captures) s).Accounts ok captures s := by
  subst hlimit hdepth
  have henter : s.enter = (none, { s with depth := s.depth + 1 }) :=
    if_neg (Int.not_lt.mpr hroom)
  have hbody := h hroom captures { s with depth := s.depth + 1 } rfl rfl
  simp only [Survey.nested, henter]
  exact {
    limits := hbody.limits
    depth := by
      intro outcome houtcome hanswer
      have hinner := hbody.depth outcome houtcome hanswer
      simp only [Search.leave, hinner]
      omega
    sights := hbody.sights
    captured := hbody.captured
    stopped := hbody.stopped }

/-- A visit that goes a level down. Either a level is left, and then the visit is not too deep, or
the search is given up for it. -/
theorem Accounts.descend (h : depth + 1 ≤ maxDepth → Accounts maxDepth (depth + 1) ok survey)
    (hok : ok (.applied ⟨p, spot, v, depth⟩)) (hdescends : p.descends v = true) :
    Accounts maxDepth depth ok fun captures =>
      Survey.seeing (fun s => .applied ⟨p, spot, v, s.depth⟩)
        (Survey.nested (survey captures)) := by
  rintro captures s rfl rfl
  by_cases hroom : s.depth + 1 ≤ s.limits.maxDepth.value
  · have hshallow : ¬ (Sight.applied ⟨p, spot, v, s.depth⟩).TooDeep s.limits.maxDepth.value := by
      rintro ⟨-, hdeep⟩
      simp only at hdeep
      omega
    have hseen := Seen.accounts_sight captures hok hshallow
    exact hseen.append rfl rfl (fun _ hentry => Or.inl hentry) (Accounts.nested h rfl rfl hroom)
  · have hdeep : (Sight.applied ⟨p, spot, v, s.depth⟩).TooDeep s.limits.maxDepth.value :=
      ⟨hdescends, by simp only; omega⟩
    have henter : s.enter = (some (.maxDepth s.limits.maxDepth), { s with depth := s.depth + 1 }) :=
      if_pos (Int.not_le.mp hroom)
    simp only [Survey.seeing, Survey.nested, henter, Seen.after, List.append_nil]
    exact {
      limits := rfl
      depth := by simp [Outcome.isAborted]
      sights := by simpa using hok
      captured := by simp
      stopped := ⟨fun _ => ⟨_, List.mem_singleton_self _, hdeep⟩, fun _ => ⟨_, rfl⟩⟩ }

/-- A visit of a label, which captures the value when what stands under it matches. -/
theorem Accounts.labelled (h : Accounts maxDepth depth ok survey) {label : String}
    {inner : Pattern Value} (hok : ok (.applied ⟨.named label inner, spot, v, depth⟩)) :
    Accounts maxDepth depth ok fun captures =>
      Survey.seeing (fun s => .applied ⟨.named label inner, spot, v, s.depth⟩) <|
        Survey.andThen (survey captures) fun captures =>
          ofRun (Run.succeed (captures.put label v)) := by
  rintro captures s hlimit rfl
  have hshallow : ¬ (Sight.applied ⟨.named label inner, spot, v, s.depth⟩).TooDeep
      s.limits.maxDepth.value := by
    rintro ⟨hdescends, -⟩
    cases hdescends
  have hseen := Seen.accounts_sight captures hok hshallow
  -- What the label captures counts as captured from its visit on.
  have hbetween : ∀ entry ∈ (label, v) :: captures, entry ∈ captures ∨
      ∃ sight ∈ [Sight.applied ⟨.named label inner, spot, v, s.depth⟩],
        sight.Captures entry.1 entry.2 := by
    intro entry hentry
    rcases List.mem_cons.mp hentry with rfl | hold
    · exact Or.inr ⟨_, List.mem_singleton_self _, inner, rfl, rfl⟩
    · exact Or.inl hold
  refine hseen.append rfl rfl hbetween ?_
  have hinner := (h captures s hlimit rfl).of_subset fun entry => List.mem_cons_of_mem (label, v)
  simp only [Survey.andThen]
  split
  · next made houtcome =>
    refine accounts_succeed.proceed hlimit rfl hinner houtcome rfl fun entry hentry => ?_
    rcases Entries.mem_of_mem_put hentry with rfl | hmade
    · exact Or.inl List.mem_cons_self
    · exact hinner.captured made houtcome entry hmade
  · exact hinner

end

end Survey

end Motif
