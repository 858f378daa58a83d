import Motif.Proofs.Answer
import Motif.Proofs.Budget
import Motif.Proofs.Sighting

/-!
How far a match descends. The level of a value is the number of sequences of the candidate
that enclose it, and the depth of the search is what the limit is held against. The two go
together, except that a repetition which is applied to a whole sequence, and not to a slice
as an element of a sequence, goes on to the items without a level being charged. Then again
an array charges a level before it is known that there is a sequence to go down into. From
what a single visit may make, it follows how level and depth compare on all visits of a match.
-/

namespace Motif

/-- Whether a value stands in a spot of the candidate. -/
inductive Spot.Holds (candidate : Value) : Spot → Value → Prop
  | value {level uncharged v} (h : candidate.Occurs level v) :
    Holds candidate ⟨level, uncharged, false⟩ v
  | slice {level uncharged form items} (h : candidate.Occurs level (.seq form items))
    (start length : Nat) :
    Holds candidate ⟨level, uncharged, true⟩ (.seq form ((items.drop start).take length))

namespace Spot

variable {candidate : Value} {spot : Spot}

theorem Holds.occurs {v : Value} (h : spot.Holds candidate v) (hwhole : spot.slice = false) :
    candidate.Occurs spot.level v := by
  cases h with
  | value h => exact h
  | slice h start length => cases hwhole

/-- The level that the search has come to: for a slice, it is the level of its items already. -/
def reach (spot : Spot) : Nat := if spot.slice then spot.level + 1 else spot.level

theorem reach_of_whole (hwhole : spot.slice = false) : spot.reach = spot.level := by
  simp [reach, hwhole]

@[simp] theorem reach_inside (spot : Spot) : spot.inside.reach = spot.level + 1 := rfl

@[simp] theorem uncharged_inside (spot : Spot) : spot.inside.uncharged = spot.uncharged := rfl

@[simp] theorem reach_cut (spot : Spot) : spot.cut.reach = spot.level + 1 := rfl

@[simp] theorem uncharged_cut (spot : Spot) : spot.cut.uncharged = spot.uncharged := rfl

/-- A repetition takes no level of the search: it counts one more level as uncharged, unless the
search has come to the level of the items already. -/
theorem reach_each (spot : Spot) :
    spot.each.reach + spot.uncharged = spot.reach + spot.each.uncharged := by
  obtain ⟨level, uncharged, slice⟩ := spot
  cases slice with
  | false => simp [each, reach, Nat.add_comm, Nat.add_left_comm]
  | true => rfl

/-- The items of a sequence, and those of its slices, are one level down. -/
theorem Holds.item {form : Form} {items : List Value} {item : Value}
    (h : spot.Holds candidate (.seq form items)) (hitem : item ∈ items) :
    candidate.Occurs (spot.level + 1) item := by
  cases h with
  | value h => exact .item h hitem
  | slice h start length =>
    have hmem := List.mem_of_mem_drop (List.mem_of_mem_take hitem)
    exact .item h hmem

end Spot

namespace Visit

/-- How a visit stands to the candidate and to the limit. What is visited stands where the spot
says, and only repetitions visit slices. The search has come as far as its depth says, apart from
the levels that were not charged, and the depth is within the limit. -/
structure Charged (candidate : Value) (maxDepth : Nat) (visit : Visit) : Prop where
  holds : visit.spot.Holds candidate visit.value
  repeats : visit.spot.slice = true → visit.pattern.repetition?.isSome
  reach : (visit.spot.reach : Int) = visit.depth + visit.spot.uncharged
  depth : visit.depth ≤ maxDepth

variable {candidate : Value} {maxDepth : Nat} {root visit next : Visit}

theorem Charged.whole (h : visit.Charged candidate maxDepth)
    (hsingle : visit.pattern.repetition? = none) : visit.spot.slice = false := by
  cases hslice : visit.spot.slice with
  | false => rfl
  | true =>
    have hrepeats := h.repeats hslice
    rw [hsingle] at hrepeats
    cases hrepeats

/-- Whatever a visit makes is charged, if the visit is. -/
theorem Charged.makes (h : visit.Charged candidate maxDepth)
    (hmakes : visit.Makes maxDepth next) : next.Charged candidate maxDepth := by
  have hreach := h.reach
  cases hmakes with
  | option hp | optionFrom hp =>
    have hwhole := h.whole rfl
    refine ⟨h.holds, fun hslice => ?_, hreach, h.depth⟩
    rw [hwhole] at hslice
    cases hslice
  | item hp hsingle hitem hdepth | element hitem hdepth =>
    rw [Spot.reach_of_whole (h.whole rfl)] at hreach
    refine ⟨.value (h.holds.item hitem), nofun, ?_, hdepth⟩
    simp only [Spot.reach_inside, Spot.uncharged_inside] at hreach ⊢
    omega
  | piece hp hrepeats start length hdepth =>
    have hwhole := h.whole rfl
    rw [Spot.reach_of_whole hwhole] at hreach
    refine ⟨.slice (h.holds.occurs hwhole) start length, fun _ => ?_, ?_, hdepth⟩
    · rw [hrepeats]
      rfl
    · simp only [Spot.reach_cut, Spot.uncharged_cut] at hreach ⊢
      omega
  | @each inner mode bounds spot form items item depth hitem =>
    have heach := Spot.reach_each spot
    refine ⟨.value (h.holds.item hitem), nofun, ?_, h.depth⟩
    simp only at hreach ⊢
    omega
  | labelled => exact ⟨h.holds, h.repeats, hreach, h.depth⟩

/-- So all visits that lead back to a charged one are charged. -/
theorem Charged.leadsTo (h : root.Charged candidate maxDepth)
    (hleads : root.LeadsTo maxDepth visit) : visit.Charged candidate maxDepth := by
  induction hleads with
  | refl => exact h
  | tail _ hmakes ih => exact ih.makes hmakes

end Visit

namespace Pattern

section

variable {α : Type}

mutual

/-- Whether every repetition is an element of a sequence, under any number of labels. Such a
repetition is only ever given slices. The truth value says whether the pattern itself is an
element of a sequence. -/
def isAnchored : Bool → Pattern α → Bool
  | element, .repeated inner _ _ => element && isAnchored false inner
  | element, .named _ inner => isAnchored element inner
  | _, .alternation options | _, .choiceFrom _ options => areAnchored false options
  | _, .sequence elements => areAnchored true elements
  | _, .arrayOf inner _ => isAnchored false inner
  | _, .wildcard | _, .literal _ | _, .typeCheck _ | _, .unspecified _ | _, .misfit .. => true
termination_by structural _ p => p

def areAnchored : Bool → List (Pattern α) → Bool
  | _, [] => true
  | element, p :: rest => isAnchored element p && areAnchored element rest
termination_by structural _ ps => ps

end

theorem areAnchored_iff (element : Bool) (ps : List (Pattern α)) :
    areAnchored element ps = true ↔ ∀ p ∈ ps, p.isAnchored element = true := by
  induction ps with
  | nil => simp [areAnchored]
  | cons p rest ih => simp [areAnchored, ih]

/-- It does not matter where a pattern stands that is no repetition. -/
theorem isAnchored_of_single {p : Pattern α} (hsingle : p.repetition? = none) (element : Bool) :
    p.isAnchored element = p.isAnchored true := by
  induction p using Pattern.induction with
  | repeated inner mode bounds => cases hsingle
  | named label inner ih => exact ih hsingle
  | _ => rfl

end

end Pattern

namespace Visit

/-- A visit of an anchored pattern, with every level charged so far. -/
def Anchored (visit : Visit) : Prop :=
  visit.pattern.isAnchored visit.spot.slice = true ∧ visit.spot.uncharged = 0

variable {candidate : Value} {maxDepth : Nat} {root visit next : Visit}

/-- An anchored repetition visits a slice, so the level of the items is charged already. -/
theorem Anchored.makes (hanchored : visit.Anchored) (h : visit.Charged candidate maxDepth)
    (hmakes : visit.Makes maxDepth next) : next.Anchored := by
  obtain ⟨hplaced, hcharged⟩ := hanchored
  cases hmakes with
  | @option options p spot v depth hp | @optionFrom source options p spot v depth hp =>
    have hwhole : spot.slice = false := h.whole rfl
    have hall := (Pattern.areAnchored_iff false options).mp hplaced
    refine ⟨?_, hcharged⟩
    simp only [hwhole]
    exact hall p hp
  | item hp hsingle hitem hdepth =>
    have hall := (Pattern.areAnchored_iff true _).mp hplaced
    refine ⟨?_, hcharged⟩
    rw [Pattern.isAnchored_of_single hsingle]
    exact hall _ hp
  | piece hp hrepeats start length hdepth =>
    have hall := (Pattern.areAnchored_iff true _).mp hplaced
    exact ⟨hall _ hp, hcharged⟩
  | @each inner mode bounds spot form items item depth hitem =>
    obtain ⟨hslice, hinner⟩ := Bool.and_eq_true_iff.mp hplaced
    refine ⟨hinner, ?_⟩
    have heach : spot.each.uncharged = spot.uncharged := if_pos hslice
    simp only [heach]
    exact hcharged
  | element hitem hdepth => exact ⟨hplaced, hcharged⟩
  | labelled => exact ⟨hplaced, hcharged⟩

theorem Anchored.leadsTo (hanchored : root.Anchored) (h : root.Charged candidate maxDepth)
    (hleads : root.LeadsTo maxDepth visit) : visit.Anchored := by
  induction hleads with
  | refl => exact hanchored
  | tail hbefore hmakes ih => exact ih.makes (h.leadsTo hbefore) hmakes

/-- The level of a charged visit is within the limit, apart from the levels that were not
charged. -/
theorem Charged.level_le (h : visit.Charged candidate maxDepth) :
    visit.spot.level ≤ maxDepth + visit.spot.uncharged := by
  have hreach := h.reach
  have hdepth := h.depth
  have hlevel : visit.spot.level ≤ visit.spot.reach := by
    unfold Spot.reach
    split <;> omega
  omega

end Visit

namespace Pattern

variable {p : Pattern Value} {v : Value} {limits : Limits} {tracer : Option Tracer}

theorem leadsTo_of_applied {visit : Visit}
    (hseen : .applied visit ∈ (p.surveyed v limits tracer).sights) :
    Visit.LeadsTo limits.maxDepth.value ⟨p, .whole, v, 0⟩ visit :=
  (p.accounts_surveyed v limits tracer).sights _ hseen

theorem charged_root (p : Pattern Value) (v : Value) (limits : Limits) :
    Visit.Charged v limits.maxDepth.value ⟨p, .whole, v, 0⟩ where
  holds := .value .whole
  repeats := nofun
  reach := rfl
  depth := by simp

theorem charged_of_applied {visit : Visit}
    (hseen : .applied visit ∈ (p.surveyed v limits tracer).sights) :
    visit.Charged v limits.maxDepth.value :=
  (charged_root p v limits).leadsTo (leadsTo_of_applied hseen)

/-- What a match captures, it was seen to capture. -/
theorem applied_of_captured {captures : Captures}
    (houtcome : (p.matchAgainst v limits tracer).outcome = .matched captures)
    {entry : String × Value} (hentry : entry ∈ captures) :
    ∃ visit inner, .applied visit ∈ (p.surveyed v limits tracer).sights ∧
      visit.pattern = .named entry.1 inner ∧ visit.value = entry.2 := by
  have hmatched : (p.surveyed v limits tracer).outcome = some (.matched captures) := by
    rw [outcome_surveyed, houtcome]
  have haccounts := p.accounts_surveyed v limits tracer
  rcases haccounts.captured captures hmatched entry hentry with hnone | ⟨sight, hseen, hcaptures⟩
  · cases hnone
  · cases sight with
    | applied visit =>
      obtain ⟨inner, hpattern, hvalue⟩ := hcaptures
      exact ⟨visit, inner, hseen, hpattern, hvalue⟩
    | moved items move => exact hcaptures.elim

/-- How deep a match descends. Every visit is charged: its value stands where the spot says, and
its level is that of the search, which the limit caps, and one more for each sequence on the way
that a repetition was applied to as a whole. What is captured was visited by its label. So where
every repetition is an element of a sequence, no pattern visits a value on a level beyond the
limit, and what is captured stands on a level within it. -/
theorem matchAgainst_level (p : Pattern Value) (v : Value) (limits : Limits)
    (tracer : Option Tracer) :
    let report := p.matchAgainst v limits tracer
    let seen := p.surveyed v limits tracer
    seen.report? = some report ∧
      (∀ visit, .applied visit ∈ seen.sights → visit.Charged v limits.maxDepth.value ∧
        visit.spot.level ≤ limits.maxDepth.value + visit.spot.uncharged) ∧
      (∀ captures, report.outcome = .matched captures → ∀ entry ∈ captures,
        ∃ visit inner, .applied visit ∈ seen.sights ∧
          visit.pattern = .named entry.1 inner ∧ visit.value = entry.2) ∧
      (p.isAnchored false = true →
        (∀ visit, .applied visit ∈ seen.sights → visit.spot.level ≤ limits.maxDepth.value) ∧
        ∀ captures, report.outcome = .matched captures → ∀ entry ∈ captures,
          ∃ spot : Spot, spot.Holds v entry.2 ∧ spot.level ≤ limits.maxDepth.value) := by
  intro report seen
  have hlevel : p.isAnchored false = true → ∀ visit, .applied visit ∈ seen.sights →
      visit.spot.level ≤ limits.maxDepth.value := by
    intro hanchored visit hseen
    have hroot : Visit.Anchored ⟨p, .whole, v, 0⟩ := ⟨hanchored, rfl⟩
    have hcharged := (hroot.leadsTo (charged_root p v limits) (leadsTo_of_applied hseen)).2
    have hle := (charged_of_applied hseen).level_le
    rw [hcharged] at hle
    exact hle
  refine ⟨p.report?_surveyed v limits tracer, ?_, ?_, fun hanchored => ⟨hlevel hanchored, ?_⟩⟩
  · intro visit hseen
    have hvisit := charged_of_applied hseen
    exact ⟨hvisit, hvisit.level_le⟩
  · intro captures houtcome entry hentry
    exact applied_of_captured houtcome hentry
  · intro captures houtcome entry hentry
    obtain ⟨visit, inner, hseen, -, hvalue⟩ := applied_of_captured houtcome hentry
    refine ⟨visit.spot, ?_, hlevel hanchored visit hseen⟩
    rw [← hvalue]
    exact (charged_of_applied hseen).holds

/-- One level is enough for a repetition of labels in a sequence, and it captures on that level. -/
theorem matchAgainst_level_element :
    let p : Pattern Value := .sequence [.repeated (.named "a" .wildcard) .greedy none]
    let v := Value.list [.int 1]
    let report := p.matchAgainst v ⟨.number 1, .number 0, by decide⟩ none
    report.outcome = .matched [("a", .int 1)] ∧
      ∃ spot : Spot, spot.Holds v (.int 1) ∧ spot.level ≤ 1 := by
  intro p v report
  have houtcome : report.outcome = .matched [("a", .int 1)] := rfl
  obtain ⟨-, -, -, hanchored⟩ := matchAgainst_level p v ⟨.number 1, .number 0, by decide⟩ none
  obtain ⟨-, hcaptured⟩ := hanchored rfl
  exact ⟨houtcome, hcaptured _ houtcome ("a", .int 1) List.mem_cons_self⟩

/-- A repetition of repetitions, applied to a sequence of sequences, goes down two levels where
one is allowed, and captures an item that is on no other level. -/
theorem matchAgainst_level_repeated :
    let p : Pattern Value :=
      .repeated (.repeated (.named "a" .wildcard) .greedy none) .greedy none
    let v := Value.list [.list [.int 1]]
    let limits : Limits := ⟨.number 1, .number 0, by decide⟩
    (p.matchAgainst v limits none).outcome = .matched [("a", .int 1)] ∧
      (∃ visit, .applied visit ∈ (p.surveyed v limits none).sights ∧
        limits.maxDepth.value < visit.spot.level) ∧
      ∀ level, v.Occurs level (.int 1) → limits.maxDepth.value < level := by
  intro p v limits
  refine ⟨rfl, ⟨_, List.mem_of_getElem? (i := 2) rfl, by decide⟩, ?_⟩
  intro level hoccurs
  change (Value.list [.list [.int 1]]).Occurs level (.int 1) at hoccurs
  cases hoccurs with
  | item houter hitem =>
    cases houter with
    | whole => cases List.mem_singleton.mp hitem
    | item _ _ => exact Nat.succ_lt_succ (Nat.succ_pos _)

end Pattern

end Motif
