import Motif.Proofs.Descent
import Motif.Proofs.Frame

/-!
Where captures come from. Whatever a match binds a label to stands at a site of the candidate,
and the pattern under that label, matched against it on its own, matches it. Neither is kept in
the captures: the sites are read off the visits of the match, and that a pattern would match
again is carried through the search as a condition on everything that has been captured so far.

A pattern that matched in the middle of a search also matches at its beginning, because a script
is played to its end just where the limits leave enough steps and enough levels for it, and
nowhere do they leave more than at the beginning.
-/

namespace Motif

namespace Value

/-- The value that is reached by item numbers, one for each sequence on the way down. -/
def at? : List Nat → Value → Option Value
  | [], v => some v
  | index :: path, .seq _ items => items[index]?.bind (at? path)
  | _ :: _, _ => none

/-- So many items of a sequence in a row, as a sequence of the same form. There is no such slice
where there are not as many items. -/
def slice? (start length : Nat) : Value → Option Value
  | .seq form items =>
    if start + length ≤ items.length then some (.seq form ((items.drop start).take length))
    else none
  | _ => none

theorem at?_append (path later : List Nat) (v : Value) :
    v.at? (path ++ later) = (v.at? path).bind (at? later) := by
  induction path generalizing v with
  | nil => rfl
  | cons index path ih =>
    cases v with
    | seq form items =>
      simp only [List.cons_append, at?, Option.bind_assoc]
      exact congrArg _ (funext ih)
    | _ => rfl

/-- What occurs in a value is reached by item numbers. -/
theorem Occurs.exists_at? {v w : Value} {level : Nat} (h : v.Occurs level w) :
    ∃ path, v.at? path = some w := by
  induction h with
  | whole => exact ⟨[], rfl⟩
  | item _ hitem ih =>
    obtain ⟨path, hpath⟩ := ih
    obtain ⟨index, hindex⟩ := List.getElem?_of_mem hitem
    refine ⟨path ++ [index], ?_⟩
    rw [at?_append, hpath]
    simp only [Option.bind_some, at?, hindex]

/-- Slices that reach beyond the end of a sequence can be said with numbers that do not. -/
theorem exists_slice? (form : Form) (items : List Value) (start length : Nat) :
    ∃ start' length', (seq form items).slice? start' length' =
      some (.seq form ((items.drop start).take length)) := by
  refine ⟨min start items.length, min length (items.length - start), ?_⟩
  have hfits : min start items.length + min length (items.length - start) ≤ items.length := by
    omega
  have hdrop : items.drop (min start items.length) = items.drop start := by
    rcases Nat.le_total start items.length with hstart | hstart
    · rw [Nat.min_eq_left hstart]
    · rw [Nat.min_eq_right hstart, List.drop_of_length_le hstart, List.drop_length]
  rw [slice?, if_pos hfits, hdrop, ← List.length_drop, ← List.take_eq_take_min]

end Value

/-- A place in a candidate: that of a value, which may be the candidate itself, or that of a slice
of a sequence. -/
inductive Site where
  | value (path : List Nat)
  | slice (path : List Nat) (start length : Nat)
  deriving DecidableEq, Repr

namespace Site

/-- What stands at a site of a candidate, if there is such a site. -/
def read? (candidate : Value) : Site → Option Value
  | .value path => candidate.at? path
  | .slice path start length => (candidate.at? path).bind (Value.slice? start length)

end Site

/-- What stands in a spot of the candidate stands at a site of it. -/
theorem Spot.Holds.exists_site {candidate v : Value} {spot : Spot} (h : spot.Holds candidate v) :
    ∃ site : Site, site.read? candidate = some v := by
  cases h with
  | value hoccurs =>
    obtain ⟨path, hpath⟩ := hoccurs.exists_at?
    exact ⟨.value path, hpath⟩
  | @slice level uncharged form items hoccurs start length =>
    obtain ⟨path, hpath⟩ := hoccurs.exists_at?
    obtain ⟨start', length', hslice⟩ := Value.exists_slice? form items start length
    exact ⟨.slice path start' length', by rw [Site.read?, hpath, Option.bind_some, hslice]⟩

namespace Pattern

section

variable {α : Type}

mutual

/-- All nodes of a pattern, the pattern itself first. -/
def nodes : Pattern α → List (Pattern α)
  | .alternation options => .alternation options :: nodesOf options
  | .sequence elements => .sequence elements :: nodesOf elements
  | .repeated inner mode bounds => .repeated inner mode bounds :: nodes inner
  | .arrayOf inner bounds => .arrayOf inner bounds :: nodes inner
  | .named label inner => .named label inner :: nodes inner
  | .choiceFrom source options => .choiceFrom source options :: nodesOf options
  | .wildcard => [.wildcard]
  | .literal value => [.literal value]
  | .typeCheck kind => [.typeCheck kind]
  | .unspecified tag => [.unspecified tag]
  | .misfit flaw value => [.misfit flaw value]
termination_by structural p => p

def nodesOf : List (Pattern α) → List (Pattern α)
  | [] => []
  | p :: rest => nodes p ++ nodesOf rest
termination_by structural ps => ps

end

theorem nodes_subset_nodesOf {ps : List (Pattern α)} {p : Pattern α} (hp : p ∈ ps) :
    p.nodes ⊆ nodesOf ps := by
  induction ps with
  | nil => cases hp
  | cons first rest ih =>
    rw [nodesOf]
    rcases List.mem_cons.mp hp with rfl | hrest
    · exact List.subset_append_left _ _
    · exact List.Subset.trans (ih hrest) (List.subset_append_right _ _)

end

end Pattern

/-- A search that runs within some limits and has gone so many levels down. -/
structure Search.At (s : Search) (limits : Limits) (level : Nat) : Prop where
  limits : s.limits = limits
  depth : s.depth = level

namespace Run

/-- How a run is to end: on a level, and when it matches, with captures that are granted. -/
def Ends (limits : Limits) (granted : String × Value → Prop) (level : Nat) :
    Outcome × Search → Prop
  | (.matched made, after) => after.At limits level ∧ ∀ entry ∈ made, granted entry
  | (.noMatch, after) => after.At limits level
  | (.aborted _, _) => True

/-- A run grants something of its captures when, from captures of which it is granted, it comes to
such captures again. It is asked only about searches within some limits, and only where the
search is not on a level below all levels. -/
def Grants (limits : Limits) (granted : String × Value → Prop) (run : Captures → Run) : Prop :=
  ∀ level captures s, s.At limits level → (∀ entry ∈ captures, granted entry) →
    Ends limits granted level (run captures s)

variable {limits : Limits} {granted : String × Value → Prop}
  {first second next body : Captures → Run}

theorem grants_andThen (hfirst : Grants limits granted first) (hnext : Grants limits granted next) :
    Grants limits granted fun captures => andThen (first captures) next := by
  intro level captures s hat hcaptures
  have hown := hfirst level captures s hat hcaptures
  change Ends limits granted level (andThen (first captures) next s)
  unfold andThen
  rcases hrun : first captures s with ⟨made | _ | reason, between⟩
  · rw [hrun] at hown
    exact hnext level made between hown.1 hown.2
  · rw [hrun] at hown
    exact hown
  · trivial

theorem grants_orElse (hfirst : Grants limits granted first)
    (hsecond : Grants limits granted second) :
    Grants limits granted fun captures => orElse (first captures) (second captures) := by
  intro level captures s hat hcaptures
  have hown := hfirst level captures s hat hcaptures
  change Ends limits granted level (orElse (first captures) (second captures) s)
  unfold orElse
  rcases hrun : first captures s with ⟨made | _ | reason, between⟩
  · rw [hrun] at hown
    exact hown
  · rw [hrun] at hown
    exact hsecond level captures between hown hcaptures
  · trivial

theorem grants_counted (hbody : Grants limits granted body) :
    Grants limits granted fun captures => counted (body captures) := by
  intro level captures s hat hcaptures
  cases hstep : s.step.1 with
  | none =>
    have hstepped : s.step.2.At limits level :=
      ⟨s.limits_step.trans hat.limits, s.depth_step.trans hat.depth⟩
    simp only [counted_of_none hstep]
    exact hbody level captures s.step.2 hstepped hcaptures
  | some reason =>
    simp only [counted_of_some hstep]
    trivial

theorem grants_nested (hbody : Grants limits granted body) :
    Grants limits granted fun captures => nested (body captures) := by
  intro level captures s hat hcaptures
  cases henter : s.enter.1 with
  | none =>
    have hentered : s.enter.2.At limits (level + 1) := by
      refine ⟨s.limits_enter.trans hat.limits, ?_⟩
      rw [Search.depth_enter, hat.depth, Int.natCast_succ]
    have hleave : ∀ after : Search, after.At limits (level + 1) → after.leave.At limits level := by
      intro after hafter
      refine ⟨hafter.limits, ?_⟩
      simp only [Search.leave, hafter.depth, Int.natCast_succ, Int.add_sub_cancel]
    have hinside := hbody (level + 1) captures s.enter.2 hentered hcaptures
    simp only [nested_of_none henter]
    rcases hrun : body captures s.enter.2 with ⟨made | _ | reason, after⟩
    · rw [hrun] at hinside
      exact ⟨hleave after hinside.1, hinside.2⟩
    · rw [hrun] at hinside
      exact hleave after hinside
    · trivial
  | some reason =>
    simp only [nested_of_some henter]
    trivial

/-- As a relation, it asks nothing of the second run. -/
theorem paired_grants (limits : Limits) (granted : String × Value → Prop) :
    Paired fun run _ => Grants limits granted run where
  succeed _ _ _ hat hcaptures := ⟨hat, hcaptures⟩
  fail _ _ _ hat _ := hat
  andThen := grants_andThen
  orElse := grants_orElse
  counted := grants_counted
  noting d _ _ _ hbody level captures s hat :=
    hbody level captures (s.note d) ⟨hat.limits, hat.depth⟩

theorem grants_bindEach {bind : Value → Captures → Run}
    (hbind : ∀ v, Grants limits granted (bind v)) (bounds : Option Bounds) (v : Value) :
    Grants limits granted (bindEach bounds bind v) :=
  @Paired.bindEach _ (paired_grants limits granted) bind bind hbind bounds v

end Run

namespace Pattern

variable {p : Pattern Value} {v : Value} {limits : Limits}

/-- A pattern that matches in the middle of a search matches on its own within the same limits. -/
theorem isMatched_of_bind {s : Search} {level : Nat} (hat : s.At limits level)
    {captures made : Captures} (hbind : (p.bind v captures s).1 = .matched made)
    (tracer : Option Tracer) : (p.matchAgainst v limits tracer).outcome.isMatched = true := by
  obtain ⟨script, outcome, hplays, hreport⟩ := p.exists_script v
  obtain ⟨effect, after, hframed⟩ := framed_bindWith Repetition.lengths p v s
  have hfrom : p.bind v captures s = (effect.laidOver captures, after) := hframed captures
  have hfresh : script.run outcome s = (effect.laidOver [], after) := by
    rw [← hplays.eq]
    exact hframed []
  cases effect with
  | noMatch | aborted reason =>
    rw [hfrom] at hbind
    cases hbind
  | matched own =>
    -- From no captures the script is played to its end here, so it is at the beginning as well.
    cases hplay : (script.play s).1 with
    | some reason =>
      rw [Script.run_of_some outcome hplay] at hfresh
      cases hfresh
    | none =>
      have haffords : (Search.begun limits tracer).Affords script := by
        refine ((Script.play_eq_none_iff script s).mp hplay).mono hat.limits.symm
          (Nat.zero_le _) ?_
        rw [hat.depth]
        exact Int.natCast_nonneg level
      rw [hreport, Script.report_of_none ((Script.play_eq_none_iff script _).mpr haffords)]
      rw [Script.run_of_none outcome hplay] at hfresh
      cases hfresh
      rfl

/-- A pattern vouches for a capture when what stands in it under the label matches the captured
value on its own. -/
def Vouches (p : Pattern Value) (limits : Limits) (entry : String × Value) : Prop :=
  ∃ inner, .named entry.1 inner ∈ p.nodes ∧
    ∀ tracer, (inner.matchAgainst entry.2 limits tracer).outcome.isMatched = true

/-- Whatever a node of a pattern captures, the pattern vouches for it. -/
theorem grants_bind {root : Pattern Value} (hnodes : p.nodes ⊆ root.nodes) (v : Value) :
    Run.Grants limits (root.Vouches limits) (p.bind v) := by
  have hpaired := Run.paired_grants limits (root.Vouches limits)
  induction p using Pattern.induction generalizing v with
  | wildcard => exact hpaired.succeed
  | literal expected => exact hpaired.guard _
  | typeCheck kind => exact hpaired.guard _
  | alternation options ih | choiceFrom source options ih =>
    refine paired_options hpaired (fun p hp v => ih p hp ?_ v) v
    exact List.Subset.trans (nodes_subset_nodesOf hp) (List.subset_of_cons_subset hnodes)
  | sequence elements ih =>
    cases v with
    | seq form items =>
      refine Run.grants_nested (paired_chunks hpaired (fun p hp v => ih p hp ?_ v) form items)
      exact List.Subset.trans (nodes_subset_nodesOf hp) (List.subset_of_cons_subset hnodes)
    | _ => exact hpaired.fail
  | repeated inner mode bounds ih =>
    have hinner := ih (List.subset_of_cons_subset hnodes)
    exact Run.grants_bindEach hinner bounds v
  | arrayOf inner bounds ih =>
    have hinner := ih (List.subset_of_cons_subset hnodes)
    exact Run.grants_nested (Run.grants_bindEach hinner bounds v)
  | named label inner ih =>
    intro level captures s hat hcaptures
    have hinner := ih (List.subset_of_cons_subset hnodes) v level captures s hat hcaptures
    have hnamed : (named label inner).bind v captures =
        Run.andThen (inner.bind v captures) fun made => Run.succeed (made.put label v) := rfl
    rw [hnamed, Run.andThen]
    rcases hrun : inner.bind v captures s with ⟨made | _ | reason, after⟩
    · rw [hrun] at hinner
      refine ⟨hinner.1, fun entry hentry => ?_⟩
      rcases Entries.mem_of_mem_put hentry with rfl | hearlier
      · have hmatched : (inner.bind v captures s).1 = .matched made := congrArg Prod.fst hrun
        exact ⟨inner, hnodes List.mem_cons_self, isMatched_of_bind hat hmatched⟩
      · exact hinner.2 entry hearlier
    · rw [hrun] at hinner
      exact hinner
    · trivial
  | unspecified tag => exact fun _ _ _ _ _ => trivial
  | misfit flaw value => exact fun _ _ _ _ _ => trivial

/-- Captures are genuine. When a match binds a label to a value, the label is that of a node of the
pattern, the value stands at a site of the candidate, and what is under the label in that node
matches the value afresh, within the same limits and whoever watches. -/
theorem matchAgainst_captures (p : Pattern Value) (v : Value) (limits : Limits)
    (tracer : Option Tracer) (captures : Captures)
    (houtcome : (p.matchAgainst v limits tracer).outcome = .matched captures) :
    ∀ label x, (label, x) ∈ captures → ∃ (inner : Pattern Value) (site : Site),
      .named label inner ∈ p.nodes ∧ site.read? v = some x ∧
      ∀ watcher, (inner.matchAgainst x limits watcher).outcome.isMatched = true := by
  intro label x hbound
  -- Where the value stands is read off the visit in which it was captured.
  obtain ⟨visit, -, hseen, -, rfl⟩ := applied_of_captured houtcome hbound
  obtain ⟨site, hsite⟩ := (charged_of_applied hseen).holds.exists_site
  -- That it would match again was granted when it was captured, and has been ever since.
  have hends := grants_bind (List.Subset.refl p.nodes) v 0 []
    (Search.fresh limits (tracer.map (·.note .started))) ⟨rfl, rfl⟩ nofun
  rw [matchAgainst] at houtcome
  rcases hrun : p.bind v [] (Search.fresh limits (tracer.map (·.note .started)))
    with ⟨outcome, after⟩
  rw [hrun] at hends houtcome
  cases houtcome
  obtain ⟨inner, hnode, hagain⟩ := hends.2 _ hbound
  exact ⟨inner, site, hnode, hsite, hagain⟩

/-- A label on a repetition is bound to a slice of the candidate, which is a tuple again. -/
theorem matchAgainst_captures_slice :
    let numbers : Pattern Value := .repeated (.typeCheck .number) .greedy none
    let p : Pattern Value := .sequence [.named "name" .wildcard, .named "points" numbers]
    let v := Value.tuple [.str "a", .int 1, .int 2]
    let slice := Value.tuple [.int 1, .int 2]
    (p.matchAgainst v .standard none).outcome =
        .matched [("name", .str "a"), ("points", slice)] ∧
      ∃ (inner : Pattern Value) (site : Site),
        .named "points" inner ∈ p.nodes ∧ site.read? v = some slice ∧
        ∀ watcher, (inner.matchAgainst slice .standard watcher).outcome.isMatched = true := by
  intro numbers p v slice
  have houtcome : (p.matchAgainst v .standard none).outcome =
    .matched [("name", .str "a"), ("points", slice)] := rfl
  have hbound : ("points", slice) ∈ [("name", Value.str "a"), ("points", slice)] :=
    List.mem_cons_of_mem _ List.mem_cons_self
  exact ⟨houtcome, matchAgainst_captures p v .standard none _ houtcome "points" slice hbound⟩

end Pattern

end Motif
