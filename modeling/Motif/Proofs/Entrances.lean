import Mathlib.Data.List.Perm.Subperm
import Mathlib.Data.Nat.Choose.Sum
import Motif.Proofs.Attempts
import Motif.Proofs.Decision
import Motif.Proofs.Flat

/-!
What a search costs at most. A flat sequence pattern counts its own chunks and nothing else, and it
comes to a chunk by giving lengths to the repetitions before it. No two ways to come to a chunk give
the same lengths, because a repetition tries no length twice, and the lengths that are given never
come to more than there are items. So there are at most as many steps as there are ways to give
such lengths, which is a sum of binomial coefficients, whatever is pruned and however the match
ends.
-/

namespace Motif

namespace Chunk

variable {α : Type}

/-- How many repetitions there are among chunks. -/
def repetitions (chunks : List (Chunk α)) : Nat := chunks.countP fun chunk => chunk.width?.isNone

/-- How many elements there are among chunks that take one item each. -/
def width (chunks : List (Chunk α)) : Nat := (chunks.filterMap width?).sum

variable (ps : List α) (p : α) (repetition : Repetition) (rest : List (Chunk α))

@[simp] theorem repetitions_nil : repetitions ([] : List (Chunk α)) = 0 := rfl

@[simp] theorem repetitions_fixed : repetitions (.fixed ps :: rest) = repetitions rest :=
  List.countP_cons_of_neg (by simp [width?])

@[simp] theorem repetitions_repeated :
    repetitions (.repeated p repetition :: rest) = repetitions rest + 1 :=
  List.countP_cons_of_pos rfl

@[simp] theorem width_nil : width ([] : List (Chunk α)) = 0 := rfl

@[simp] theorem width_fixed : width (.fixed ps :: rest) = ps.length + width rest := rfl

@[simp] theorem width_repeated : width (.repeated p repetition :: rest) = width rest := rfl

end Chunk

/-- The ways to give lengths to some repetitions that come to no more than a number of items. -/
def allotments : Nat → Nat → List (List Nat)
  | 0, _ => [[]]
  | repetitions + 1, n =>
    (List.range (n + 1)).flatMap fun take =>
      (allotments repetitions (n - take)).map (take :: ·)

theorem mem_allotments {vector : List Nat} {repetitions n : Nat} :
    vector ∈ allotments repetitions n ↔ vector.length = repetitions ∧ vector.sum ≤ n := by
  induction repetitions generalizing vector n with
  | zero =>
    cases vector with
    | nil => simp [allotments]
    | cons take rest => simp [allotments]
  | succ repetitions ih =>
    simp only [allotments, List.mem_flatMap, List.mem_range, List.mem_map, ih]
    constructor
    · rintro ⟨take, htake, rest, ⟨rfl, hrest⟩, rfl⟩
      refine ⟨rfl, ?_⟩
      rw [List.sum_cons]
      omega
    · rintro ⟨hlength, hsum⟩
      cases vector with
      | nil => cases hlength
      | cons take rest =>
        rw [List.sum_cons] at hsum
        exact ⟨take, by omega, rest, ⟨Nat.succ.inj hlength, by omega⟩, rfl⟩

theorem length_allotments (repetitions n : Nat) :
    (allotments repetitions n).length = (n + repetitions).choose repetitions := by
  induction repetitions generalizing n with
  | zero => exact (Nat.choose_zero_right (n + 0)).symm
  | succ repetitions ih =>
    have hsum : (allotments (repetitions + 1) n).length =
        ∑ take ∈ Finset.range (n + 1), (n - take + repetitions).choose repetitions := by
      simp only [allotments, List.length_flatMap, List.length_map, ih]
      rfl
    have hreflect := Finset.sum_range_reflect
      (fun k => (k + repetitions).choose repetitions) (n + 1)
    rw [Nat.add_sub_cancel] at hreflect
    rw [hsum, hreflect, Nat.sum_range_add_choose, Nat.add_assoc]

theorem Repetition.nodup_lengths (repetition : Repetition) (remaining needed : Nat) :
    (repetition.lengths remaining needed).Nodup := by
  refine (faithful_lengths.sorted repetition remaining needed).imp ?_
  rintro length _ hprefers rfl
  exact Mode.Prefers.irrefl hprefers

/-- A chunk that a walk comes to: the number of the chunk, that of the first item that it may take,
and the lengths that the repetitions before it were given. -/
@[ext]
structure Entrance where
  chunk : Nat
  item : Nat
  taken : List Nat
  deriving DecidableEq, Repr

namespace Entrance

/-- The entrance as it is seen among the attempts of a match. -/
def sight (xs : List Value) (e : Entrance) : Sight := .moved xs (.reach e.chunk e.item)

/-- Whether a walk over chunks can come by an entrance, with so many items left and the earlier
repetitions given some lengths. -/
def Onward {α : Type} (chunks : List (Chunk α)) (ci xi : Nat) (taken : List Nat) (left : Nat)
    (e : Entrance) : Prop :=
  ∃ k later, k < chunks.length ∧
    e = ⟨ci + k, xi + Chunk.width (chunks.take k) + later.sum, taken ++ later⟩ ∧
    later.length = Chunk.repetitions (chunks.take k) ∧ later.sum ≤ left

section

variable {α : Type} {chunks rest : List (Chunk α)} {ci xi left : Nat} {taken : List Nat}
  {e : Entrance}

theorem onward_self (hchunks : 0 < chunks.length) :
    Onward chunks ci xi taken left ⟨ci, xi, taken⟩ :=
  ⟨0, [], hchunks, by simp, rfl, Nat.zero_le left⟩

theorem Onward.fixed {ps : List α} (hwide : ps.length ≤ left)
    (h : Onward rest (ci + 1) (xi + ps.length) taken (left - ps.length) e) :
    Onward (.fixed ps :: rest) ci xi taken left e := by
  obtain ⟨k, later, hk, rfl, hlength, hsum⟩ := h
  refine ⟨k + 1, later, Nat.succ_lt_succ hk, ?_, ?_, by omega⟩
  · rw [List.take_succ_cons, Chunk.width_fixed]
    simp only [mk.injEq, and_true]
    omega
  · rw [List.take_succ_cons, Chunk.repetitions_fixed, hlength]

theorem Onward.repeated {p : α} {repetition : Repetition} {take : Nat} (hfits : take ≤ left)
    (h : Onward rest (ci + 1) (xi + take) (taken ++ [take]) (left - take) e) :
    Onward (.repeated p repetition :: rest) ci xi taken left e := by
  obtain ⟨k, later, hk, rfl, hlength, hsum⟩ := h
  refine ⟨k + 1, take :: later, Nat.succ_lt_succ hk, ?_, ?_, ?_⟩
  · rw [List.take_succ_cons, Chunk.width_repeated, List.sum_cons, List.append_assoc,
      List.singleton_append]
    simp only [mk.injEq, and_true]
    omega
  · rw [List.take_succ_cons, Chunk.repetitions_repeated, List.length_cons, hlength]
  · rw [List.sum_cons]
    omega

theorem Onward.from_le (h : Onward chunks ci xi taken left e) : ci ≤ e.chunk := by
  obtain ⟨k, later, -, rfl, -⟩ := h
  exact Nat.le_add_right ci k

theorem Onward.extends (h : Onward chunks ci xi taken left e) : taken <+: e.taken := by
  obtain ⟨k, later, -, rfl, -⟩ := h
  exact List.prefix_append taken later

/-- What is entered by different lengths of one repetition is different. -/
theorem Onward.take_eq {start start' left' take take' : Nat}
    (h : Onward chunks ci start (taken ++ [take]) left e)
    (h' : Onward chunks ci start' (taken ++ [take']) left' e) : take = take' := by
  have hprefix := List.prefix_of_prefix_length_le h.extends h'.extends (by simp)
  have heq := hprefix.eq_of_length (by simp)
  simpa using heq

end

end Entrance

/-- The entrances that a run comes by, in order. -/
abbrev Itinerary := Search → List Entrance

namespace Itinerary

open Survey

/-- Nothing is entered. -/
def nowhere : Itinerary := fun _ => []

/-- A chunk is entered, and what comes of it if its step is not one too many. -/
def enter (e : Entrance) (inside : Itinerary) : Itinerary := fun s =>
  e :: match s.step with
    | (some _, _) => []
    | (none, s) => inside s

/-- A decision is recorded on the way. -/
def noting (d : Decision) (onward : Itinerary) : Itinerary := fun s => onward (s.note d)

/-- Nothing is entered but after a run that matches. -/
def afterMatch (run : Run) (next : Captures → Itinerary) : Itinerary := fun s =>
  match run s with
  | (.matched captures, s) => next captures s
  | _ => []

/-- One way after the other is taken, until one of them does not fail to match. -/
def eachWay (ways : List Nat) (run : Nat → Run) (route : Nat → Itinerary) : Itinerary := fun s =>
  match ways with
  | [] => []
  | way :: rest => route way s ++ match run way s with
    | (.noMatch, s) => eachWay rest run route s
    | _ => []

section

variable {first : Survey} {run : Nat → Run} {route : Nat → Itinerary} {ways : List Nat}
  {e : Entrance} {s : Search}

theorem mem_afterMatch {run : Run} {next : Captures → Itinerary}
    (h : e ∈ afterMatch run next s) : ∃ captures after, e ∈ next captures after := by
  unfold afterMatch at h
  split at h
  · exact ⟨_, _, h⟩
  · cases h

theorem nodup_afterMatch {run : Run} {next : Captures → Itinerary}
    (h : ∀ captures s, (next captures s).Nodup) (s : Search) :
    (afterMatch run next s).Nodup := by
  unfold afterMatch
  split
  · exact h _ _
  · exact List.nodup_nil

theorem nodup_enter {inside : Itinerary} (h : ∀ s, (inside s).Nodup)
    (hnew : ∀ s, e ∉ inside s) (s : Search) : (enter e inside s).Nodup := by
  unfold enter
  rcases s.step with ⟨_ | reason, after⟩
  · exact List.nodup_cons.mpr ⟨hnew after, h after⟩
  · exact List.nodup_singleton e

theorem mem_enter {inside : Itinerary} {other : Entrance} (h : other ∈ enter e inside s) :
    other = e ∨ ∃ after, other ∈ inside after := by
  unfold enter at h
  rcases List.mem_cons.mp h with rfl | hinside
  · exact .inl rfl
  · rcases hstep : s.step with ⟨_ | reason, after⟩
    · rw [hstep] at hinside
      exact .inr ⟨after, hinside⟩
    · rw [hstep] at hinside
      cases hinside

theorem mem_eachWay (h : e ∈ eachWay ways run route s) :
    ∃ way ∈ ways, ∃ after, e ∈ route way after := by
  induction ways generalizing s with
  | nil => cases h
  | cons way rest ih =>
    unfold eachWay at h
    rcases List.mem_append.mp h with hway | hrest
    · exact ⟨way, List.mem_cons_self, s, hway⟩
    · split at hrest
      · obtain ⟨other, hother, after, hmem⟩ := ih hrest
        exact ⟨other, List.mem_cons_of_mem way hother, after, hmem⟩
      · cases hrest

/-- If no way is taken twice, and no two ways lead to the same entrance, then nothing is entered
twice. -/
theorem nodup_eachWay (hways : ways.Nodup) (h : ∀ way ∈ ways, ∀ s, (route way s).Nodup)
    (happart : ∀ way ∈ ways, ∀ other ∈ ways, ∀ e s s', e ∈ route way s → e ∈ route other s' →
      way = other) (s : Search) : (eachWay ways run route s).Nodup := by
  induction ways generalizing s with
  | nil => exact List.nodup_nil
  | cons way rest ih =>
    obtain ⟨hnew, hrest⟩ := List.nodup_cons.mp hways
    obtain ⟨hway, hlater⟩ := List.forall_mem_cons.mp h
    unfold eachWay
    split
    · next after _ =>
      refine (hway s).append (ih hrest hlater (fun a ha b hb => ?_) after) ?_
      · exact happart a (List.mem_cons_of_mem way ha) b (List.mem_cons_of_mem way hb)
      · intro e hfirst hsecond
        obtain ⟨other, hother, s', hmem⟩ := mem_eachWay hsecond
        obtain rfl := happart way List.mem_cons_self other (List.mem_cons_of_mem way hother)
          e s s' hfirst hmem
        exact hnew hother
    · rw [List.append_nil]
      exact hway s

/-- An itinerary lists a survey when the survey sees nothing but its entrances. -/
def Lists (xs : List Value) (route : Itinerary) (survey : Survey) : Prop :=
  ∀ s, (survey s).sights = (route s).map (Entrance.sight xs)

variable {xs : List Value} {survey : Survey}

theorem lists_nowhere (h : ∀ s, (survey s).sights = []) : Lists xs nowhere survey := h

theorem Lists.noting {route : Itinerary} (h : Lists xs route survey) (d : Decision) :
    Lists xs (noting d route) (Survey.noting d survey) := fun s => h (s.note d)

theorem Lists.enter {inside : Itinerary} (h : Lists xs inside survey) (e : Entrance) :
    Lists xs (enter e inside) (seeing (fun _ => e.sight xs) (counted survey)) := by
  intro s
  simp only [seeing, Seen.after, Itinerary.enter, List.map_cons, List.singleton_append]
  unfold counted
  rcases s.step with ⟨_ | reason, after⟩
  · rw [h after]
  · rfl

theorem lists_afterMatch {firstRun : Run} (hfollows : Follows first firstRun)
    (hfirst : ∀ s, (first s).sights = []) {next : Captures → Itinerary}
    {nextSurvey : Captures → Survey}
    (hnext : ∀ captures, Lists xs (next captures) (nextSurvey captures)) :
    Lists xs (afterMatch firstRun next) (andThen first nextSurvey) := by
  intro s
  obtain ⟨houtcome, hsearch⟩ := hfollows s
  unfold andThen afterMatch
  rcases hrun : firstRun s with ⟨captures | _ | reason, after⟩ <;> rw [hrun] at houtcome hsearch
  · simp only [houtcome, hsearch, Seen.after, hfirst, List.nil_append]
    exact hnext captures after
  · simp only [houtcome, hfirst, List.map_nil]
  · simp only [houtcome, hfirst, List.map_nil]

theorem lists_eachWay {surveys : Nat → Survey}
    (hfollows : ∀ way ∈ ways, Follows (surveys way) (run way))
    (h : ∀ way ∈ ways, Lists xs (route way) (surveys way)) :
    Lists xs (eachWay ways run route) (firstOf ways surveys) := by
  induction ways with
  | nil => exact fun _ => rfl
  | cons way rest ih =>
    obtain ⟨hway, hrest⟩ := List.forall_mem_cons.mp hfollows
    obtain ⟨hlists, hlater⟩ := List.forall_mem_cons.mp h
    intro s
    obtain ⟨houtcome, hsearch⟩ := hway s
    unfold firstOf orElse eachWay
    rcases hrun : run way s with ⟨captures | _ | reason, after⟩ <;> rw [hrun] at houtcome hsearch
    · simp only [houtcome, List.append_nil, hlists s]
    · simp only [houtcome, hsearch, Seen.after, List.map_append, hlists s, ih hrest hlater after]
    · simp only [houtcome, List.append_nil, hlists s]

end

end Itinerary

namespace Survey

variable {first second survey : Survey} {run : Run}

/-- Nothing is seen in a run that counts no chunk. -/
theorem Tallies.sights_eq_nil (h : Tallies survey run) (hquiet : run.Quiet) (s : Search) :
    (survey s).sights = [] := by
  have hcounts := h.counts s
  rw [(h.follows s).2, (hquiet s).1] at hcounts
  exact List.eq_nil_of_length_eq_zero (Nat.left_eq_add.mp hcounts)

theorem sights_orElse (hfirst : ∀ s, (first s).sights = []) (hsecond : ∀ s, (second s).sights = [])
    (s : Search) : (orElse first second s).sights = [] := by
  unfold orElse
  split
  · simp only [Seen.after, hfirst, hsecond, List.append_nil]
  · exact hfirst s

end Survey

open Survey

namespace Sequence

open Itinerary Pattern

/-- The entrances of the walk over chunks, where the earlier repetitions were given some lengths. -/
def entrances (form : Form) :
    Nat → List Nat → List (Chunk (Pattern Value)) → Nat → List Value → Captures → Itinerary
  | _, _, [], _, _, _ => nowhere
  | ci, taken, .fixed ps :: rest, xi, items, captures =>
    enter ⟨ci, xi, taken⟩ <|
      if items.length < ps.length then nowhere
      else
        afterMatch
          (Run.orElse (Run.inTurn (ps.zip items) (fun part => part.1.bind part.2) captures)
            (Run.noting (.fixed ci xi ps.length false) Run.fail))
          fun captures => noting (.fixed ci xi ps.length true) <|
            entrances form (ci + 1) taken rest (xi + ps.length) (items.drop ps.length) captures
  | ci, taken, .repeated p repetition :: rest, xi, items, captures =>
    enter ⟨ci, xi, taken⟩ <|
      eachWay (repetition.lengths items.length (Chunk.leastTotal rest))
        (fun take =>
          Run.noting (.repeated ci xi take repetition.mode) <|
            Run.andThen (p.bind (.seq form (items.take take)) captures) fun captures =>
              walk Repetition.lengths form (ci + 1)
                (rest.map (Chunk.map (matcher Repetition.lengths))) (xi + take) (items.drop take)
                captures)
        fun take =>
          noting (.repeated ci xi take repetition.mode) <|
            afterMatch (p.bind (.seq form (items.take take)) captures) fun captures =>
              entrances form (ci + 1) (taken ++ [take]) rest (xi + take) (items.drop take) captures

variable {form : Form} {chunks : List (Chunk (Pattern Value))}

theorem onward_of_mem_entrances {ci xi : Nat} {taken : List Nat} {items : List Value}
    {captures : Captures} {s : Search} {e : Entrance}
    (h : e ∈ entrances form ci taken chunks xi items captures s) :
    e.Onward chunks ci xi taken items.length := by
  induction chunks generalizing ci xi taken items captures s with
  | nil => cases h
  | cons chunk rest ih =>
    have hself : Entrance.Onward (chunk :: rest) ci xi taken items.length ⟨ci, xi, taken⟩ :=
      Entrance.onward_self (Nat.succ_pos rest.length)
    cases chunk with
    | fixed ps =>
      rcases mem_enter h with rfl | ⟨after, hinside⟩
      · exact hself
      · split at hinside
        · cases hinside
        · next hwide =>
          obtain ⟨_, _, hlater⟩ := mem_afterMatch hinside
          have honward := ih hlater
          rw [List.length_drop] at honward
          exact honward.fixed (Nat.not_lt.mp hwide)
    | repeated p repetition =>
      rcases mem_enter h with rfl | ⟨after, hinside⟩
      · exact hself
      · obtain ⟨take, htake, _, hway⟩ := mem_eachWay hinside
        obtain ⟨_, _, hlater⟩ := mem_afterMatch hway
        have honward := ih hlater
        rw [List.length_drop] at honward
        exact honward.repeated (Repetition.faithful_lengths.fits htake)

/-- A walk enters no chunk twice with the same lengths given to the repetitions before it. -/
theorem nodup_entrances (ci xi : Nat) (taken : List Nat) (items : List Value)
    (captures : Captures) (s : Search) :
    (entrances form ci taken chunks xi items captures s).Nodup := by
  induction chunks generalizing ci xi taken items captures s with
  | nil => exact List.nodup_nil
  | cons chunk rest ih =>
    -- What comes later is about later chunks.
    have hlater : ∀ {start taken' items' captures' s'}, (⟨ci, xi, taken⟩ : Entrance) ∉
        entrances form (ci + 1) taken' rest start items' captures' s' := fun hmem =>
      Nat.not_succ_le_self ci (onward_of_mem_entrances hmem).from_le
    cases chunk with
    | fixed ps =>
      refine nodup_enter (fun s => ?_) (fun s hmem => ?_) s
      · split
        · exact List.nodup_nil
        · exact nodup_afterMatch (fun captures s => ih _ _ _ _ _ _) s
      · split at hmem
        · cases hmem
        · obtain ⟨_, _, hmem⟩ := mem_afterMatch hmem
          exact hlater hmem
    | repeated p repetition =>
      refine nodup_enter (nodup_eachWay ?_ ?_ ?_) (fun s hmem => ?_) s
      · exact Repetition.nodup_lengths repetition _ _
      · exact fun take _ s => nodup_afterMatch (fun captures s => ih _ _ _ _ _ _) _
      · intro take _ take' _ e s s' hmem hmem'
        obtain ⟨_, _, hmem⟩ := mem_afterMatch hmem
        obtain ⟨_, _, hmem'⟩ := mem_afterMatch hmem'
        exact (onward_of_mem_entrances hmem).take_eq (onward_of_mem_entrances hmem')
      · obtain ⟨_, _, _, hmem⟩ := mem_eachWay hmem
        obtain ⟨_, _, hmem⟩ := mem_afterMatch hmem
        exact hlater hmem

/-- The entrances of a walk over flat elements are the attempts that it makes. -/
theorem lists_entrances (xs : List Value)
    (hflat : ∀ chunk ∈ chunks, ∀ p ∈ chunk.elements, p.isFlat = true) (ci xi : Nat)
    (taken : List Nat) (items : List Value) (captures : Captures) :
    Lists xs (entrances form ci taken chunks xi items captures)
      (attempts form xs ci (chunks.map (Chunk.map attempter)) xi items captures) := by
  induction chunks generalizing ci xi taken items captures with
  | nil => exact lists_nowhere fun _ => rfl
  | cons chunk rest ih =>
    obtain ⟨hown, hlater⟩ := List.forall_mem_cons.mp hflat
    cases chunk with
    | fixed ps =>
      simp only [List.map_cons, Chunk.map, attempts, entrances, List.length_map]
      refine Lists.enter ?_ ⟨ci, xi, taken⟩
      split
      · exact lists_nowhere fun _ => rfl
      · rw [List.zip_map_left, Survey.inTurn_map]
        have hmem : ∀ part ∈ ps.zip items, part.1 ∈ ps := fun part hpart =>
          (List.of_mem_zip hpart).1
        have hturn : Tallies
            (inTurn (ps.zip items) (fun part => part.1.attempts part.2) captures)
            (Run.inTurn (ps.zip items) (fun part => part.1.bind part.2) captures) :=
          tallies_inTurn (fun part _ => Pattern.tallies_attempts part.1 part.2) captures
        have hquiet : (Run.inTurn (ps.zip items) (fun part => part.1.bind part.2)
            captures).Quiet :=
          Run.Quiet.inTurn (fun part hpart => quiet_bindWith Repetition.lengths
            (hown _ (hmem part hpart)) part.2) captures
        refine lists_afterMatch (hturn.orElse (tallies_fail.noting _)).follows ?_ fun captures => ?_
        · exact sights_orElse (hturn.sights_eq_nil hquiet) fun _ => rfl
        · exact (ih hlater _ _ _ _ captures).noting _
    | repeated p repetition =>
      simp only [List.map_cons, Chunk.map, attempts, entrances, Chunk.leastTotal_map]
      refine Lists.enter (lists_eachWay (fun take _ => ?_) fun take _ => ?_) ⟨ci, xi, taken⟩
      · have hrest : ∀ captures, Tallies
            (attempts form xs (ci + 1) (rest.map (Chunk.map attempter)) (xi + take)
              (items.drop take) captures)
            (walk Repetition.lengths form (ci + 1)
              (rest.map (Chunk.map (matcher Repetition.lengths))) (xi + take) (items.drop take)
              captures) :=
          tallies_attempts form xs (fun _ _ q _ => Pattern.tallies_attempts q) _ _ _
        exact (((Pattern.tallies_attempts p _ captures).andThen hrest).noting _).follows
      · have htallies := Pattern.tallies_attempts p (.seq form (items.take take)) captures
        have hquiet := quiet_bindWith Repetition.lengths (hown p List.mem_cons_self)
          (.seq form (items.take take)) captures
        exact (lists_afterMatch htallies.follows (htallies.sights_eq_nil hquiet) fun captures =>
          ih hlater _ _ _ _ captures).noting _

end Sequence

namespace Pattern

/-- The entrances of the match of a sequence pattern. -/
def entrances (elements : List (Pattern Value)) (form : Form) (items : List Value)
    (captures : Captures) : Itinerary := fun s =>
  match s.enter with
  | (some _, _) => []
  | (none, s) => Sequence.entrances form 0 [] (chunks elements) 0 items captures s

variable {elements : List (Pattern Value)} {form : Form} {items : List Value}
  {captures : Captures} {s : Search}

theorem sights_attempts (hflat : ∀ p ∈ elements, p.isFlat = true) :
    ((sequence elements).attempts (.seq form items) captures s).sights =
      (entrances elements form items captures s).map (Entrance.sight items) := by
  have hlists : Itinerary.Lists items
      (Sequence.entrances form 0 [] (chunks elements) 0 items captures)
      (Sequence.attempts form items 0 ((chunks elements).map (Chunk.map attempter)) 0 items
        captures) :=
    Sequence.lists_entrances items (fun chunk hchunk p hp => hflat p (mem_of_mem_chunks hchunk hp))
      0 0 [] items captures
  simp only [attempts, Value.items?, cut_attempters, entrances]
  unfold nested
  rcases s.enter with ⟨_ | reason, after⟩
  · exact hlists after
  · rfl

theorem nodup_entrances : (entrances elements form items captures s).Nodup := by
  unfold entrances
  split
  · exact List.nodup_nil
  · exact Sequence.nodup_entrances _ _ _ _ _ _

/-- Where an entrance is: at a chunk, with a length for each repetition before it. The lengths come
to no more than there are items, and with the elements that take one item each, they say where the
first item is. -/
theorem of_mem_entrances {e : Entrance} (h : e ∈ entrances elements form items captures s) :
    e.chunk < (chunks elements).length ∧
      e.taken.length = Chunk.repetitions ((chunks elements).take e.chunk) ∧
      e.taken.sum ≤ items.length ∧
      e.item = Chunk.width ((chunks elements).take e.chunk) + e.taken.sum := by
  unfold entrances at h
  split at h
  · cases h
  · obtain ⟨k, later, hk, rfl, hlength, hsum⟩ := Sequence.onward_of_mem_entrances h
    simp only [Nat.zero_add, List.nil_append]
    exact ⟨hk, hlength, hsum, trivial⟩

/-- An entrance is told by its chunk and the lengths given before. -/
theorem nodup_map_entrances :
    ((entrances elements form items captures s).map fun e => (e.chunk, e.taken)).Nodup := by
  refine nodup_entrances.map_on fun e he other hother hsame => ?_
  obtain ⟨hchunk, htaken⟩ := Prod.mk.inj hsame
  obtain ⟨-, -, -, hitem⟩ := of_mem_entrances he
  obtain ⟨-, -, -, hitem'⟩ := of_mem_entrances hother
  rw [hchunk, htaken, ← hitem'] at hitem
  exact Entrance.ext hchunk hitem htaken

/-- There are no more entrances than ways to give lengths to the repetitions before each chunk. -/
theorem length_entrances_le :
    (entrances elements form items captures s).length ≤
      ∑ ci ∈ Finset.range (chunks elements).length,
        (items.length + Chunk.repetitions ((chunks elements).take ci)).choose
          (Chunk.repetitions ((chunks elements).take ci)) := by
  let ways := (List.range (chunks elements).length).flatMap fun ci =>
    (allotments (Chunk.repetitions ((chunks elements).take ci)) items.length).map (Prod.mk ci)
  have hsubset : (entrances elements form items captures s).map (fun e => (e.chunk, e.taken)) ⊆
      ways := by
    intro way hway
    obtain ⟨e, he, rfl⟩ := List.mem_map.mp hway
    obtain ⟨hchunk, hlength, hsum, -⟩ := of_mem_entrances he
    refine List.mem_flatMap.mpr ⟨e.chunk, List.mem_range.mpr hchunk, ?_⟩
    exact List.mem_map_of_mem (mem_allotments.mpr ⟨hlength, hsum⟩)
  calc (entrances elements form items captures s).length
      = ((entrances elements form items captures s).map fun e => (e.chunk, e.taken)).length :=
        (List.length_map _).symm
    _ ≤ ways.length := (List.subperm_of_subset nodup_map_entrances hsubset).length_le
    _ = _ := by
      simp only [ways, List.length_flatMap, List.length_map, length_allotments]
      rfl

/-- No split of a sequence is tried twice. A match of a sequence pattern with no sequence nested in
its elements counts one step for each chunk that it comes to, and it comes to a chunk at most once
with the same lengths given to the repetitions before it. There is one length for each of these, and
together they are no more than the items, so the steps are bounded by the number of ways to choose
them, within any limits and whether the match is given up or not. -/
theorem matchAgainst_enters_once (hflat : ∀ p ∈ elements, p.isFlat = true) (form : Form)
    (items : List Value) (limits : Limits) (tracer : Option Tracer) :
    let report := (sequence elements).matchAgainst (.seq form items) limits tracer
    let start := Search.fresh limits (tracer.map (·.note .started))
    let entered := entrances elements form items [] start
    let earlier := fun ci => Chunk.repetitions ((chunks elements).take ci)
    ((sequence elements).attempts (.seq form items) [] start).sights =
        entered.map (Entrance.sight items) ∧
      report.steps = entered.length ∧
      (entered.map fun e => (e.chunk, e.taken)).Nodup ∧
      (∀ e ∈ entered, e.chunk < (chunks elements).length ∧ e.taken.length = earlier e.chunk ∧
        e.taken.sum ≤ items.length ∧
        e.item = Chunk.width ((chunks elements).take e.chunk) + e.taken.sum) ∧
      report.steps ≤ ∑ ci ∈ Finset.range (chunks elements).length,
        (items.length + earlier ci).choose (earlier ci) := by
  intro report start entered earlier
  have hsights : ((sequence elements).attempts (.seq form items) [] start).sights =
      entered.map (Entrance.sight items) := sights_attempts hflat
  have hsteps : report.steps = entered.length := by
    obtain ⟨-, -, -, hcounted, -⟩ := (sequence elements).bind_counters (.seq form items) [] start
    rw [hsights, List.length_map] at hcounted
    exact hcounted.trans (Nat.zero_add _)
  refine ⟨hsights, hsteps, nodup_map_entrances, fun e he => of_mem_entrances he, ?_⟩
  rw [hsteps]
  exact length_entrances_le

/-- Two repetitions in a row and an element that is never found. An item is left for that element
whatever the repetitions are given, so fewer ways are taken than there are. -/
theorem matchAgainst_enters_once_adjacent :
    let elements : List (Pattern Value) :=
      [.named "head" (.repeated .wildcard .greedy none), .repeated (.typeCheck .number) .lazy none,
        .literal (.int 9)]
    let report := (sequence elements).matchAgainst (.list [.int 1, .int 2, .int 3]) .standard none
    (∀ p ∈ elements, p.isFlat = true) ∧ report.steps = 10 ∧ report.steps ≤ 1 + 4 + 10 := by
  intro elements report
  have hflat : ∀ p ∈ elements, p.isFlat = true := by decide
  have hsteps : report.steps = 10 := by decide +kernel
  obtain ⟨-, -, -, -, hbound⟩ :=
    matchAgainst_enters_once hflat .list [.int 1, .int 2, .int 3] .standard none
  have hsum : ∑ ci ∈ Finset.range (chunks elements).length,
      (3 + Chunk.repetitions ((chunks elements).take ci)).choose
        (Chunk.repetitions ((chunks elements).take ci)) = 1 + 4 + 10 := by decide
  exact ⟨hflat, hsteps, hbound.trans (Nat.le_of_eq hsum)⟩

end Pattern

end Motif
