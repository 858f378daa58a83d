import Motif.Proofs.Answer
import Motif.Proofs.Building
import Motif.Proofs.Equivalence
import Motif.Proofs.Labels
import Motif.Proofs.Position

/-!
Values as patterns. A value that is compiled is a pattern for its own shape: its sequences ask for
sequences of as many items, lists and tuples alike, and all else in it, mappings as a whole, for
what is strictly equal. The search that the nested sequences make has no choice anywhere, so it
comes to one comparison of two values.
-/

namespace Motif

namespace Value

mutual

/-- Whether no pattern and no bare constructor is found in a value when its sequences are opened. -/
def isRaw : Value → Bool
  | .pattern _ | .marker _ => false
  | .seq _ items => allRaw items
  | .null | .bool _ | .int _ | .float _ | .str _ | .bytes _ | .dict _ | .object _ => true
termination_by structural v => v

def allRaw : List Value → Bool
  | [] => true
  | v :: rest => isRaw v && allRaw rest
termination_by structural vs => vs

end

mutual

/-- Whether a value has the shape of the first one: sequences correspond item by item, whatever
their kinds, and what is no sequence in the first value corresponds to what is strictly equal. -/
def resembles : Value → Value → Bool
  | .seq _ expected, .seq _ items => allResemble expected items
  | .seq _ _, _ => false
  | expected, v => strictlyEqual expected v
termination_by structural expected => expected

def allResemble : List Value → List Value → Bool
  | [], [] => true
  | expected :: rest, v :: vs => resembles expected v && allResemble rest vs
  | _, _ => false
termination_by structural expected => expected

end

theorem allRaw_iff (vs : List Value) : allRaw vs = true ↔ ∀ v ∈ vs, isRaw v = true := by
  induction vs with
  | nil => simp [allRaw]
  | cons v rest ih => rw [allRaw, Bool.and_eq_true, ih, List.forall_mem_cons]

theorem allResemble_iff {expected vs : List Value} :
    allResemble expected vs = true ↔ expected.length = vs.length ∧
      ∀ part ∈ expected.zip vs, resembles part.1 part.2 = true := by
  induction expected generalizing vs with
  | nil => cases vs <;> simp [allResemble]
  | cons e rest ih =>
    cases vs with
    | nil => simp [allResemble]
    | cons v vs =>
      rw [allResemble, Bool.and_eq_true, ih, List.zip_cons_cons, List.forall_mem_cons,
        List.length_cons, List.length_cons, Nat.add_right_cancel_iff]
      exact and_left_comm

theorem allResemble_of_allStrictlyEqual {expected vs : List Value}
    (h : ∀ e ∈ expected, ∀ v, strictlyEqual e v = true → resembles e v = true)
    (hequal : allStrictlyEqual expected vs = true) : allResemble expected vs = true := by
  induction expected generalizing vs with
  | nil => cases vs <;> simp_all [allStrictlyEqual, allResemble]
  | cons e rest ih =>
    cases vs with
    | nil => cases hequal
    | cons v vs =>
      obtain ⟨he, hrest⟩ := List.forall_mem_cons.mp h
      rw [allStrictlyEqual, Bool.and_eq_true] at hequal
      rw [allResemble, Bool.and_eq_true]
      exact ⟨he v hequal.1, ih hrest hequal.2⟩

/-- What is strictly equal has the same shape. -/
theorem resembles_of_strictlyEqual {e v : Value} (h : strictlyEqual e v = true) :
    resembles e v = true := by
  induction e using Value.induction generalizing v with
  | seq form expected ih =>
    cases v with
    | seq form' items =>
      rw [strictlyEqual, Bool.and_eq_true] at h
      exact allResemble_of_allStrictlyEqual (fun e he v => ih e he) h.2
    | _ => cases h
  | _ => exact h

end Value

namespace Pattern

/-- Elements that do not repeat match a sequence item by item. -/
theorem matches_sequence_fixed {ps : List (Pattern Value)} (hfixed : ∀ p ∈ ps, p.repetition? = none)
    {form : Form} {items : List Value} :
    Matches (.sequence ps) (.seq form items) ↔
      ps.length = items.length ∧ ∀ part ∈ ps.zip items, Matches part.1 part.2 := by
  have hvalid : ∀ lengths, Sequence.Valid Matches form ps items lengths ↔
      ps.length ≤ items.length ∧ (∀ part ∈ ps.zip items, Matches part.1 part.2) ∧
        Sequence.Valid Matches form [] (items.drop ps.length) lengths := fun lengths => by
    rw [← Sequence.valid_fixed hfixed, List.append_nil]
  rw [matches_sequence_iff]
  constructor
  · rintro ⟨lengths, h⟩
    obtain ⟨hwide, hmatches, hrest⟩ := (hvalid lengths).mp h
    have hnone := List.drop_eq_nil_iff.mp (Sequence.valid_nil.mp hrest).2
    exact ⟨Nat.le_antisymm hwide hnone, hmatches⟩
  · rintro ⟨hlength, hmatches⟩
    have hnone : items.drop ps.length = [] := List.drop_eq_nil_iff.mpr (Nat.le_of_eq hlength.symm)
    exact ⟨[], (hvalid []).mpr
      ⟨Nat.le_of_eq hlength, hmatches, Sequence.valid_nil.mpr ⟨rfl, hnone⟩⟩⟩

theorem matches_literal_iff {expected v : Value} :
    Matches (.literal expected) v ↔ expected.strictlyEqual v = true := by
  constructor
  · intro h
    cases h with
    | literal hequal => exact hequal
  · exact .literal

end Pattern

namespace Construct

open Pattern

theorem ofValues_eq_map (vs : List Value) : ofValues vs = vs.map ofValue := by
  induction vs with
  | nil => rfl
  | cons v rest ih => rw [ofValues, ih, List.map_cons]

/-- A raw value hands no pattern over. -/
theorem Hands.isRaw {v : Value} {p : Pattern Value} (h : Hands v p) : v.isRaw = false := by
  induction h with
  | pattern => rfl
  | @item form items v p hv _ ih =>
    refine Bool.eq_false_iff.mpr fun hraw => ?_
    rw [(Value.allRaw_iff items).mp hraw v hv] at ih
    cases ih

theorem repetition?_ofValue {v : Value} (h : v.isRaw = true) : (ofValue v).repetition? = none := by
  cases v with
  | pattern p => cases h
  | marker m => cases h
  | _ => rfl

theorem labels_ofValue {v : Value} (h : v.isRaw = true) : (ofValue v).labels = [] := by
  induction v using Value.induction with
  | seq form items ih =>
    have hitems := (Value.allRaw_iff items).mp h
    simp only [ofValue, labels, ofValues_eq_map, allLabels_eq_flatMap, List.flatMap_map,
      List.flatMap_eq_nil_iff]
    exact fun v hv => ih v hv (hitems v hv)
  | pattern p => cases h
  | marker m => cases h
  | _ => rfl

/-- The pattern of a raw value descends as deep as the value is nested. -/
theorem height_ofValue {v : Value} (h : v.isRaw = true) : (ofValue v).height = v.nesting := by
  induction v using Value.induction with
  | seq form items ih =>
    have hitems := (Value.allRaw_iff items).mp h
    simp only [ofValue, height, Value.nesting, Nat.add_right_cancel_iff]
    -- All that is needed of the whole list has been said of its members.
    clear h
    induction items with
    | nil => rfl
    | cons v rest ihrest =>
      obtain ⟨hv, hrest⟩ := List.forall_mem_cons.mp hitems
      obtain ⟨ihv, ihlater⟩ := List.forall_mem_cons.mp ih
      rw [ofValues, tallest, Value.deepest, ihv hv, ihrest ihlater hrest]
  | pattern p => cases h
  | marker m => cases h
  | _ => rfl

/-- The pattern of a raw value matches just what has the shape of the value. -/
theorem matches_ofValue_iff {v w : Value} (h : v.isRaw = true) :
    Matches (ofValue v) w ↔ v.resembles w = true := by
  induction v using Value.induction generalizing w with
  | seq form items ih =>
    have hitems := (Value.allRaw_iff items).mp h
    have hfixed : ∀ p ∈ items.map ofValue, p.repetition? = none :=
      List.forall_mem_map.mpr fun v hv => repetition?_ofValue (hitems v hv)
    cases w with
    | seq form' others =>
      have hparts : ∀ part ∈ items.zip others,
          Matches (ofValue part.1) part.2 ↔ part.1.resembles part.2 = true := fun part hpart =>
        ih part.1 (List.of_mem_zip hpart).1 (hitems part.1 (List.of_mem_zip hpart).1)
      rw [ofValue, Value.resembles, ofValues_eq_map, matches_sequence_fixed hfixed,
        Value.allResemble_iff, List.length_map, List.zip_map_left, List.forall_mem_map]
      exact and_congr_right fun _ => forall₂_congr hparts
    | _ => exact ⟨nofun, nofun⟩
  | pattern p => cases h
  | marker m => cases h
  | _ => exact matches_literal_iff

/-- The pattern of a raw value captures nothing. -/
theorem yields_ofValue {v w : Value} (h : v.isRaw = true) {made : Captures}
    (hmade : Yields (ofValue v) w made) : made = [] := by
  have hkeys : made.keys = [] := List.eq_nil_iff_forall_not_mem.mpr fun label hlabel => by
    have hlabels := hmade.mem_labels hlabel
    rw [labels_ofValue h] at hlabels
    cases hlabels
  exact List.map_eq_nil_iff.mp hkeys

/-- A raw value is a pattern for its own shape. Matching a value against it captures nothing, and
succeeds just where the value resembles the raw one. In particular it matches the raw value
itself, if that has no float that is no number, and all that the literal of the raw value
matches. -/
theorem matchAgainst_ofValue {v : Value} (hraw : v.isRaw = true) {limits : Limits}
    (hsteps : limits.maxSteps.value = 0) (hdepth : v.nesting ≤ limits.maxDepth.value)
    (tracer : Option Tracer) :
    (∀ w, ((ofValue v).matchAgainst w limits tracer).outcome =
        if v.resembles w then .matched [] else .noMatch) ∧
      (v.Proper → ((ofValue v).matchAgainst v limits tracer).outcome = .matched []) ∧
      ∀ w limits' tracer' captures,
        ((Pattern.literal v).matchAgainst w limits' tracer').outcome = .matched captures →
          ((ofValue v).matchAgainst w limits tracer).outcome = .matched [] := by
  have hsound : (ofValue v).isSound = true := isSound_ofValue v fun p hp => by
    rw [hp.isRaw] at hraw
    cases hraw
  have hroom : (Search.fresh limits (tracer.map (·.note .started))).Roomy (ofValue v).height :=
    ⟨hsteps, by simp only [Search.fresh, height_ofValue hraw]; omega⟩
  have houtcome : ∀ w, ((ofValue v).matchAgainst w limits tracer).outcome =
      if v.resembles w then .matched [] else .noMatch := by
    intro w
    show ((ofValue v).bind w [] _).1 = _
    rcases answers hsound hroom w [] with ⟨made, hmade, hrun⟩ | ⟨hmiss, hrun⟩
    · rw [hrun, yields_ofValue hraw hmade, if_pos ((matches_ofValue_iff hraw).mp hmade.matches)]
      rfl
    · rw [hrun, if_neg fun halike => hmiss ((matches_ofValue_iff hraw).mpr halike)]
  have hequal : ∀ w, v.strictlyEqual w = true →
      ((ofValue v).matchAgainst w limits tracer).outcome = .matched [] := fun w h =>
    (houtcome w).trans (if_pos (Value.resembles_of_strictlyEqual h))
  refine ⟨houtcome, fun hproper => hequal v hproper.exchangeable.refl, ?_⟩
  intro w limits' tracer' captures hmatched
  obtain ⟨made, hmade, -⟩ := exists_yields_of_matched hmatched
  exact hequal w (matches_literal_iff.mp hmade.matches)

/-- A list that stands for a tuple, with a mapping inside that is compared as a whole. -/
theorem matchAgainst_ofValue_nested :
    let v : Value := .seq .list [.int 1, .seq .tuple [], .dict [(.str "k", .seq .list [.null])]]
    let w : Value := .seq .tuple [.int 1, .seq .list [], .dict [(.str "k", .seq .list [.null])]]
    v.isRaw = true ∧ v.strictlyEqual w = false ∧
      ((ofValue v).matchAgainst w .standard none).outcome = .matched [] ∧
      ((ofValue v).matchAgainst v .standard none).outcome = .matched [] ∧
      ((ofValue v).matchAgainst (.seq .list [.float (.finite false 1)]) .standard none).outcome =
        .noMatch := by
  intro v w
  have hproper : v.Proper := ⟨by decide +kernel, by decide +kernel⟩
  obtain ⟨houtcome, hself, -⟩ := @matchAgainst_ofValue v rfl .standard rfl (by decide) none
  exact ⟨rfl, by decide +kernel, houtcome w, hself hproper, houtcome _⟩

end Construct

end Motif
