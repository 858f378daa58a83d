import Motif.Construct
import Motif.Matching
import Motif.Proofs.Equality

/-!
Equal patterns and what they match. Patterns that are equal and whose literals are of the same
types match alike: every run of the one is a run of the other, step by step. Equality alone is not
enough. Literals are compared loosely when patterns are compared, and strictly when they are
matched.
-/

namespace Motif

namespace Pattern

mutual

/-- Whether the literals of two equal patterns are of the same types. Options that were taken
from something that is no tuple have to be equal as well. -/
def sameTypes : Pattern Value → Pattern Value → Bool
  | .literal a, .literal b => a.sameTypes b
  | .misfit _ a, .misfit _ b => a.typeName == b.typeName
  | .alternation ps, .alternation qs | .sequence ps, .sequence qs => allSameTypes ps qs
  | .choiceFrom _ ps, .choiceFrom _ qs => Value.allPatternsEqual ps qs && allSameTypes ps qs
  | .repeated p _ _, .repeated q _ _ | .arrayOf p _, .arrayOf q _ | .named _ p, .named _ q =>
    sameTypes p q
  | _, _ => true
termination_by structural p => p

def allSameTypes : List (Pattern Value) → List (Pattern Value) → Bool
  | p :: ps, q :: qs => sameTypes p q && allSameTypes ps qs
  | _, _ => true
termination_by structural ps => ps

end

theorem repetition?_congr : (p : Pattern Value) → ∀ {q}, Value.patternsEqual p q = true →
    p.repetition? = q.repetition?
  | .named label inner, q, h => by
      cases q with
      | named l r =>
        simp only [Value.patternsEqual, Bool.and_eq_true] at h
        exact (repetition?_congr inner h.2).trans rfl
      | _ => cases h
  | .repeated inner mode bounds, q, h => by
      cases q <;> simp_all [Value.patternsEqual, repetition?]
  | .wildcard, q, h | .literal _, q, h | .typeCheck _, q, h | .alternation _, q, h
  | .sequence _, q, h | .arrayOf _ _, q, h | .unspecified _, q, h | .misfit _ _, q, h
  | .choiceFrom _ _, q, h => by
      cases q <;> first | rfl | cases h
termination_by structural p => p

mutual

/-- Equal patterns with literals of the same types match alike. -/
theorem bindWith_congr (lengths : LengthPolicy) : (p : Pattern Value) →
    Value.patternWellKeyed p = true → ∀ {q}, Value.patternsEqual p q = true →
      p.sameTypes q = true → p.bindWith lengths = q.bindWith lengths
  | .wildcard, _, q, hequal, _ => by
      cases q <;> first | rfl | cases hequal
  | .literal a, hkeyed, q, hequal, htypes => by
      cases q with
      | literal b =>
        funext v captures
        rw [bindWith, bindWith, Value.strictlyEqual_congr a hkeyed hequal htypes]
      | _ => cases hequal
  | .typeCheck _, _, q, hequal, _ => by
      cases q <;> simp_all [Value.patternsEqual]
  | .unspecified _, _, q, hequal, _ => by
      cases q <;> simp_all [Value.patternsEqual]
  | .misfit _ a, _, q, hequal, htypes => by
      cases q with
      | misfit flaw b =>
        simp only [Value.patternsEqual, Bool.and_eq_true, beq_iff_eq] at hequal
        simp only [sameTypes, beq_iff_eq] at htypes
        funext v captures
        rw [bindWith, bindWith, hequal.1, htypes]
      | _ => cases hequal
  | .alternation ps, hkeyed, q, hequal, htypes => by
      cases q with
      | alternation qs =>
        funext v captures
        rw [bindWith, bindWith, matchersWith_congr lengths ps hkeyed hequal htypes]
      | _ => cases hequal
  | .sequence ps, hkeyed, q, hequal, htypes => by
      cases q with
      | sequence qs =>
        funext v captures
        rw [bindWith, bindWith, matchersWith_congr lengths ps hkeyed hequal htypes]
      | _ => cases hequal
  | .choiceFrom _ ps, hkeyed, q, hequal, htypes => by
      cases q with
      | choiceFrom _ qs =>
        simp only [Value.patternWellKeyed, sameTypes, Bool.and_eq_true] at hkeyed htypes
        funext v captures
        rw [bindWith, bindWith, matchersWith_congr lengths ps hkeyed.2 htypes.1 htypes.2]
      | _ => cases hequal
  | .repeated inner _ _, hkeyed, q, hequal, htypes => by
      cases q with
      | repeated r mode bounds =>
        simp only [Value.patternsEqual, Bool.and_eq_true, beq_iff_eq] at hequal
        obtain ⟨⟨hinner, rfl⟩, rfl⟩ := hequal
        funext v captures
        rw [bindWith, bindWith, bindWith_congr lengths inner hkeyed hinner htypes]
      | _ => cases hequal
  | .arrayOf inner _, hkeyed, q, hequal, htypes => by
      cases q with
      | arrayOf r bounds =>
        simp only [Value.patternsEqual, Bool.and_eq_true, beq_iff_eq] at hequal
        obtain ⟨hinner, rfl⟩ := hequal
        funext v captures
        rw [bindWith, bindWith, bindWith_congr lengths inner hkeyed hinner htypes]
      | _ => cases hequal
  | .named _ inner, hkeyed, q, hequal, htypes => by
      cases q with
      | named label r =>
        simp only [Value.patternsEqual, Bool.and_eq_true, beq_iff_eq] at hequal
        obtain ⟨rfl, hinner⟩ := hequal
        funext v captures
        rw [bindWith, bindWith, bindWith_congr lengths inner hkeyed hinner htypes]
      | _ => cases hequal
termination_by structural p => p

theorem matchersWith_congr (lengths : LengthPolicy) : (ps : List (Pattern Value)) →
    Value.allPatternsWellKeyed ps = true → ∀ {qs}, Value.allPatternsEqual ps qs = true →
      allSameTypes ps qs = true → matchersWith lengths ps = matchersWith lengths qs
  | [], _, qs, hequal, _ => by
      cases qs with
      | nil => rfl
      | cons => cases hequal
  | p :: ps, hkeyed, qs, hequal, htypes => by
      cases qs with
      | nil => cases hequal
      | cons q qs =>
        simp only [Value.allPatternsWellKeyed, Value.allPatternsEqual, allSameTypes,
          Bool.and_eq_true] at hkeyed hequal htypes
        rw [matchersWith, matchersWith, repetition?_congr p hequal.1,
          bindWith_congr lengths p hkeyed.1 hequal.1 htypes.1,
          matchersWith_congr lengths ps hkeyed.2 hequal.2 htypes.2]
termination_by structural ps => ps

end

end Pattern

namespace Construct

mutual

/-- The pattern that a value stands for has no equal keys that the value does not have. -/
theorem patternWellKeyed_ofValue : (v : Value) → v.isWellKeyed = true →
    Value.patternWellKeyed (ofValue v) = true
  | .pattern _, h | .dict _, h => h
  | .seq _ items, h => allPatternsWellKeyed_ofValues items h
  | .marker .wildcard, _ | .marker (.primitive _), _ => rfl
  | .null, _ | .bool _, _ | .int _, _ | .float _, _ | .str _, _ | .bytes _, _
  | .object _, _ => rfl
termination_by structural v => v

theorem allPatternsWellKeyed_ofValues : (vs : List Value) → Value.allWellKeyed vs = true →
    Value.allPatternsWellKeyed (ofValues vs) = true
  | [], _ => rfl
  | v :: rest, h => by
      rw [Value.allWellKeyed, Bool.and_eq_true] at h
      rw [ofValues, Value.allPatternsWellKeyed, patternWellKeyed_ofValue v h.1,
        allPatternsWellKeyed_ofValues rest h.2]
      rfl
termination_by structural vs => vs

end

end Construct

namespace Pattern

/-- Values that stand for equal patterns, with literals of the same types, are matched alike:
same outcome, same number of steps, same trace. -/
theorem matchAgainst_eq_of_equal (a b : Value) (hkeyed : a.isWellKeyed = true)
    (hequal : (Construct.ofValue a == Construct.ofValue b) = true)
    (htypes : (Construct.ofValue a).sameTypes (Construct.ofValue b) = true)
    (v : Value) (limits : Limits) (tracer : Option Tracer) :
    (Construct.ofValue a).matchAgainst v limits tracer =
      (Construct.ofValue b).matchAgainst v limits tracer := by
  have hbind : (Construct.ofValue a).bind = (Construct.ofValue b).bind :=
    bindWith_congr Repetition.lengths _ (Construct.patternWellKeyed_ofValue a hkeyed) hequal htypes
  rw [matchAgainst, matchAgainst, hbind]

/-- A nested pattern with a mapping for a literal, and an equal one: the entries stand in another
order, the key is equal but of another type, and the items are in a tuple. -/
theorem matchAgainst_eq_of_equal_mapping :
    let a := Value.list [.pattern (.named "x" (.alternation
      [.literal (.dict [(.int 1, .null), (.str "k", .float (.finite false 0))]),
        .repeated (.typeCheck .number) .lazy none])), .str "end"]
    let b := Value.tuple [.pattern (.named "x" (.alternation
      [.literal (.dict [(.str "k", .float (.finite true 0)), (.bool true, .null)]),
        .repeated (.typeCheck .number) .lazy none])), .str "end"]
    a.isWellKeyed = true ∧ (Construct.ofValue a == Construct.ofValue b) = true ∧
      (Construct.ofValue a).sameTypes (Construct.ofValue b) = true ∧
        ∀ v limits tracer, (Construct.ofValue a).matchAgainst v limits tracer =
          (Construct.ofValue b).matchAgainst v limits tracer :=
  ⟨by decide +kernel, by decide +kernel, by decide +kernel,
    matchAgainst_eq_of_equal _ _ (by decide +kernel) (by decide +kernel) (by decide +kernel)⟩

/-- One and truth stand for equal patterns, and one matches only the first. -/
theorem matchAgainst_one_true :
    let p := Construct.ofValue (.int 1)
    let q := Construct.ofValue (.bool true)
    (p == q) = true ∧
      (p.matchAgainst (.int 1) .standard none).outcome = .matched [] ∧
      (q.matchAgainst (.int 1) .standard none).outcome = .noMatch :=
  ⟨by decide +kernel, rfl, rfl⟩

end Pattern

end Motif
