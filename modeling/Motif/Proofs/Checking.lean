import Motif.Construct.Constructor
import Motif.Proofs.Collecting
import Motif.Proofs.Equality
import Motif.Proofs.Grammar
import Motif.Proofs.Provenance
import Motif.Value.Order

/-!
What is checked when a pattern is made. The parts that it is given are values of any kind, and the
checks are tests on them, one after the other: whether a value is null, whether it is of the
integers' type, to which the truth values belong as well, and whether it comes before another. Such
a comparison fails on values that have no order. The order of the tests keeps that from happening,
and what goes through them is what a pattern can hold.
-/

namespace Motif

namespace Value

def isNull : Value → Bool
  | .null => true
  | _ => false

/-- Whether a value is of the integers' type. Truth values are. -/
def isInteger : Value → Bool
  | .int _ | .bool _ => true
  | _ => false

def isTruth : Value → Bool
  | .bool _ => true
  | _ => false

theorem isNull_eq_false {v : Value} (h : v ≠ .null) : v.isNull = false := by
  cases v with
  | null => exact absurd rfl h
  | _ => rfl

theorem before_int (m n : Int) : (int m).before (.int n) = .ok (decide (m < n)) := by
  have hplaces : (Place.ofInt m).before (.ofInt n) = decide (m < n) := by
    have hpos : (0 : Int) < Place.stepsPerUnit := Int.natCast_pos.mpr Place.stepsPerUnit_pos
    exact decide_eq_decide.mpr (Int.mul_lt_mul_right hpos)
  exact congrArg _ hplaces

end Value

/-- Why a pattern is not made: there is a mistake in its parts, or a check cannot compare them. -/
inductive Refusal where
  | usage (message : String)
  | incomparable (error : Incomparable)
  deriving DecidableEq, Repr

/-- What is refused when a part cannot be made. -/
def Refusal.of {α : Type} : Except UsageError α → Except Refusal Unit
  | .ok _ => .ok ()
  | .error error => .error (.usage error.message)

namespace Construct

/-- Whether the first value comes before the second, if they can be compared. -/
def compare (a b : Value) : Except Refusal Bool := (a.before b).mapError .incomparable

theorem compare_int (m n : Int) : compare (.int m) (.int n) = .ok (decide (m < n)) := by
  rw [compare, Value.before_int]
  rfl

def checkEnd (which : BoundEnd) (given : Value) : Except Refusal Unit := do
  let mistake := Refusal.usage (UsageError.bound which given).message
  if !given.isInteger then throw mistake
  if given.isTruth then throw mistake
  if ← compare given (.int 0) then throw mistake

def checkOrder (min max : Value) : Except Refusal Unit := do
  if ← compare max min then
    throw (.usage ("repetition min must not exceed max, got min=" ++ min.text ++
      " max=" ++ max.text))

def checkBounds (min max : Value) : Except Refusal Unit := do
  if min.isNull != max.isNull then
    throw (.usage (UsageError.unpairedBounds min max).message)
  if min.isNull then return
  checkEnd .min min
  checkEnd .max max
  checkOrder min max

def checkLabel (label : Value) : Except Refusal Unit := do
  if !label.isText then throw (.usage (UsageError.label label).message)

/-- An end is compared with zero only when it is an integer, so comparing does not fail. -/
theorem checkEnd_eq (which : BoundEnd) (given : Value) :
    checkEnd which given = Refusal.of (boundEnd which given) := by
  cases given with
  | int n =>
    have hsteps : checkEnd which (.int n) = (do
        if ← compare (.int n) (.int 0) then
          throw (.usage (UsageError.bound which (.int n)).message)) := rfl
    rw [hsteps, compare_int]
    cases n with
    | ofNat n =>
      have hnot : decide (Int.ofNat n < 0) = false :=
        decide_eq_false (Int.not_lt.mpr (Int.natCast_nonneg n))
      rw [hnot]
      rfl
    | negSucc n =>
      have hneg : decide (Int.negSucc n < 0) = true := decide_eq_true (Int.negSucc_lt_zero n)
      rw [hneg]
      rfl
  | _ => rfl

theorem checkOrder_eq (low high : Nat) :
    checkOrder (.int low) (.int high) =
      Refusal.of (if ordered : low ≤ high then .ok (some (Bounds.mk low high ordered))
        else .error (.reversedBounds low high)) := by
  have hsteps : checkOrder (.int low) (.int high) = (do
      if ← compare (.int high) (.int low) then
        throw (.usage (UsageError.reversedBounds low high).message)) := rfl
  rw [hsteps, compare_int]
  by_cases hordered : low ≤ high
  · have hnot : decide ((high : Int) < low) = false := decide_eq_false (by omega)
    rw [dif_pos hordered, hnot]
    rfl
  · have hless : decide ((high : Int) < low) = true := decide_eq_true (by omega)
    rw [dif_neg hordered, hless]
    rfl

/-- Ends are compared with each other only when both are integers. -/
theorem checkBounds_eq (min max : Value) : checkBounds min max = Refusal.of (bounds min max) := by
  by_cases hmin : min = .null
  · subst hmin
    cases max <;> rfl
  by_cases hmax : max = .null
  · subst hmax
    cases min with
    | null => exact absurd rfl hmin
    | _ => rfl
  -- Neither is null from here on, and the two ways differ only in how an end is checked.
  have hsteps : checkBounds min max = (do
      checkEnd .min min
      checkEnd .max max
      checkOrder min max) := by
    unfold checkBounds
    rw [Value.isNull_eq_false hmin, Value.isNull_eq_false hmax]
    rfl
  have hbounds : bounds min max = (do
      let low ← boundEnd .min min
      let high ← boundEnd .max max
      if ordered : low ≤ high then return some ⟨low, high, ordered⟩
      else throw (.reversedBounds low high)) := by
    cases min with
    | null => exact absurd rfl hmin
    | _ =>
      cases max with
      | null => exact absurd rfl hmax
      | _ => rfl
  rw [hsteps, hbounds, checkEnd_eq, checkEnd_eq]
  cases hlow : boundEnd .min min with
  | error error => rfl
  | ok low =>
    -- An end that went through is a natural number, so that the order can be asked for.
    cases hhigh : boundEnd .max max with
    | error error => rfl
    | ok high =>
      rw [Document.boundEnd_eq_ok hlow, Document.boundEnd_eq_ok hhigh]
      exact (pure_bind () _).trans ((pure_bind () _).trans (checkOrder_eq low high))

theorem mode_name (mode : Mode) : Construct.mode (.str mode.name) = .ok mode := by
  cases mode <;> rfl

/-- Whether two values can be the bounds of a repetition: both are null, or both are integers, which
truth values are not, not negative and in order. -/
def fits : Value → Value → Bool
  | .null, .null => true
  | .int low, .int high => decide (0 ≤ low ∧ low ≤ high)
  | _, _ => false

/-- Bounds as values: two nulls if there are none. -/
def ends (b : Option Bounds) : Value × Value := (Document.ofBounds b).getD (.null, .null)

theorem ends_of_bounds {min max : Value} {b : Option Bounds} (h : bounds min max = .ok b) :
    min = (ends b).1 ∧ max = (ends b).2 := by
  unfold bounds at h
  split at h
  · cases h
    exact ⟨rfl, rfl⟩
  · cases h
  · cases h
  · obtain ⟨low, hlow, h⟩ := exists_of_bind_eq_ok h
    obtain ⟨high, hhigh, h⟩ := exists_of_bind_eq_ok h
    split at h
    · cases h
      exact ⟨Document.boundEnd_eq_ok hlow, Document.boundEnd_eq_ok hhigh⟩
    · cases h

theorem fits_ends (b : Option Bounds) : fits (ends b).1 (ends b).2 = true := by
  cases b with
  | none => rfl
  | some b => exact decide_eq_true ⟨Int.natCast_nonneg _, Int.ofNat_le.mpr b.min_le_max⟩

/-- Bounds are made just of what fits. -/
theorem fits_iff {min max : Value} : fits min max = true ↔ ∃ b, bounds min max = .ok b := by
  constructor
  · intro h
    unfold fits at h
    split at h
    · exact ⟨none, rfl⟩
    · next low high =>
      obtain ⟨hlow, hordered⟩ := of_decide_eq_true h
      obtain ⟨low, rfl⟩ := Int.eq_ofNat_of_zero_le hlow
      obtain ⟨high, rfl⟩ := Int.eq_ofNat_of_zero_le (Int.le_trans hlow hordered)
      have hordered := Int.ofNat_le.mp hordered
      exact ⟨some ⟨low, high, hordered⟩, bounds_ofBounds (some ⟨low, high, hordered⟩)⟩
    · cases h
  · rintro ⟨b, hb⟩
    obtain ⟨rfl, rfl⟩ := ends_of_bounds hb
    exact fits_ends b

theorem exists_error_of_fits {min max : Value} (h : fits min max = false) :
    ∃ error, bounds min max = .error error := by
  cases hbounds : bounds min max with
  | ok b =>
    rw [fits_iff.mpr ⟨b, hbounds⟩] at h
    cases h
  | error error => exact ⟨error, rfl⟩

end Construct

/-- A pattern as its constructor is told to make it. The parts that are checked are still values of
any kind, and what a sequence keeps of its elements is beside them. -/
inductive Draft where
  | repeated (inner : Pattern Value) (mode min max : Value)
  | arrayOf (inner : Pattern Value) (min max : Value)
  | named (label : Value) (inner : Pattern Value)
  | sequence (elements : List (Pattern Value)) (chunks : List (Chunk (Pattern Value)))
    (tails : List Nat)
  | unchecked (p : Pattern Value)

namespace Draft

/-- The sequence of some elements. Its chunks are found by going over them. -/
def ofElements (elements : List (Pattern Value)) : Draft :=
  let chunks := Chunk.collect Pattern.repetition? [] [] elements
  .sequence elements chunks (Chunk.accumulate chunks)

/-- What is checked when a pattern is made, in this order. -/
def check : Draft → Except Refusal Unit
  | .repeated _ mode min max => do
    Refusal.of (Construct.mode mode)
    Construct.checkBounds min max
  | .arrayOf _ min max => Construct.checkBounds min max
  | .named label _ => Construct.checkLabel label
  | .sequence .. | .unchecked _ => .ok ()

/-- What the matcher relies on: bounds that fit, a label that is text, and chunks and least numbers
of items that are those of the elements. -/
def WellFormed : Draft → Prop
  | .repeated _ _ min max | .arrayOf _ min max => Construct.fits min max = true
  | .named label _ => label.isText = true
  | .sequence elements chunks tails =>
    chunks = Pattern.chunks elements ∧ tails = Chunk.tailMinimums chunks
  | .unchecked _ => True

end Draft

/-- The draft of a pattern that is made. -/
def Pattern.draft : Pattern Value → Draft
  | .repeated inner mode b =>
    .repeated inner (.str mode.name) (Construct.ends b).1 (Construct.ends b).2
  | .arrayOf inner b => .arrayOf inner (Construct.ends b).1 (Construct.ends b).2
  | .named label inner => .named (.str label) inner
  | .sequence elements => .ofElements elements
  | p => .unchecked p

/-- A pattern that is made holds what the matcher relies on. -/
theorem Pattern.wellFormed_draft (p : Pattern Value) : p.draft.WellFormed := by
  cases p with
  | repeated inner mode b | arrayOf inner b => exact Construct.fits_ends b
  | named label inner => rfl
  | sequence elements => exact ⟨Chunk.collect_eq_cut _ _, Chunk.accumulate_eq_tailMinimums _⟩
  | _ => trivial

namespace Draft

/-- A draft becomes what is made of it: a pattern of this draft if the checks go through, or the
mistake that they find. -/
def Becomes (d : Draft) : Except UsageError (Pattern Value) → Prop
  | .ok p => p.draft = d ∧ d.check = .ok ()
  | .error error => d.check = .error (.usage error.message)

/-- A draft in which only the bounds can be wrong becomes what is made of the bounds. -/
theorem becomes_bounded {d : Draft} {min max : Value} (make : Option Bounds → Pattern Value)
    (hcheck : d.check = Construct.checkBounds min max)
    (hdraft : ∀ b, min = (Construct.ends b).1 → max = (Construct.ends b).2 → (make b).draft = d) :
    d.Becomes (Construct.bounds min max >>= fun b => pure (make b)) := by
  rw [Construct.checkBounds_eq] at hcheck
  cases hbounds : Construct.bounds min max with
  | error error =>
    rw [hbounds] at hcheck
    exact hcheck
  | ok b =>
    rw [hbounds] at hcheck
    obtain ⟨hmin, hmax⟩ := Construct.ends_of_bounds hbounds
    exact ⟨hdraft b hmin hmax, hcheck⟩

theorem becomes_array (inner : Pattern Value) (min max : Value) :
    (arrayOf inner min max).Becomes (Construct.array inner min max) := by
  refine becomes_bounded (.arrayOf inner) rfl fun b hmin hmax => ?_
  rw [hmin, hmax]
  rfl

theorem becomes_repetition (inner : Pattern Value) (mode : Mode) (min max : Value) :
    (repeated inner (.str mode.name) min max).Becomes
      (Construct.repetition inner (.str mode.name) min max) := by
  have hcheck : (repeated inner (.str mode.name) min max).check =
      Construct.checkBounds min max := by
    rw [check, Construct.mode_name]
    rfl
  rw [Construct.repetition, Construct.mode_name]
  refine becomes_bounded (.repeated inner mode) hcheck fun b hmin hmax => ?_
  rw [hmin, hmax]
  rfl

theorem becomes_labelled (label : Value) (inner : Pattern Value) :
    (named label inner).Becomes (Construct.labelled label inner) := by
  cases label with
  | str label => exact ⟨rfl, rfl⟩
  | _ => rfl

/-- A pattern that is made already goes through the checks again. -/
theorem becomes_draft (p : Pattern Value) : p.draft.Becomes (.ok p) := by
  refine ⟨rfl, ?_⟩
  cases p with
  | repeated inner mode b =>
    have hbecomes := becomes_repetition inner mode (Construct.ends b).1 (Construct.ends b).2
    rw [Construct.ends, Construct.repetition_ofBounds] at hbecomes
    exact hbecomes.2
  | arrayOf inner b =>
    have hbecomes := becomes_array inner (Construct.ends b).1 (Construct.ends b).2
    rw [Construct.ends, Construct.array_ofBounds] at hbecomes
    exact hbecomes.2
  | _ => rfl

end Draft

namespace Document

/-- What a document tells to make, with the bounds as they are written down. -/
def draft : Document → Except UsageError Draft
  | .scalar value | .exact value => .ok (.unchecked (.literal value))
  | .any => .ok (.unchecked .wildcard)
  | .check kind => .ok (.unchecked (.typeCheck kind))
  | .choice options => do return .unchecked (.alternation (← toPatterns options))
  | .array items | .sequence items => do return .ofElements (← toPatterns items)
  | .repeated mode inner bounds => do
    let (min, max) := bounds.getD (.null, .null)
    return .repeated (← toPattern inner) (.str mode.name) min max
  | .arrayOf inner bounds => do
    let (min, max) := bounds.getD (.null, .null)
    return .arrayOf (← toPattern inner) min max
  | .named label inner => do return .named (.str label) (← toPattern inner)

/-- What is made of a document is the pattern of its draft, which goes through the checks. -/
theorem draft_of_toPattern {d : Document} {p : Pattern Value} (h : d.toPattern = .ok p) :
    d.draft = .ok p.draft ∧ p.draft.check = .ok () := by
  refine ⟨?_, (Draft.becomes_draft p).2⟩
  cases d with
  | scalar value | exact value | any | check kind =>
    cases h
    rfl
  | choice parts | array parts | sequence parts =>
    obtain ⟨ps, hps, h⟩ := exists_of_bind_eq_ok h
    cases h
    rw [draft, hps]
    rfl
  | repeated mode inner bounds =>
    obtain ⟨q, hq, h⟩ := exists_of_bind_eq_ok h
    rcases hends : bounds.getD (.null, .null) with ⟨min, max⟩
    rw [hends] at h
    have hbecomes := Draft.becomes_repetition q mode min max
    dsimp only at h
    rw [h] at hbecomes
    rw [draft, hends, hq, hbecomes.1]
    rfl
  | arrayOf inner bounds =>
    obtain ⟨q, hq, h⟩ := exists_of_bind_eq_ok h
    rcases hends : bounds.getD (.null, .null) with ⟨min, max⟩
    rw [hends] at h
    have hbecomes := Draft.becomes_array q min max
    dsimp only at h
    rw [h] at hbecomes
    rw [draft, hends, hq, hbecomes.1]
    rfl
  | named label inner =>
    obtain ⟨q, hq, h⟩ := exists_of_bind_eq_ok h
    cases h
    rw [draft, hq]
    rfl

end Document

/-- The constructors of patterns from values. -/
inductive Builder where
  | greedy
  | lazy
  | arrayOf
  | named
  | sequence
  | alternation
  | literal
  | compile
  deriving DecidableEq, Repr

namespace Builder

def constructor : Builder → Constructor
  | .greedy => Constructor.greedy
  | .lazy => Constructor.lazy
  | .arrayOf => Constructor.arrayOf
  | .named => Constructor.named
  | .sequence => Constructor.ofList "sequence" Construct.sequence
  | .alternation => Constructor.ofList "alternation" Construct.alternation
  | .literal => Constructor.literal
  | .compile => Constructor.ofValue

def names : Builder → List String
  | .greedy => ["greedy", "repeat_greedy"]
  | .lazy => ["lazy", "repeat_lazy"]
  | .arrayOf => ["array_of", "repeat"]
  | .named => ["named"]
  | .sequence => ["sequence"]
  | .alternation => ["alternation", "either"]
  | .literal => ["literal", "is_"]
  | .compile => ["compile_pattern", "match"]

theorem ofName?_names (b : Builder) (tag : Nat) :
    ∀ name ∈ b.names, Constructor.ofName? tag name = some b.constructor := by
  cases b with
  | greedy | lazy | arrayOf | alternation | literal | compile =>
    exact List.forall_mem_cons.mpr ⟨rfl, List.forall_mem_singleton.mpr rfl⟩
  | named | sequence => exact List.forall_mem_singleton.mpr rfl

def signature : Builder → Signature
  | .greedy => ⟨"greedy", Constructor.repeatedParameters, false, false⟩
  | .lazy => ⟨"lazy", Constructor.repeatedParameters, false, false⟩
  | .arrayOf => ⟨"array_of", Constructor.repeatedParameters, false, false⟩
  | .named => ⟨"named", [.required "label", .optional "inner" (.marker .wildcard)], false, false⟩
  | .sequence => ⟨"sequence", [], true, false⟩
  | .alternation => ⟨"alternation", [], true, false⟩
  | .literal => ⟨"literal", [.required "value"], false, false⟩
  | .compile => ⟨"compile_pattern", [.required "raw"], false, false⟩

/-- What a constructor is told to make. -/
def draft (b : Builder) (a : Application) : Draft :=
  let value := b.signature.valueAt a
  match b with
  | .greedy =>
    .repeated (Construct.ofValue (value 0)) (.str Mode.greedy.name) (value 1) (value 2)
  | .lazy => .repeated (Construct.ofValue (value 0)) (.str Mode.lazy.name) (value 1) (value 2)
  | .arrayOf => .arrayOf (Construct.ofValue (value 0)) (value 1) (value 2)
  | .named => .named (value 0) (Construct.ofValue (value 1))
  | .sequence => .ofElements (Construct.ofValues a.positional)
  | .alternation => .unchecked (.alternation (Construct.ofValues a.positional))
  | .literal => .unchecked (.literal (value 0))
  | .compile => (Construct.ofValue (value 0)).draft

/-- What a constructor makes of arguments that it takes. -/
def build (b : Builder) (a : Application) : Except UsageError (Pattern Value) :=
  let value := b.signature.valueAt a
  match b with
  | .greedy => Construct.greedy (value 0) (value 1) (value 2)
  | .lazy => Construct.lazy (value 0) (value 1) (value 2)
  | .arrayOf => Construct.arrayOf (value 0) (value 1) (value 2)
  | .named => Construct.named (value 0) (value 1)
  | .sequence => .ok (Construct.sequence a.positional)
  | .alternation => .ok (Construct.alternation a.positional)
  | .literal => .ok (.literal (value 0))
  | .compile => .ok (Construct.ofValue (value 0))

theorem constructor_eq {b : Builder} {a : Application} (h : b.signature.check a = .ok ()) :
    b.constructor a = Constructor.usage (b.build a) := by
  have hchecked : b.constructor a =
      Constructor.checked b.signature (fun _ => Constructor.usage (b.build a)) a := by
    cases b <;> rfl
  rw [hchecked, Constructor.checked, h]

theorem becomes_build (b : Builder) (a : Application) : (b.draft a).Becomes (b.build a) := by
  cases b with
  | greedy => exact Draft.becomes_repetition _ .greedy _ _
  | lazy => exact Draft.becomes_repetition _ .lazy _ _
  | arrayOf => exact Draft.becomes_array _ _ _
  | named => exact Draft.becomes_labelled _ _
  | sequence | alternation | literal => exact ⟨rfl, rfl⟩
  | compile => exact Draft.becomes_draft _

variable {b : Builder} {a : Application}

/-- What a constructor makes is the pattern of its draft, which goes through the checks. -/
theorem draft_of_constructor (htaken : b.signature.check a = .ok ()) {p : Pattern Value}
    (h : b.constructor a = .ok p) : p.draft = b.draft a ∧ (b.draft a).check = .ok () := by
  have hbecomes := becomes_build b a
  rw [constructor_eq htaken] at h
  cases hbuild : b.build a with
  | error error =>
    rw [hbuild] at h
    cases h
  | ok made =>
    rw [hbuild] at h hbecomes
    cases h
    exact hbecomes

/-- When a constructor finds a mistake, the checks of its draft end with the same message. -/
theorem check_of_constructor (htaken : b.signature.check a = .ok ()) {error : UsageError}
    (h : b.constructor a = .error (.usage error)) :
    (b.draft a).check = .error (.usage error.message) := by
  have hbecomes := becomes_build b a
  rw [constructor_eq htaken] at h
  cases hbuild : b.build a with
  | error found =>
    rw [hbuild] at h hbecomes
    cases h
    exact hbecomes
  | ok made =>
    rw [hbuild] at h
    cases h

end Builder

end Motif
