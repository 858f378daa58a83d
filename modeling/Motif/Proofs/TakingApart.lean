import Motif.Document.Codec
import Motif.Proofs.Building
import Motif.Proofs.Schema
import Motif.Value.Hash

/-!
Taking documents apart. A value is checked once, as a whole, and what passes is taken apart
without another look: keys are asked for that should be there, and lists are gone through that
should be lists. Each of these steps can fail in a way of its own when the value is not what
it should be. After a check that agrees with the schema none of them does, at any depth, and
what comes out is what the reading of the value describes. What still fails are bounds that
the schema admits and no pattern has.
-/

namespace Motif

/-- How taking a value apart can fail. -/
inductive Fault where
  | usage (error : UsageError)
  /-- An object does not have a key that is asked for. -/
  | missingKey (key : String)
  /-- A directive cannot be looked for, because it is no key. -/
  | unhashable (error : Value.Unhashable)
  /-- Parts are asked for where nothing can be listed. -/
  | notIterable (given : Value)
  | unknownForm (given : Value)

/-- A value of an object, taken apart in both of the ways in which a form may ask for it: as one
document, and as a list of documents. -/
structure Slot where
  value : Value
  pattern : Except Fault (Pattern Value)
  patterns : Except Fault (List (Pattern Value))

namespace Document

def slot? (name : String) (slots : List (Value × Slot)) : Option Slot :=
  (slots.find? fun entry => Value.looselyEqual (.str name) entry.1).map (·.2)

def slotAt (name : String) (slots : List (Value × Slot)) : Except Fault Slot :=
  match slot? name slots with
  | some slot => .ok slot
  | none => .error (.missingKey name)

/-- What is inside, if anything is said about it. -/
def innerOf (slots : List (Value × Slot)) : Except Fault (Pattern Value) :=
  match slot? "of" slots with
  | some slot => slot.pattern
  | none => .ok .wildcard

/-- An end of bounds, or null where it is left out. -/
def boundAt (name : String) (slots : List (Value × Slot)) : Value :=
  match slot? name slots with
  | some slot => slot.value
  | none => .null

/-- The pattern of a form. -/
def takeForm (directive : Directive) (slots : List (Value × Slot)) :
    Except Fault (Pattern Value) :=
  match directive with
  | .any => .ok .wildcard
  | .check kind => .ok (.typeCheck kind)
  | .exact => do return .literal (← slotAt "value" slots).value
  | .choice => do return .alternation (← (← slotAt "of" slots).patterns)
  | .sequence => do return .sequence (← (← slotAt "of" slots).patterns)
  | .repeated mode => do
    let inner ← innerOf slots
    (Construct.repetition inner (.str mode.name) (boundAt "min" slots)
      (boundAt "max" slots)).mapError .usage
  | .arrayOf => do
    let inner ← innerOf slots
    (Construct.array inner (boundAt "min" slots) (boundAt "max" slots)).mapError .usage
  | .named => do
    let inner ← innerOf slots
    let label ← slotAt "label" slots
    (Construct.labelled label.value inner).mapError .usage

/-- The pattern of an object, by its directive. -/
def takeObject (slots : List (Value × Slot)) : Except Fault (Pattern Value) := do
  let form ← slotAt "$" slots
  match form.value.unhashable? with
  | some typeName => .error (.unhashable ⟨typeName⟩)
  | none =>
    match form.value with
    | .str name =>
      match Directive.ofName? name with
      | some directive => takeForm directive slots
      | none => .error (.unknownForm form.value)
    | _ => .error (.unknownForm form.value)

mutual

/-- The pattern of a value that should be a document. -/
def takeApart : Value → Except Fault (Pattern Value)
  | .seq .list items => do return .sequence (← takeAllApart items)
  | .dict entries => takeObject (slotsOf entries)
  | .seq .tuple items => .ok (.literal (.seq .tuple items))
  | .null => .ok (.literal .null)
  | .bool b => .ok (.literal (.bool b))
  | .int n => .ok (.literal (.int n))
  | .float x => .ok (.literal (.float x))
  | .str s => .ok (.literal (.str s))
  | .bytes bs => .ok (.literal (.bytes bs))
  | .object name => .ok (.literal (.object name))
  | .pattern p => .ok (.literal (.pattern p))
  | .marker m => .ok (.literal (.marker m))
termination_by structural v => v

def takeAllApart : List Value → Except Fault (List (Pattern Value))
  | [] => .ok []
  | v :: rest => do
    let p ← takeApart v
    let ps ← takeAllApart rest
    return p :: ps
termination_by structural vs => vs

/-- The patterns of what a value lists. -/
def takeListed : Value → Except Fault (List (Pattern Value))
  | .seq _ items => takeAllApart items
  | .dict entries => takeKeysApart entries
  | .str s => .ok (s.toList.map fun c => .literal (.str (String.singleton c)))
  | .bytes bs => .ok (bs.map fun b => .literal (.int b.toNat))
  | .null => .error (.notIterable .null)
  | .bool b => .error (.notIterable (.bool b))
  | .int n => .error (.notIterable (.int n))
  | .float x => .error (.notIterable (.float x))
  | .object name => .error (.notIterable (.object name))
  | .pattern p => .error (.notIterable (.pattern p))
  | .marker m => .error (.notIterable (.marker m))
termination_by structural v => v

def takeKeysApart : List (Value × Value) → Except Fault (List (Pattern Value))
  | [] => .ok []
  | (key, _) :: rest => do
    let p ← takeApart key
    let ps ← takeKeysApart rest
    return p :: ps
termination_by structural entries => entries

def slotsOf : List (Value × Value) → List (Value × Slot)
  | [] => []
  | (key, v) :: rest => (key, ⟨v, takeApart v, takeListed v⟩) :: slotsOf rest
termination_by structural entries => entries

end

/-- Decode a value that is checked first. -/
def decodeChecked (valid : Value → Bool) (v : Value) : Except Fault (Pattern Value) :=
  if valid v then takeApart v else .error (.usage .document)

section

variable {entries : List (Value × Value)}

theorem slot?_slotsOf (name : String) (entries : List (Value × Value)) :
    slot? name (slotsOf entries) =
      (Value.lookUp? (.str name) entries).map fun v => ⟨v, takeApart v, takeListed v⟩ := by
  induction entries with
  | nil => rfl
  | cons entry rest ih =>
    obtain ⟨key, v⟩ := entry
    have hrest : slot? name (slotsOf rest) = _ := ih
    unfold slot? Value.lookUp? at hrest ⊢
    rw [slotsOf, List.find?_cons, List.find?_cons]
    cases hkey : Value.looselyEqual (.str name) key with
    | true => rfl
    | false => exact hrest

/-- An object with a directive is taken apart by it. -/
theorem takeObject_slotsOf {directive : Directive}
    (hdirective : Value.lookUp? (.str "$") entries = some (.str directive.name)) :
    takeObject (slotsOf entries) = takeForm directive (slotsOf entries) := by
  have hform : slotAt "$" (slotsOf entries) =
      .ok ⟨.str directive.name, takeApart (.str directive.name),
        takeListed (.str directive.name)⟩ := by
    rw [slotAt, slot?_slotsOf, hdirective, Option.map_some]
  have hhashable : Value.unhashable? (.str directive.name) = none := rfl
  simp only [takeObject, hform, bind, Except.bind, hhashable, Directive.ofName?_name]

theorem innerOf_slotsOf {inner : Document} (h : inner? (fieldsOf entries) = some inner)
    (hinside : ∀ v d, Value.lookUp? (.str "of") entries = some v → ofValue v = some d →
      takeApart v = d.toPattern.mapError .usage) :
    innerOf (slotsOf entries) = inner.toPattern.mapError .usage := by
  rw [inner?_fieldsOf] at h
  rw [innerOf, slot?_slotsOf]
  cases hof : Value.lookUp? (.str "of") entries with
  | none =>
    rw [hof] at h
    cases h
    rfl
  | some v =>
    rw [hof] at h
    exact hinside v inner hof h

/-- Parts that were read are listed and taken apart one by one. -/
theorem patternsOf_slotsOf {parts : List Document} (h : parts? (fieldsOf entries) = some parts)
    (hlist : ∀ vs ds, Value.lookUp? (.str "of") entries = some (.seq .list vs) →
      ofValues vs = some ds → takeAllApart vs = (toPatterns ds).mapError .usage)
    (build : List (Pattern Value) → Pattern Value) :
    (do return build (← (← slotAt "of" (slotsOf entries)).patterns)) =
      Except.mapError Fault.usage (do return build (← toPatterns parts)) := by
  obtain ⟨items, hof, hitems⟩ := lookUp?_of_parts? h
  have hslot : slotAt "of" (slotsOf entries) =
      .ok ⟨.seq .list items, takeApart (.seq .list items), takeAllApart items⟩ := by
    rw [slotAt, slot?_slotsOf, hof, Option.map_some]
    rfl
  have hpatterns := hlist items parts hof hitems
  rw [hslot]
  change (takeAllApart items >>= fun patterns => .ok (build patterns)) = _
  rw [hpatterns]
  exact mapError_bind Fault.usage (toPatterns parts) fun patterns => .ok (build patterns)

theorem boundAt_slotsOf {bounds : Option (Value × Value)}
    (h : bounds? (fieldsOf entries) = some bounds) :
    boundAt "min" (slotsOf entries) = (bounds.getD (.null, .null)).1 ∧
      boundAt "max" (slotsOf entries) = (bounds.getD (.null, .null)).2 := by
  obtain ⟨hmin, hmax⟩ := lookUp?_of_bounds? h
  simp only [boundAt, slot?_slotsOf, hmin, hmax]
  cases bounds <;> exact ⟨rfl, rfl⟩

/-- What a form finds among its slots comes to what its directive has read, if what is inside
does. -/
theorem takeForm_slotsOf {directive : Directive} {document : Document}
    (hread : ofDirective directive (fieldsOf entries) = some document)
    (hinside : ∀ v d, Value.lookUp? (.str "of") entries = some v → ofValue v = some d →
      takeApart v = d.toPattern.mapError .usage)
    (hlist : ∀ vs ds, Value.lookUp? (.str "of") entries = some (.seq .list vs) →
      ofValues vs = some ds → takeAllApart vs = (toPatterns ds).mapError .usage) :
    takeForm directive (slotsOf entries) = document.toPattern.mapError .usage := by
  cases directive with
  | any | check kind =>
    cases hread
    rfl
  | exact =>
    obtain ⟨field, hfield, rfl⟩ := Option.map_eq_some_iff.mp hread
    rw [field?_fieldsOf] at hfield
    obtain ⟨v, hv, rfl⟩ := Option.map_eq_some_iff.mp hfield
    simp only [takeForm, slotAt, slot?_slotsOf, hv, Option.map_some]
    rfl
  | choice =>
    obtain ⟨parts, hparts, rfl⟩ := Option.map_eq_some_iff.mp hread
    exact patternsOf_slotsOf hparts hlist .alternation
  | sequence =>
    obtain ⟨parts, hparts, rfl⟩ := Option.map_eq_some_iff.mp hread
    exact patternsOf_slotsOf hparts hlist .sequence
  | repeated mode | arrayOf =>
    obtain ⟨inner, hinner, hread⟩ := Option.bind_eq_some_iff.mp hread
    obtain ⟨bounds, hbounds, hread⟩ := Option.bind_eq_some_iff.mp hread
    cases hread
    obtain ⟨hmin, hmax⟩ := boundAt_slotsOf hbounds
    simp only [takeForm, toPattern, innerOf_slotsOf hinner hinside, hmin, hmax, mapError_bind]
  | named =>
    obtain ⟨label, inner, hlabel, hinner, rfl⟩ := lookUp?_of_named hread
    have hslot : slotAt "label" (slotsOf entries) =
        .ok ⟨.str label, takeApart (.str label), takeListed (.str label)⟩ := by
      rw [slotAt, slot?_slotsOf, hlabel, Option.map_some]
    simp only [takeForm, toPattern, innerOf_slotsOf hinner hinside, hslot]
    exact mapError_bind Fault.usage inner.toPattern (Construct.labelled (.str label))

end

/-- What a list is taken apart to tells what its items are taken apart to. -/
theorem takeAllApart_of_takeApart {vs : List Value} {ds : List Document}
    (h : takeApart (.seq .list vs) = (array ds).toPattern.mapError .usage) :
    takeAllApart vs = (toPatterns ds).mapError .usage := by
  rw [takeApart, toPattern] at h
  cases htaken : takeAllApart vs <;> cases hread : toPatterns ds <;> rw [htaken, hread] at h <;>
    cases h <;> rfl

mutual

/-- A value that can be read is taken apart to what the reading describes. -/
theorem takeApart_of_ofValue (v : Value) {d : Document} (h : ofValue v = some d) :
    takeApart v = d.toPattern.mapError .usage := by
  cases v with
  | seq form items =>
    cases form with
    | list =>
      obtain ⟨ds, hds, rfl⟩ := Option.map_eq_some_iff.mp h
      have hitems := takeAllApart_of_ofValues items hds
      rw [takeApart, hitems, toPattern]
      exact mapError_bind Fault.usage (toPatterns ds) fun ps => .ok (Pattern.sequence ps)
    | tuple => cases h
  | dict entries =>
    obtain ⟨directive, hdirective, -, hread⟩ := lookUp?_of_ofFields h
    have hentries := takeEntries_of_ofValue entries
    rw [takeApart, takeObject_slotsOf hdirective]
    apply takeForm_slotsOf hread
    · intro v d hof hd
      obtain ⟨key, hmem⟩ := Value.mem_of_lookUp? hof
      exact hentries _ hmem d hd
    · intro vs ds hof hds
      obtain ⟨key, hmem⟩ := Value.mem_of_lookUp? hof
      have hlist : ofValue (.seq .list vs) = some (.array ds) := by
        rw [ofValue, hds, Option.map_some]
      exact takeAllApart_of_takeApart (hentries _ hmem _ hlist)
  | null | bool b | int n | float x | str s =>
    cases h
    rfl
  | bytes bs | object name | pattern p | marker m => cases h
termination_by structural v

theorem takeAllApart_of_ofValues (vs : List Value) {ds : List Document}
    (h : ofValues vs = some ds) : takeAllApart vs = (toPatterns ds).mapError .usage := by
  cases vs with
  | nil =>
    cases h
    rfl
  | cons v rest =>
    obtain ⟨d, hd, h⟩ := Option.bind_eq_some_iff.mp h
    obtain ⟨later, hlater, h⟩ := Option.bind_eq_some_iff.mp h
    cases h
    have hfirst := takeApart_of_ofValue v hd
    have hrest := takeAllApart_of_ofValues rest hlater
    rw [takeAllApart, hfirst, hrest, toPatterns]
    cases d.toPattern with
    | error e => rfl
    | ok p => cases toPatterns later <;> rfl
termination_by structural vs

theorem takeEntries_of_ofValue (entries : List (Value × Value)) :
    ∀ entry ∈ entries, ∀ d, ofValue entry.2 = some d →
      takeApart entry.2 = d.toPattern.mapError .usage := by
  cases entries with
  | nil => simp
  | cons entry rest =>
    obtain ⟨key, v⟩ := entry
    have hrest := takeEntries_of_ofValue rest
    exact List.forall_mem_cons.mpr ⟨fun d hd => takeApart_of_ofValue v hd, hrest⟩
termination_by structural entries

end

/-- After a check that agrees with the schema, a value is taken apart without a fault, or its
bounds are a usage error. -/
theorem decodeChecked_eq {valid : Value → Bool} (hvalid : Schema.Reads valid) (v : Value) :
    decodeChecked valid v = (Pattern.decode v).mapError .usage := by
  rw [decodeChecked, hvalid.eq_isSome v, Pattern.decode]
  cases hread : ofValue v with
  | none => rfl
  | some d => exact takeApart_of_ofValue v hread

end Document

end Motif
