import Motif.Proofs.Fields

/-!
The format of pattern documents as a schema. A schema is put together from keywords, and what
each of them asks of a value is said by keyword: many ask something of one type of value only
and let all others pass. A schema may refer to the schema of the whole document, so what that
one admits is a parameter here. Nothing else is assumed about the check of a document than
that it agrees with the schema at every value. This settles what the check admits: just the
values that can be read as documents.
-/

namespace Motif

@[simp] theorem toNat_beq_one (b : Bool) : (b.toNat == 1) = b := by
  cases b <;> rfl

/-- The types that a schema tells apart. A whole number is also a number. -/
inductive Schema.TypeName where
  | null
  | boolean
  | integer
  | number
  | string
  | array
  | object
  deriving DecidableEq, Repr

/-- Whether a value has a type. Truth values are no numbers, tuples are no arrays, and a
floating-point number with an integral value is a whole number. -/
@[simp] def Schema.TypeName.admits : TypeName → Value → Bool
  | .null, .null => true
  | .boolean, .bool _ => true
  | .integer, .int _ => true
  | .integer, .float x => x.isIntegral
  | .number, .int _ | .number, .float _ => true
  | .string, .str _ => true
  | .array, .seq .list _ => true
  | .object, .dict _ => true
  | _, _ => false

inductive Schema where
  | types (names : List Schema.TypeName)
  /-- A number is not less than the least one. -/
  | minimum (least : Int)
  /-- The value is one of some texts. -/
  | words (texts : List String)
  | required (keys : List String)
  | property (key : String) (schema : Schema)
  /-- An object has no other keys. -/
  | closed (keys : List String)
  /-- An object with one key has another one as well. -/
  | needs (key other : String)
  | items (schema : Schema)
  | all (parts : List Schema)
  /-- Exactly one of the options admits the value. -/
  | oneOf (options : List Schema)
  /-- The schema of the whole document. -/
  | root

namespace Schema

/-- The value under a key, if the value is an object with that key. -/
@[simp] def at? (key : String) : Value → Option Value
  | .dict entries => Value.lookUp? (.str key) entries
  | _ => none

mutual

/-- Whether a schema admits a value, when it is known what the schema of the document admits. -/
@[simp] def admits (whole : Value → Bool) : Schema → Value → Bool
  | .types names, v => names.any (·.admits v)
  | .minimum least, v =>
    match v.kind, v.place? with
    | .number, some place => !place.before (.ofInt least)
    | _, _ => true
  | .words texts, v =>
    match v with
    | .str text => texts.contains text
    | _ => false
  | .required keys, v =>
    match v with
    | .dict _ => keys.all fun key => (at? key v).isSome
    | _ => true
  | .property key schema, v =>
    match at? key v with
    | some w => admits whole schema w
    | none => true
  | .closed keys, v =>
    match v with
    | .dict entries => Value.keysWithin keys entries
    | _ => true
  | .needs key other, v => (at? key v).isNone || (at? other v).isSome
  | .items schema, v =>
    match v with
    | .seq .list members => members.all (admits whole schema)
    | _ => true
  | .all parts, v => allAdmit whole parts v
  | .oneOf options, v => admitting whole options v == 1
  | .root, v => whole v
termination_by structural schema => schema

@[simp] def allAdmit (whole : Value → Bool) : List Schema → Value → Bool
  | [], _ => true
  | schema :: rest, v => admits whole schema v && allAdmit whole rest v
termination_by structural schemas => schemas

/-- How many schemas admit a value. -/
@[simp] def admitting (whole : Value → Bool) : List Schema → Value → Nat
  | [], _ => 0
  | schema :: rest, v => (admits whole schema v).toNat + admitting whole rest v
termination_by structural schemas => schemas

end

/-- An end of bounds. -/
def bound : Schema := .all [.types [.integer], .minimum 0]

/-- A form of object: its directive is one of some words, its parts ask something of it, and it has
no keys but the directive and its own. -/
def formWith (directives : List String) (parts : List Schema) (keys : List String) : Schema :=
  .all (.property "$" (.words directives) :: (parts ++ [.closed ("$" :: keys)]))

def valueParts : List Schema := [.property "value" (.all []), .required ["value"]]

def listParts : List Schema :=
  [.property "of" (.all [.types [.array], .items .root]), .required ["of"]]

def boundParts : List Schema :=
  [.property "min" bound, .property "max" bound, .needs "min" "max", .needs "max" "min"]

def labelParts : List Schema :=
  [.property "label" (.types [.string]), .property "of" .root, .required ["label"]]

def simpleForm : Schema := formWith ["any", "number", "string", "boolean"] [] []

def exactForm : Schema := formWith ["is"] valueParts ["value"]

def partsForm : Schema := formWith ["or", "seq"] listParts ["of"]

def repeatedForm : Schema :=
  formWith ["greedy", "lazy", "array"] (.property "of" .root :: boundParts) ["of", "min", "max"]

def namedForm : Schema := formWith ["name"] labelParts ["label", "of"]

/-- An object with a directive, in one of the forms. -/
def form : Schema :=
  .all [.types [.object], .required ["$"],
    .oneOf [simpleForm, exactForm, partsForm, repeatedForm, namedForm]]

/-- The schema of pattern documents. -/
def document : Schema :=
  .oneOf [.types [.null, .boolean, .number, .string],
    .all [.types [.array], .items .root], form]

/-- A check of documents that agrees with the schema at every value. -/
def Reads (valid : Value → Bool) : Prop := ∀ v, valid v = document.admits valid v

theorem before_ofInt (a b : Int) : (Place.ofInt a).before (.ofInt b) = decide (a < b) := by
  have hscaled : a * (Place.stepsPerUnit : Int) < b * Place.stepsPerUnit ↔ a < b :=
    Int.mul_lt_mul_right (Int.natCast_pos.mpr Place.stepsPerUnit_pos)
  exact decide_eq_decide.mpr hscaled

/-- The ends of bounds are what the schema says they are. -/
theorem admits_bound (whole : Value → Bool) (v : Value) :
    bound.admits whole v = Document.isBound v := by
  cases v with
  | int n =>
    have hsign : (!(Place.ofInt n).before (.ofInt 0)) = decide (0 ≤ n) := by
      rw [before_ofInt, ← decide_not]
      exact decide_eq_decide.mpr Int.not_lt
    simp [bound, Value.kind, Value.place?, hsign, Document.isBound]
  | float x =>
    cases x with
    | finite negative steps =>
      cases negative <;>
        simp [bound, Value.kind, Value.place?, Document.isBound, Binary64.place?]
    | _ => simp [bound, Document.isBound, Binary64.isIntegral]
  | _ => simp [bound, Document.isBound]

end Schema

namespace Schema

open Document

variable {valid : Value → Bool} {entries : List (Value × Value)}

theorem admits_all (parts : List Schema) (v : Value) :
    (Schema.all parts).admits valid v = allAdmit valid parts v := rfl

theorem allAdmit_append (parts later : List Schema) (v : Value) :
    allAdmit valid (parts ++ later) v = (allAdmit valid parts v && allAdmit valid later v) := by
  induction parts with
  | nil => rfl
  | cons part rest ih => rw [List.cons_append, allAdmit, allAdmit, ih, Bool.and_assoc]

/-- What a form asks of an object whose directive is a text. -/
theorem admits_formWith {name : String}
    (hname : Value.lookUp? (.str "$") entries = some (.str name)) (directives : List String)
    (parts : List Schema) (keys : List String) :
    (formWith directives parts keys).admits valid (.dict entries) =
      (directives.contains name &&
        (allAdmit valid parts (.dict entries) && Value.keysWithin ("$" :: keys) entries)) := by
  have hat : at? "$" (.dict entries) = some (.str name) := hname
  rw [formWith, admits_all, allAdmit, allAdmit_append]
  simp only [allAdmit, admits, hat, Bool.and_true]

/-- What the form of a directive asks for. -/
def partsOf : Directive → List Schema
  | .any | .check _ => []
  | .exact => valueParts
  | .choice | .sequence => listParts
  | .repeated _ | .arrayOf => .property "of" .root :: boundParts
  | .named => labelParts

/-- The directive leaves no choice between the forms. -/
theorem admits_form_of_directive {directive : Directive}
    (hdirective : Value.lookUp? (.str "$") entries = some (.str directive.name)) :
    form.admits valid (.dict entries) =
      (allAdmit valid (partsOf directive) (.dict entries) &&
        Value.keysWithin ("$" :: directive.keys) entries) := by
  have hform : form.admits valid (.dict entries) =
      (admitting valid [simpleForm, exactForm, partsForm, repeatedForm, namedForm]
        (.dict entries) == 1) := by
    simp [form, hdirective]
  rw [hform]
  simp only [admitting, simpleForm, exactForm, partsForm, repeatedForm, namedForm,
    admits_formWith hdirective]
  -- Each directive is a word of one form, and the words of the others leave it out.
  rcases directive with _ | (_ | _ | _) | _ | _ | _ | (_ | _) | _ | _ <;>
    simp [Directive.name, Primitive.name, Mode.name, partsOf, Directive.keys]

/-- Without a directive that is known, no form admits an object. -/
theorem admits_form_of_unknown
    (hunknown : ∀ directive : Directive,
      Value.lookUp? (.str "$") entries ≠ some (.str directive.name)) :
    form.admits valid (.dict entries) = false := by
  cases hfound : Value.lookUp? (.str "$") entries with
  | none => simp [form, hfound]
  | some v =>
    cases v with
    | str name =>
      have hnames : ∀ word ∈ Directive.all.map Directive.name, name ≠ word := by
        rintro _ hword rfl
        obtain ⟨directive, -, hname⟩ := List.mem_map.mp hword
        exact hunknown directive (by rw [hname]; exact hfound)
      simp [Directive.all, Directive.name, Primitive.name, Mode.name] at hnames
      simp [form, simpleForm, exactForm, partsForm, repeatedForm, namedForm, formWith, hfound,
        hnames]
    | _ =>
      simp [form, simpleForm, exactForm, partsForm, repeatedForm, namedForm, formWith, hfound]

/-- What is inside may be left out, and has to be a document otherwise. -/
theorem admits_inner (hparts : ∀ key v, Value.lookUp? (.str key) entries = some v →
      valid v = (ofValue v).isSome) :
    (property "of" root).admits valid (.dict entries) = (inner? (fieldsOf entries)).isSome := by
  simp only [admits, at?, inner?_fieldsOf]
  cases hof : Value.lookUp? (.str "of") entries with
  | none => rfl
  | some v => exact hparts "of" v hof

/-- Bounds have both ends or none. -/
theorem admits_bounds :
    allAdmit valid boundParts (.dict entries) = (bounds? (fieldsOf entries)).isSome := by
  simp only [boundParts, allAdmit, admits, at?, bounds?_fieldsOf, admits_bound]
  cases hmin : Value.lookUp? (.str "min") entries with
  | none =>
    cases hmax : Value.lookUp? (.str "max") entries with
    | none => rfl
    | some high => simp
  | some low =>
    cases hmax : Value.lookUp? (.str "max") entries with
    | none => simp
    | some high =>
      cases hends : isBound low && isBound high with
      | true => simp [hends]
      | false => simp [hends]

/-- Parts have to be there, as a list of documents. -/
theorem admits_parts
    (hlist : ∀ items, Value.lookUp? (.str "of") entries = some (.seq .list items) →
      items.all valid = (ofValues items).isSome) :
    allAdmit valid listParts (.dict entries) = (parts? (fieldsOf entries)).isSome := by
  rw [parts?_fieldsOf, listParts]
  cases hof : Value.lookUp? (.str "of") entries with
  | none => simp [hof]
  | some v =>
    cases v with
    | seq form items =>
      cases form with
      | list => simp [hof, hlist items hof]
      | tuple => simp [hof]
    | _ => simp [hof]

/-- What the form of a directive asks for is what the directive reads. -/
theorem admits_partsOf (directive : Directive)
    (hparts : ∀ key v, Value.lookUp? (.str key) entries = some v → valid v = (ofValue v).isSome)
    (hlist : ∀ items, Value.lookUp? (.str "of") entries = some (.seq .list items) →
      items.all valid = (ofValues items).isSome) :
    allAdmit valid (partsOf directive) (.dict entries) =
      (Document.ofDirective directive (fieldsOf entries)).isSome := by
  have hinner := admits_inner hparts
  cases directive with
  | any | check kind => rfl
  | exact =>
    simp only [partsOf, valueParts, allAdmit, admits, at?, Document.ofDirective, field?_fieldsOf]
    cases hvalue : Value.lookUp? (.str "value") entries <;> simp [hvalue]
  | choice | sequence =>
    rw [partsOf, admits_parts hlist, Document.ofDirective, Option.isSome_map]
  | repeated mode | arrayOf =>
    rw [partsOf, allAdmit, hinner, admits_bounds]
    simp only [Document.ofDirective]
    cases inner? (fieldsOf entries) <;> cases bounds? (fieldsOf entries) <;> rfl
  | named =>
    simp only [partsOf, labelParts, allAdmit, hinner, Document.ofDirective, field?_fieldsOf]
    simp only [admits, at?]
    cases hlabel : Value.lookUp? (.str "label") entries with
    | none => simp [hlabel]
    | some v =>
      cases v with
      | str label => simp [hlabel]
      | _ => simp

/-- Some form admits an object when it can be read, if the values under its keys are admitted when
they can be read. -/
theorem admits_form
    (hparts : ∀ key v, Value.lookUp? (.str key) entries = some v → valid v = (ofValue v).isSome)
    (hlist : ∀ items, Value.lookUp? (.str "of") entries = some (.seq .list items) →
      items.all valid = (ofValues items).isSome) :
    form.admits valid (.dict entries) = (ofFields (fieldsOf entries)).isSome := by
  by_cases hknown : ∃ directive : Directive,
      Value.lookUp? (.str "$") entries = some (.str directive.name)
  · obtain ⟨directive, hdirective⟩ := hknown
    rw [admits_form_of_directive hdirective, admits_partsOf directive hparts hlist,
      ofFields_fieldsOf hdirective]
    cases Value.keysWithin ("$" :: directive.keys) entries <;> simp
  · have hunknown : ∀ directive : Directive,
        Value.lookUp? (.str "$") entries ≠ some (.str directive.name) :=
      fun directive h => hknown ⟨directive, h⟩
    rw [admits_form_of_unknown hunknown]
    cases hread : ofFields (fieldsOf entries) with
    | none => rfl
    | some document =>
      obtain ⟨directive, hdirective, -⟩ := lookUp?_of_ofFields hread
      exact absurd hdirective (hunknown directive)

theorem admits_document_list (items : List Value) :
    document.admits valid (.seq .list items) = items.all valid := by
  simp [document, form]

theorem admits_document_dict (entries : List (Value × Value)) :
    document.admits valid (.dict entries) = form.admits valid (.dict entries) := by
  simp [document]

mutual

/-- A check that agrees with the schema passes what can be read as a document, and nothing else. -/
theorem Reads.eq_isSome (hvalid : Reads valid) (v : Value) :
    valid v = (ofValue v).isSome := by
  cases v with
  | seq shape items =>
    cases shape with
    | list =>
      have hitems := hvalid.all_eq_isSome items
      rw [hvalid, admits_document_list, hitems, ofValue, Option.isSome_map]
    | tuple => exact hvalid _
  | dict entries =>
    have hentries := hvalid.entries_eq_isSome entries
    rw [hvalid, admits_document_dict, ofValue]
    apply admits_form
    · intro key v hfound
      obtain ⟨name, hmem⟩ := Value.mem_of_lookUp? hfound
      exact hentries _ hmem
    · intro items hfound
      obtain ⟨name, hmem⟩ := Value.mem_of_lookUp? hfound
      have hlist := hentries _ hmem
      rw [hvalid, admits_document_list, ofValue, Option.isSome_map] at hlist
      exact hlist
  | _ => exact hvalid _
termination_by structural v

theorem Reads.all_eq_isSome (hvalid : Reads valid) (vs : List Value) :
    vs.all valid = (ofValues vs).isSome := by
  cases vs with
  | nil => rfl
  | cons v rest =>
    have hfirst := hvalid.eq_isSome v
    have hrest := hvalid.all_eq_isSome rest
    rw [List.all_cons, hfirst, hrest, ofValues]
    cases ofValue v <;> cases ofValues rest <;> rfl
termination_by structural vs

theorem Reads.entries_eq_isSome (hvalid : Reads valid) (entries : List (Value × Value)) :
    ∀ entry ∈ entries, valid entry.2 = (ofValue entry.2).isSome := by
  cases entries with
  | nil => simp
  | cons entry rest =>
    obtain ⟨key, v⟩ := entry
    have hfirst := hvalid.eq_isSome v
    have hrest := hvalid.entries_eq_isSome rest
    exact List.forall_mem_cons.mpr ⟨hfirst, hrest⟩
termination_by structural entries

end

theorem isSome_ofValues (vs : List Value) :
    vs.all (fun v => (ofValue v).isSome) = (ofValues vs).isSome := by
  induction vs with
  | nil => rfl
  | cons v rest ih =>
    rw [List.all_cons, ih, ofValues]
    cases ofValue v <;> cases ofValues rest <;> rfl

/-- To read a value is a check that agrees with the schema. -/
theorem reads_isSome : Reads fun v => (ofValue v).isSome := by
  intro v
  cases v with
  | seq shape items =>
    cases shape with
    | list =>
      rw [admits_document_list, isSome_ofValues]
      simp only [ofValue, Option.isSome_map]
    | tuple => rfl
  | dict entries =>
    rw [admits_document_dict]
    exact (admits_form (fun _ _ _ => rfl) fun items _ => isSome_ofValues items).symm
  | _ => rfl

end Schema

end Motif
