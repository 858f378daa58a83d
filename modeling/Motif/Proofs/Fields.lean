import Motif.Proofs.Equality
import Motif.Proofs.Reading

/-!
Objects as their directive reads them. The fields of an object are looked up by their names,
and a name is only equal to itself, so what is found under it is what the object holds there.
An object is read by the directive that it names, if it has no keys but those that belong to
the directive, and never as an array.
-/

namespace Motif

namespace Value

/-- Whether all keys of a mapping are among some texts. -/
def keysWithin (names : List String) (entries : List (Value × Value)) : Bool :=
  entries.all fun entry =>
    match entry.1 with
    | .str name => names.contains name
    | _ => false

theorem looselyEqual_str {name : String} {v : Value} :
    looselyEqual (.str name) v = true ↔ v = .str name := by
  cases v with
  | str text =>
    constructor
    · intro h
      rw [eq_of_beq h]
    · intro h
      cases h
      exact beq_self_eq_true name
  | _ => simp [looselyEqual, place?]

theorem eq_str_of_looselyEqual {name : String} {v : Value}
    (h : looselyEqual v (.str name) = true) : v = .str name := by
  cases v with
  | str text =>
    rw [eq_of_beq h]
  | float x =>
    cases x <;> simp [looselyEqual, place?] at h
  | _ => simp [looselyEqual, place?] at h

theorem mem_of_lookUp? {key v : Value} {entries : List (Value × Value)}
    (h : lookUp? key entries = some v) : ∃ found, (found, v) ∈ entries := by
  obtain ⟨found, hmem, -⟩ := lookUp?_eq_some h
  exact ⟨found, hmem⟩

/-- An entry of a record is found under its label. -/
theorem lookUp?_record (label : String) (entries : Entries String Value) :
    lookUp? (.str label) (entries.map fun entry => (.str entry.1, entry.2)) =
      entries.find? label := by
  induction entries with
  | nil => rfl
  | cons entry rest ih =>
    obtain ⟨key, value⟩ := entry
    by_cases hkey : key = label
    · subst hkey
      have hequal : looselyEqual (.str key) (.str key) = true := beq_self_eq_true key
      simp only [lookUp?, List.map_cons, List.find?_cons, hequal, Entries.find?,
        beq_self_eq_true, if_true, Option.map_some]
    · have hdiffers : looselyEqual (.str label) (.str key) = false :=
        beq_eq_false_iff_ne.mpr (Ne.symm hkey)
      simp only [List.map_cons, Entries.find?, beq_eq_false_iff_ne.mpr hkey, Bool.false_eq_true,
        if_false, ← ih]
      simp only [lookUp?, List.find?_cons, hdiffers]

section

variable {names : List String} {entries : List (Value × Value)}

theorem mem_of_keysWithin (h : keysWithin names entries = true) {entry : Value × Value}
    (hentry : entry ∈ entries) : ∃ name ∈ names, entry.1 = .str name := by
  have hkey := List.all_eq_true.mp h entry hentry
  split at hkey
  · next name hname => exact ⟨name, List.contains_iff_mem.mp hkey, hname⟩
  · cases hkey

/-- A key that finds something is among the texts as well. -/
theorem mem_of_lookUp?_of_keysWithin (h : keysWithin names entries = true) {key v : Value}
    (hfound : lookUp? key entries = some v) : ∃ name ∈ names, key = .str name := by
  obtain ⟨found, hmem, hequal⟩ := lookUp?_eq_some hfound
  obtain ⟨name, hname, rfl⟩ := mem_of_keysWithin h hmem
  exact ⟨name, hname, eq_str_of_looselyEqual hequal⟩

end

end Value

namespace Document

/-- A field is found where the entry is. -/
theorem field?_fieldsOf (name : String) (entries : List (Value × Value)) :
    field? name (fieldsOf entries) =
      (Value.lookUp? (.str name) entries).map fun v => ⟨.str name, v, ofValue v⟩ := by
  induction entries with
  | nil => rfl
  | cons entry rest ih =>
    obtain ⟨key, value⟩ := entry
    by_cases hkey : key = .str name
    · subst hkey
      have hequal : Value.looselyEqual (.str name) (.str name) = true :=
        Value.looselyEqual_str.mpr rfl
      simp [fieldsOf, field?, Value.lookUp?, hequal]
    · have hequal : Value.looselyEqual (.str name) key = false :=
        Bool.eq_false_iff.mpr fun h => hkey (Value.looselyEqual_str.mp h)
      have hskip : field? name (fieldsOf ((key, value) :: rest)) = field? name (fieldsOf rest) := by
        cases key with
        | str text =>
          have hne : text ≠ name := fun h => hkey (congrArg Value.str h)
          simp [fieldsOf, field?, hne]
        | _ => rfl
      rw [hskip, ih]
      simp [Value.lookUp?, hequal]

/-- The fields belong to a directive when there are no keys but its own. -/
theorem all_belongs (directive : Directive) (entries : List (Value × Value)) :
    (fieldsOf entries).all (belongs directive) =
      Value.keysWithin ("$" :: directive.keys) entries := by
  induction entries with
  | nil => rfl
  | cons entry rest ih =>
    obtain ⟨key, value⟩ := entry
    simp only [fieldsOf, List.all_cons, ih, Value.keysWithin]
    cases key with
    | str text => simp only [belongs, List.contains_cons]
    | _ => rfl

section

variable {entries : List (Value × Value)}

theorem ofFields_fieldsOf {directive : Directive}
    (hdirective : Value.lookUp? (.str "$") entries = some (.str directive.name)) :
    ofFields (fieldsOf entries) =
      if Value.keysWithin ("$" :: directive.keys) entries then
        ofDirective directive (fieldsOf entries)
      else none := by
  simp only [ofFields, field?_fieldsOf, hdirective, Option.map_some, Directive.ofName?_name,
    Option.bind_eq_bind, Option.bind_some, all_belongs]

/-- What can be read has a directive and no keys that do not belong to it, and the directive
reads it. -/
theorem lookUp?_of_ofFields {document : Document}
    (h : ofFields (fieldsOf entries) = some document) :
    ∃ directive : Directive, Value.lookUp? (.str "$") entries = some (.str directive.name) ∧
      Value.keysWithin ("$" :: directive.keys) entries = true ∧
      ofDirective directive (fieldsOf entries) = some document := by
  have hread := h
  simp only [ofFields, field?_fieldsOf] at h
  cases hfound : Value.lookUp? (.str "$") entries with
  | none =>
    rw [hfound] at h
    cases h
  | some v =>
    rw [hfound] at h
    cases v with
    | str name =>
      obtain ⟨directive, hdirective, -⟩ := Option.bind_eq_some_iff.mp h
      unfold Directive.ofName? at hdirective
      have hname : directive.name = name := by simpa using List.find?_some hdirective
      rw [← hname] at hfound
      rw [ofFields_fieldsOf hfound] at hread
      split at hread
      · next hkeys => exact ⟨directive, by rw [hname], hkeys, hread⟩
      · cases hread
    | _ => cases h

/-- No directive reads an array. -/
theorem ofDirective_ne_array (directive : Directive) (fields : List Field)
    (items : List Document) : ofDirective directive fields ≠ some (.array items) := by
  intro h
  cases directive with
  | any | check kind => cases h
  | exact | choice | sequence =>
    obtain ⟨part, -, hpart⟩ := Option.map_eq_some_iff.mp h
    cases hpart
  | repeated mode | arrayOf =>
    obtain ⟨inner, -, h⟩ := Option.bind_eq_some_iff.mp h
    obtain ⟨bounds, -, h⟩ := Option.bind_eq_some_iff.mp h
    cases h
  | named =>
    simp only [ofDirective] at h
    split at h
    · obtain ⟨part, -, hpart⟩ := Option.map_eq_some_iff.mp h
      cases hpart
    · cases h

/-- Parts are found under their key where there is a list of documents. -/
theorem parts?_fieldsOf (entries : List (Value × Value)) :
    parts? (fieldsOf entries) =
      match Value.lookUp? (.str "of") entries with
      | some (.seq .list items) => ofValues items
      | _ => none := by
  simp only [parts?, field?_fieldsOf]
  cases Value.lookUp? (.str "of") entries with
  | none => rfl
  | some v =>
    cases v with
    | seq form items =>
      cases form with
      | list =>
        simp only [Option.map_some, ofValue]
        cases ofValues items <;> rfl
      | tuple => rfl
    | dict others =>
      simp only [Option.map_some, ofValue]
      cases hothers : ofFields (fieldsOf others) with
      | none => rfl
      | some document =>
        obtain ⟨directive, -, -, hread⟩ := lookUp?_of_ofFields hothers
        cases document with
        | array items => exact absurd hread (ofDirective_ne_array _ _ _)
        | _ => rfl
    | _ => rfl

theorem lookUp?_of_parts? {parts : List Document} (h : parts? (fieldsOf entries) = some parts) :
    ∃ items, Value.lookUp? (.str "of") entries = some (.seq .list items) ∧
      ofValues items = some parts := by
  rw [parts?_fieldsOf] at h
  split at h
  · next items hof => exact ⟨items, hof, h⟩
  · cases h

/-- What is inside is anything if it is left out, and a document otherwise. -/
theorem inner?_fieldsOf (entries : List (Value × Value)) :
    inner? (fieldsOf entries) =
      match Value.lookUp? (.str "of") entries with
      | some v => ofValue v
      | none => some .any := by
  simp only [inner?, field?_fieldsOf]
  cases Value.lookUp? (.str "of") entries <;> rfl

/-- Bounds are found where both ends are, and where there is none. -/
theorem bounds?_fieldsOf (entries : List (Value × Value)) :
    bounds? (fieldsOf entries) =
      match Value.lookUp? (.str "min") entries, Value.lookUp? (.str "max") entries with
      | none, none => some none
      | some low, some high => if isBound low && isBound high then some (some (low, high)) else none
      | _, _ => none := by
  simp only [bounds?, field?_fieldsOf]
  cases Value.lookUp? (.str "min") entries <;> cases Value.lookUp? (.str "max") entries <;> rfl

theorem lookUp?_of_bounds? {bounds : Option (Value × Value)}
    (h : bounds? (fieldsOf entries) = some bounds) :
    Value.lookUp? (.str "min") entries = bounds.map (·.1) ∧
      Value.lookUp? (.str "max") entries = bounds.map (·.2) := by
  rw [bounds?_fieldsOf] at h
  split at h
  · next hmin hmax =>
    cases h
    exact ⟨hmin, hmax⟩
  · next hmin hmax =>
    split at h
    · cases h
      exact ⟨hmin, hmax⟩
    · cases h
  · cases h

theorem areBounds_of_bounds? {bounds : Option (Value × Value)}
    (h : bounds? (fieldsOf entries) = some bounds) : areBounds bounds = true := by
  rw [bounds?_fieldsOf] at h
  split at h
  · cases h
    rfl
  · split at h
    · next hends =>
      cases h
      exact hends
    · cases h
  · cases h

/-- A label is a text, with something inside. -/
theorem lookUp?_of_named {document : Document}
    (h : ofDirective .named (fieldsOf entries) = some document) :
    ∃ label inner, Value.lookUp? (.str "label") entries = some (.str label) ∧
      inner? (fieldsOf entries) = some inner ∧ document = .named label inner := by
  simp only [ofDirective, field?_fieldsOf] at h
  cases hlabel : Value.lookUp? (.str "label") entries with
  | none =>
    rw [hlabel] at h
    cases h
  | some v =>
    rw [hlabel] at h
    cases v with
    | str label =>
      obtain ⟨inner, hinner, rfl⟩ := Option.map_eq_some_iff.mp h
      exact ⟨label, inner, rfl, hinner, rfl⟩
    | _ => cases h

end

end Document

end Motif
