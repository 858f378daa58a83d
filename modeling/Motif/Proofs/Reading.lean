import Motif.Document.Reading

/-!
Documents are read back as they were written. A document is readable when everything
that it holds as a scalar is one, and the ends of its bounds are whole numbers that are
not negative. Writing a readable document down and reading the value gives the same
document again, whichever of its fields were left out.
-/

namespace Motif

/-- Whether a value can stand in a document as it is. -/
def Value.isScalar : Value → Bool
  | .null | .bool _ | .int _ | .float _ | .str _ => true
  | .bytes _ | .seq .. | .dict _ | .object _ | .pattern _ | .marker _ => false

theorem Directive.ofName?_name (directive : Directive) :
    ofName? directive.name = some directive := by
  rcases directive with _ | (_ | _ | _) | _ | _ | _ | (_ | _) | _ | _ <;> rfl

namespace Document

/-- Whether both ends of bounds can be read as such. -/
def areBounds : Option (Value × Value) → Bool
  | none => true
  | some (min, max) => isBound min && isBound max

mutual

def isReadable : Document → Bool
  | .scalar value => value.isScalar
  | .any | .check _ | .exact _ => true
  | .array parts | .choice parts | .sequence parts => areReadable parts
  | .repeated _ inner bounds | .arrayOf inner bounds => isReadable inner && areBounds bounds
  | .named _ inner => isReadable inner
termination_by structural d => d

def areReadable : List Document → Bool
  | [] => true
  | d :: rest => isReadable d && areReadable rest
termination_by structural ds => ds

end

/-- A field as it is read back. -/
def Field.written (entry : String × Value) : Field := ⟨.str entry.1, entry.2, ofValue entry.2⟩

theorem fieldsOf_record (entries : Entries String Value) :
    fieldsOf (entries.map fun entry => (.str entry.1, entry.2)) = entries.map Field.written := by
  induction entries with
  | nil => rfl
  | cons entry rest ih => rw [List.map_cons, fieldsOf, ih, List.map_cons, Field.written]

section

variable {name : String} {before after : Entries String Value}

theorem field?_written_self (value : Value) (rest : List Field) :
    field? name (Field.written (name, value) :: rest) = some (Field.written (name, value)) :=
  if_pos rfl

/-- Fields under other names do not matter. -/
theorem field?_written_append (rest : List Field) (hbefore : ∀ entry ∈ before, entry.1 ≠ name) :
    field? name (before.map Field.written ++ rest) = field? name rest := by
  induction before with
  | nil => rfl
  | cons entry later ih =>
    obtain ⟨hentry, hlater⟩ := List.forall_mem_cons.mp hbefore
    have hskip : field? name ((entry :: later).map Field.written ++ rest) =
        field? name (later.map Field.written ++ rest) := if_neg hentry
    rw [hskip]
    exact ih hlater

theorem field?_written_of_ne (hbefore : ∀ entry ∈ before, entry.1 ≠ name) :
    field? name (before.map Field.written) = none := by
  have hnone := field?_written_append [] hbefore
  rwa [List.append_nil] at hnone

/-- What is inside is read back, whether it is written or, being anything, left out. -/
theorem inner?_written {inner : Document} (before after : Entries String Value)
    (hinner : ofValue inner.toValue = some inner) (hbefore : ∀ entry ∈ before, entry.1 ≠ "of")
    (hafter : ∀ entry ∈ after, entry.1 ≠ "of") :
    inner? ((before ++ innerFields inner inner.toValue ++ after).map Field.written) =
      some inner := by
  have hfound : field? "of" ((before ++ innerFields inner inner.toValue ++ after).map
      Field.written) =
      field? "of" ((innerFields inner inner.toValue ++ after).map Field.written) := by
    rw [List.append_assoc, List.map_append, field?_written_append _ hbefore]
  rw [inner?, hfound]
  cases inner with
  | any =>
    have hnone := field?_written_of_ne hafter
    simp only [innerFields, List.nil_append, hnone]
  | _ =>
    simp only [innerFields, List.singleton_append, List.map_cons, field?_written_self]
    exact hinner

/-- Bounds are read back, whether there are any or not. -/
theorem bounds?_written {bounds : Option (Value × Value)} (before : Entries String Value)
    (hbounds : areBounds bounds = true) (hmin : ∀ entry ∈ before, entry.1 ≠ "min")
    (hmax : ∀ entry ∈ before, entry.1 ≠ "max") :
    bounds? ((before ++ boundFields bounds).map Field.written) = some bounds := by
  unfold bounds?
  rw [List.map_append, field?_written_append _ hmin, field?_written_append _ hmax]
  cases bounds with
  | none => rfl
  | some ends => exact if_pos hbounds

end

theorem ofFields_of_directive {directive : Directive} {fields : List Field}
    (hdirective : field? "$" fields = some (Field.written ("$", .str directive.name)))
    (hall : fields.all (belongs directive) = true) :
    ofFields fields = ofDirective directive fields := by
  simp only [ofFields, hdirective, Field.written, Directive.ofName?_name, Option.bind_eq_bind,
    Option.bind_some, hall, if_true]

/-- An object with a directive is read by that directive, if it has no keys but those that belong
there. -/
theorem ofValue_form (directive : Directive) {fields : Entries String Value}
    (hkeys : ∀ entry ∈ fields, entry.1 ∈ directive.keys) :
    ofValue (form directive fields) =
      ofDirective directive ((("$", .str directive.name) :: fields).map Field.written) := by
  have hread : ofValue (form directive fields) =
      ofFields ((("$", .str directive.name) :: fields).map Field.written) := by
    rw [← fieldsOf_record]
    rfl
  rw [hread]
  apply ofFields_of_directive
  · exact field?_written_self _ _
  · rw [List.all_map, List.all_eq_true]
    intro entry hentry
    -- The directive belongs to every object, the other fields to this one.
    rcases List.mem_cons.mp hentry with rfl | hentry
    · rfl
    · have hkey : directive.keys.contains entry.1 = true :=
        List.contains_iff_mem.mpr (hkeys entry hentry)
      simp only [Function.comp, belongs, Field.written, hkey, Bool.or_true]

theorem mem_innerFields {inner : Document} {written : Value} {entry : String × Value}
    (h : entry ∈ innerFields inner written) : entry.1 = "of" := by
  cases inner with
  | any => cases h
  | _ =>
    cases List.mem_singleton.mp h
    rfl

theorem mem_boundFields {bounds : Option (Value × Value)} {entry : String × Value}
    (h : entry ∈ boundFields bounds) : entry.1 = "min" ∨ entry.1 = "max" := by
  cases bounds with
  | none => cases h
  | some ends =>
    rcases List.mem_cons.mp h with rfl | h
    · exact Or.inl rfl
    · cases List.mem_singleton.mp h
      exact Or.inr rfl

/-- What a directive with parts finds among its fields. -/
theorem ofValue_parts (directive : Directive) (hkeys : directive.keys = ["of"])
    {parts : List Document} (hparts : ofValues (toValues parts) = some parts) :
    ∃ fields, ofValue (form directive [("of", .list (toValues parts))]) =
        ofDirective directive fields ∧
      parts? fields = some parts := by
  refine ⟨_, ofValue_form directive (by simp [hkeys]), ?_⟩
  have hlist : ofValue (.list (toValues parts)) = some (.array parts) := by
    rw [Value.list, ofValue, hparts, Option.map_some]
  have hfound : field? "of" ([("$", .str directive.name), ("of", .list (toValues parts))].map
      Field.written) = some (Field.written ("of", .list (toValues parts))) := rfl
  simp only [parts?, hfound, Field.written, hlist]

/-- What a directive with something inside and bounds finds among its fields. -/
theorem ofValue_bounded (directive : Directive) (hkeys : directive.keys = ["of", "min", "max"])
    {inner : Document} (hinner : ofValue inner.toValue = some inner)
    {bounds : Option (Value × Value)} (hbounds : areBounds bounds = true) :
    ∃ fields, ofValue (form directive (innerFields inner inner.toValue ++ boundFields bounds)) =
        ofDirective directive fields ∧
      inner? fields = some inner ∧ bounds? fields = some bounds := by
  refine ⟨_, ofValue_form directive fun entry hentry => ?_, ?_, ?_⟩
  · rw [hkeys]
    rcases List.mem_append.mp hentry with hinside | hbound
    · simp [mem_innerFields hinside]
    · rcases mem_boundFields hbound with hmin | hmax
      · simp [hmin]
      · simp [hmax]
  · refine inner?_written [("$", .str directive.name)] _ hinner (by simp) fun entry hentry => ?_
    rcases mem_boundFields hentry with hmin | hmax
    · simp [hmin]
    · simp [hmax]
  · refine bounds?_written (("$", .str directive.name) :: innerFields inner _) hbounds
      (fun entry hentry => ?_) fun entry hentry => ?_
    · rcases List.mem_cons.mp hentry with rfl | hinside
      · simp
      · simp [mem_innerFields hinside]
    · rcases List.mem_cons.mp hentry with rfl | hinside
      · simp
      · simp [mem_innerFields hinside]

/-- What a directive with a label finds among its fields. -/
theorem ofValue_named (label : String) {inner : Document}
    (hinner : ofValue inner.toValue = some inner) :
    ofValue (form .named (("label", .str label) :: innerFields inner inner.toValue)) =
      some (.named label inner) := by
  have hinside := inner?_written [("$", .str Directive.named.name), ("label", .str label)] [] hinner
    (by simp) (by simp)
  rw [List.append_nil] at hinside
  rw [ofValue_form]
  · have hlabel : field? "label" ((("$", .str Directive.named.name) :: ("label", .str label) ::
        innerFields inner inner.toValue).map Field.written) =
        some (Field.written ("label", .str label)) := rfl
    simp only [ofDirective, hlabel]
    exact congrArg (Option.map (named label)) hinside
  · intro entry hentry
    rcases List.mem_cons.mp hentry with rfl | hinside
    · simp [Directive.keys]
    · simp [Directive.keys, mem_innerFields hinside]

mutual

/-- A readable document that is written down is read back as it was. -/
theorem ofValue_toValue (d : Document) (h : d.isReadable = true) : ofValue d.toValue = some d := by
  cases d with
  | scalar value =>
    cases value with
    | null | bool b | int n | float x | str s => rfl
    | _ => cases h
  | array items =>
    have hitems := ofValues_toValues items h
    rw [toValue, Value.list, ofValue, hitems, Option.map_some]
  | any => rfl
  | check kind => cases kind <;> rfl
  | exact value => exact ofValue_form .exact (by simp [Directive.keys])
  | choice parts =>
    obtain ⟨fields, hread, hparts⟩ := ofValue_parts .choice rfl (ofValues_toValues parts h)
    rw [toValue, hread, ofDirective, hparts, Option.map_some]
  | sequence parts =>
    obtain ⟨fields, hread, hparts⟩ := ofValue_parts .sequence rfl (ofValues_toValues parts h)
    rw [toValue, hread, ofDirective, hparts, Option.map_some]
  | repeated mode inner bounds =>
    obtain ⟨hinner, hbounds⟩ := Bool.and_eq_true_iff.mp h
    obtain ⟨fields, hread, hinside, hends⟩ :=
      ofValue_bounded (.repeated mode) rfl (ofValue_toValue inner hinner) hbounds
    rw [toValue, hread, ofDirective, hinside, hends]
    rfl
  | arrayOf inner bounds =>
    obtain ⟨hinner, hbounds⟩ := Bool.and_eq_true_iff.mp h
    obtain ⟨fields, hread, hinside, hends⟩ :=
      ofValue_bounded .arrayOf rfl (ofValue_toValue inner hinner) hbounds
    rw [toValue, hread, ofDirective, hinside, hends]
    rfl
  | named label inner =>
    rw [toValue]
    exact ofValue_named label (ofValue_toValue inner h)
termination_by structural d

theorem ofValues_toValues (ds : List Document) (h : areReadable ds = true) :
    ofValues (toValues ds) = some ds := by
  cases ds with
  | nil => rfl
  | cons d rest =>
    obtain ⟨hd, hrest⟩ := Bool.and_eq_true_iff.mp h
    have hfirst := ofValue_toValue d hd
    have hlater := ofValues_toValues rest hrest
    rw [toValues, ofValues, hfirst, hlater]
    rfl
termination_by structural ds

end

end Document

end Motif
