import Motif.Proofs.Spelling

/-!
The literals of patterns and of documents. A pattern that a document describes has the literals of
the document, and these stand in the value that holds the document. So whatever can be spelled
there, with or without floating-point numbers, can be spelled in the pattern, and then again in the
document that is written for the pattern.
-/

namespace Motif

namespace Document

mutual

/-- The values that a document gives as literals, from left to right. -/
def literals : Document → List Value
  | .scalar value | .exact value => [value]
  | .array parts | .choice parts | .sequence parts => allLiterals parts
  | .repeated _ inner _ | .arrayOf inner _ | .named _ inner => literals inner
  | .any | .check _ => []
termination_by structural d => d

def allLiterals : List Document → List Value
  | [] => []
  | d :: rest => literals d ++ allLiterals rest
termination_by structural ds => ds

end

/-! ### Documents that are read -/

theorem mem_allLiterals {ds : List Document} {w : Value} :
    w ∈ allLiterals ds ↔ ∃ d ∈ ds, w ∈ d.literals := by
  induction ds with
  | nil => simp [allLiterals]
  | cons d rest ih => simp [allLiterals, ih]

mutual

/-- A pattern that a document describes is of the eight kinds, and its literals are those of the
document. -/
theorem literals_toPattern (d : Document) {p : Pattern Value} (h : d.toPattern = .ok p) :
    p.isRegular = true ∧ p.literals = d.literals := by
  cases d with
  | scalar value | exact value | any | check kind =>
    cases h
    exact ⟨rfl, rfl⟩
  | array parts | choice parts | sequence parts =>
    obtain ⟨ps, hps, h⟩ := exists_of_bind_eq_ok h
    cases h
    exact allLiterals_toPatterns parts hps
  | repeated mode inner bounds =>
    obtain ⟨q, hq, h⟩ := exists_of_bind_eq_ok h
    obtain ⟨_, -, h⟩ := exists_of_bind_eq_ok h
    obtain ⟨_, -, h⟩ := exists_of_bind_eq_ok h
    cases h
    have hinner := literals_toPattern inner hq
    exact hinner
  | arrayOf inner bounds =>
    obtain ⟨q, hq, h⟩ := exists_of_bind_eq_ok h
    obtain ⟨_, -, h⟩ := exists_of_bind_eq_ok h
    cases h
    have hinner := literals_toPattern inner hq
    exact hinner
  | named label inner =>
    obtain ⟨q, hq, h⟩ := exists_of_bind_eq_ok h
    cases h
    have hinner := literals_toPattern inner hq
    exact hinner
termination_by structural d

theorem allLiterals_toPatterns (ds : List Document) {ps : List (Pattern Value)}
    (h : toPatterns ds = .ok ps) :
    Pattern.areRegular ps = true ∧ Pattern.allLiterals ps = allLiterals ds := by
  cases ds with
  | nil =>
    cases h
    exact ⟨rfl, rfl⟩
  | cons d rest =>
    obtain ⟨p, hp, h⟩ := exists_of_bind_eq_ok h
    obtain ⟨later, hlater, h⟩ := exists_of_bind_eq_ok h
    cases h
    obtain ⟨hregular, hliterals⟩ := literals_toPattern d hp
    obtain ⟨hothers, hrest⟩ := allLiterals_toPatterns rest hlater
    refine ⟨Bool.and_eq_true_iff.mpr ⟨hregular, hothers⟩, ?_⟩
    rw [Pattern.allLiterals, hliterals, hrest, allLiterals]
termination_by structural ds

end

theorem mem_of_field? {name : String} {fields : List Field} {field : Field}
    (h : field? name fields = some field) : field ∈ fields := by
  induction fields with
  | nil => cases h
  | cons first rest ih =>
    unfold field? at h
    split at h
    · split at h
      · cases h
        exact List.mem_cons_self
      · exact List.mem_cons_of_mem _ (ih h)
    · exact List.mem_cons_of_mem _ (ih h)

/-- A literal of an object stands under one of its keys, or is a literal of a document there. -/
def Given (fields : List Field) (w : Value) : Prop :=
  ∃ field ∈ fields, w = field.value ∨ ∃ d, field.document? = some d ∧ w ∈ d.literals

section

variable {fields : List Field} {w : Value}

theorem given_of_inner? {inner : Document} (h : inner? fields = some inner)
    (hw : w ∈ inner.literals) : Given fields w := by
  unfold inner? at h
  split at h
  · cases h
    cases hw
  · next field hfield => exact ⟨field, mem_of_field? hfield, Or.inr ⟨inner, h, hw⟩⟩

theorem given_of_parts? {parts : List Document} (h : parts? fields = some parts)
    (hw : w ∈ allLiterals parts) : Given fields w := by
  unfold parts? at h
  split at h
  · next items hfield =>
    cases h
    exact ⟨_, mem_of_field? hfield, Or.inr ⟨.array parts, rfl, hw⟩⟩
  · cases h

theorem given_of_ofDirective {directive : Directive} {d : Document}
    (h : ofDirective directive fields = some d) (hw : w ∈ d.literals) : Given fields w := by
  cases directive with
  | any | check kind =>
    cases h
    cases hw
  | exact =>
    obtain ⟨field, hfield, rfl⟩ := Option.map_eq_some_iff.mp h
    exact ⟨field, mem_of_field? hfield, Or.inl (List.mem_singleton.mp hw)⟩
  | choice | sequence =>
    obtain ⟨parts, hparts, rfl⟩ := Option.map_eq_some_iff.mp h
    exact given_of_parts? hparts hw
  | repeated mode =>
    obtain ⟨inner, hinner, h⟩ := Option.bind_eq_some_iff.mp h
    obtain ⟨_, -, h⟩ := Option.bind_eq_some_iff.mp h
    cases h
    exact given_of_inner? hinner hw
  | arrayOf =>
    obtain ⟨inner, hinner, h⟩ := Option.bind_eq_some_iff.mp h
    obtain ⟨_, -, h⟩ := Option.bind_eq_some_iff.mp h
    cases h
    exact given_of_inner? hinner hw
  | named =>
    simp only [ofDirective] at h
    split at h
    · obtain ⟨inner, hinner, rfl⟩ := Option.map_eq_some_iff.mp h
      exact given_of_inner? hinner hw
    · cases h

theorem given_of_ofFields {d : Document} (h : ofFields fields = some d) (hw : w ∈ d.literals) :
    Given fields w := by
  unfold ofFields at h
  split at h
  · obtain ⟨directive, -, h⟩ := Option.bind_eq_some_iff.mp h
    split at h
    · exact given_of_ofDirective h hw
    · cases h
  · cases h

end

theorem fieldsOf_eq_map (entries : List (Value × Value)) :
    fieldsOf entries = entries.map fun entry => ⟨entry.1, entry.2, ofValue entry.2⟩ := by
  induction entries with
  | nil => rfl
  | cons entry rest ih => rw [fieldsOf, ih, List.map_cons]

theorem exists_mem_of_ofValues {items : List Value} {ds : List Document}
    (h : ofValues items = some ds) {d : Document} (hd : d ∈ ds) :
    ∃ v ∈ items, ofValue v = some d := by
  induction items generalizing ds with
  | nil =>
    cases h
    cases hd
  | cons v rest ih =>
    obtain ⟨first, hfirst, h⟩ := Option.bind_eq_some_iff.mp h
    obtain ⟨later, hlater, h⟩ := Option.bind_eq_some_iff.mp h
    cases h
    rcases List.mem_cons.mp hd with rfl | hd
    · exact ⟨v, List.mem_cons_self, hfirst⟩
    · obtain ⟨other, hother, hread⟩ := ih hlater hd
      exact ⟨other, List.mem_cons_of_mem _ hother, hread⟩

/-- The literals of a document are spelled like the value that holds it. -/
theorem spelled_literals {floats : Bool} {v : Value} (h : v.Spelled floats) {d : Document}
    (hread : ofValue v = some d) : ∀ w ∈ d.literals, w.Spelled floats := by
  induction h generalizing d with
  | null =>
    cases hread
    exact List.forall_mem_singleton.mpr .null
  | bool b =>
    cases hread
    exact List.forall_mem_singleton.mpr (.bool b)
  | int n =>
    cases hread
    exact List.forall_mem_singleton.mpr (.int n)
  | float x hfloats =>
    cases hread
    exact List.forall_mem_singleton.mpr (.float x hfloats)
  | str s =>
    cases hread
    exact List.forall_mem_singleton.mpr (.str s)
  | list items _ ih =>
    intro w hw
    obtain ⟨ds, hds, rfl⟩ := Option.map_eq_some_iff.mp hread
    obtain ⟨part, hpart, hw⟩ := mem_allLiterals.mp hw
    obtain ⟨item, hitem, hread⟩ := exists_mem_of_ofValues hds hpart
    exact ih item hitem hread w hw
  | record entries _ hvalues ih =>
    intro w hw
    obtain ⟨field, hfield, hgiven⟩ := given_of_ofFields hread hw
    rw [fieldsOf_eq_map] at hfield
    simp only [List.mem_map] at hfield
    obtain ⟨_, ⟨entry, hentry, rfl⟩, rfl⟩ := hfield
    rcases hgiven with rfl | ⟨part, hpart, hw⟩
    · exact hvalues entry hentry
    · exact ih entry hentry hpart w hw

/-! ### Documents that are written -/

theorem keys_innerFields_sublist (inner : Document) (written : Value) :
    (innerFields inner written).keys.Sublist ["of"] := by
  cases inner <;> simp [innerFields, Entries.keys]

theorem keys_boundFields_sublist (bounds : Option (Value × Value)) :
    (boundFields bounds).keys.Sublist ["min", "max"] := by
  cases bounds <;> simp [boundFields, Entries.keys]

theorem spelled_innerFields {floats : Bool} {inner : Document} {written : Value}
    (h : written.Spelled floats) : ∀ entry ∈ innerFields inner written, entry.2.Spelled floats := by
  cases inner <;> simp [innerFields, h]

theorem spelled_boundFields (floats : Bool) (bounds : Option Bounds) :
    ∀ entry ∈ boundFields (ofBounds bounds), entry.2.Spelled floats := by
  cases bounds with
  | none => simp [ofBounds, boundFields]
  | some b => simp [ofBounds, boundFields, Value.Spelled.int]

theorem spelled_form {floats : Bool} (directive : Directive) (names : List String)
    {fields : Entries String Value} (hnames : ("$" :: names).Nodup)
    (hkeys : fields.keys.Sublist names) (hfields : ∀ entry ∈ fields, entry.2.Spelled floats) :
    (form directive fields).Spelled floats := by
  refine .record _ (hnames.sublist (hkeys.cons_cons "$")) ?_
  exact List.forall_mem_cons.mpr ⟨.str _, hfields⟩

theorem spelled_bounded {floats : Bool} (directive : Directive) (inner : Document)
    {written : Value} (h : written.Spelled floats) (bounds : Option Bounds) :
    (form directive (innerFields inner written ++ boundFields (ofBounds bounds))).Spelled
      floats := by
  refine spelled_form directive ["of", "min", "max"] (by decide) ?_ ?_
  · rw [Entries.keys, List.map_append]
    exact (keys_innerFields_sublist inner written).append (keys_boundFields_sublist _)
  · exact List.forall_mem_append.mpr ⟨spelled_innerFields h, spelled_boundFields floats bounds⟩

theorem spelled_ofLiteral {floats : Bool} {value : Value} (h : value.Spelled floats) :
    (ofLiteral value).toValue.Spelled floats := by
  unfold ofLiteral
  split
  · rw [h.asData]
    exact spelled_form .exact ["value"] (by decide) (List.Sublist.refl _)
      (List.forall_mem_singleton.mpr h)
  · rw [h.asData]
    exact spelled_form .exact ["value"] (by decide) (List.Sublist.refl _)
      (List.forall_mem_singleton.mpr h)
  · exact h

mutual

/-- The document that is written for a pattern is spelled like the literals of the pattern. -/
theorem spelled_ofPattern {floats : Bool} (p : Pattern Value)
    (hliterals : ∀ w ∈ p.literals, w.Spelled floats) {d : Document} (h : ofPattern p = .ok d) :
    d.toValue.Spelled floats := by
  cases p with
  | wildcard =>
    cases h
    exact spelled_form .any [] (by decide) List.Sublist.slnil (by simp)
  | typeCheck kind =>
    cases h
    exact spelled_form (.check kind) [] (by decide) List.Sublist.slnil (by simp)
  | literal value =>
    unfold ofPattern at h
    split at h
    · cases h
      exact spelled_ofLiteral (hliterals value (List.mem_singleton.mpr rfl))
    · cases h
  | alternation parts | choiceFrom source parts =>
    obtain ⟨ds, hds, h⟩ := exists_of_bind_eq_ok h
    cases h
    have hparts := spelled_ofPatterns parts hliterals hds
    exact spelled_form .choice ["of"] (by decide) (List.Sublist.refl _)
      (List.forall_mem_singleton.mpr (.list _ hparts))
  | sequence parts =>
    obtain ⟨ds, hds, h⟩ := exists_of_bind_eq_ok h
    cases h
    have hparts := spelled_ofPatterns parts hliterals hds
    exact .list _ hparts
  | repeated inner mode bounds =>
    obtain ⟨written, hwritten, h⟩ := exists_of_bind_eq_ok h
    cases h
    have hinner := spelled_ofPattern inner hliterals hwritten
    exact spelled_bounded (.repeated mode) written hinner bounds
  | arrayOf inner bounds =>
    obtain ⟨written, hwritten, h⟩ := exists_of_bind_eq_ok h
    cases h
    have hinner := spelled_ofPattern inner hliterals hwritten
    exact spelled_bounded .arrayOf written hinner bounds
  | named label inner =>
    obtain ⟨written, hwritten, h⟩ := exists_of_bind_eq_ok h
    cases h
    have hinner := spelled_ofPattern inner hliterals hwritten
    refine spelled_form .named ["label", "of"] (by decide)
      ((keys_innerFields_sublist written _).cons_cons "label") ?_
    exact List.forall_mem_cons.mpr ⟨.str label, spelled_innerFields hinner⟩
  | unspecified tag => cases h
  | misfit flaw value => cases flaw <;> cases h
termination_by structural p

theorem spelled_ofPatterns {floats : Bool} (ps : List (Pattern Value))
    (hliterals : ∀ w ∈ Pattern.allLiterals ps, w.Spelled floats) {ds : List Document}
    (h : ofPatterns ps = .ok ds) : ∀ v ∈ toValues ds, v.Spelled floats := by
  cases ps with
  | nil =>
    cases h
    simp [toValues]
  | cons p rest =>
    obtain ⟨hown, hlater⟩ := List.forall_mem_append.mp hliterals
    obtain ⟨d, hd, h⟩ := exists_of_bind_eq_ok h
    obtain ⟨others, hothers, h⟩ := exists_of_bind_eq_ok h
    cases h
    have hfirst := spelled_ofPattern p hown hd
    have hrest := spelled_ofPatterns rest hlater hothers
    exact List.forall_mem_cons.mpr ⟨hfirst, hrest⟩
termination_by structural ps

end

end Document

namespace Pattern

variable {floats : Bool} {v : Value} {p : Pattern Value}

/-- A pattern that is decoded is of the eight kinds, and its literals are spelled like its
document. -/
theorem spelled_of_decode (hspelled : v.Spelled floats) (h : decode v = .ok p) :
    p.isRegular = true ∧ ∀ w ∈ p.literals, w.Spelled floats := by
  unfold decode at h
  split at h
  · next document hread =>
    obtain ⟨hregular, hliterals⟩ := document.literals_toPattern h
    rw [hliterals]
    exact ⟨hregular, Document.spelled_literals hspelled hread⟩
  · cases h

/-- The document that a pattern is encoded as is spelled like the literals of the pattern. -/
theorem spelled_of_encode (hliterals : ∀ w ∈ p.literals, w.Spelled floats)
    (h : p.encode = .ok v) : v.Spelled floats := by
  obtain ⟨document, hdocument, h⟩ := exists_of_bind_eq_ok h
  cases h
  exact Document.spelled_ofPattern p hliterals hdocument

/-- Whether a pattern can be encoded is settled by its literals. -/
theorem settled_encode (p : Pattern Value) (hregular : p.isRegular = true) :
    Document.Settled p.literals p.encode :=
  (Document.settled_ofPattern p hregular).map Document.toValue

end Pattern

end Motif
