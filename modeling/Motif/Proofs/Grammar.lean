import Motif.Proofs.RoundTrip
import Motif.Proofs.TakingApart

/-!
The grammar of pattern documents. A document is a scalar, a list of documents, or an object in
one of a few forms, with just the keys of that form. The decoder accepts what the grammar
accepts and nothing else. Everywhere but under the value of an exact match, there are only
scalars, lists and objects in what it accepts.
-/

namespace Motif

namespace Document

/-- The bounds of an object: both ends, which are whole numbers in order, or none. -/
def HasBounds (entries : List (Value × Value)) : Prop :=
  (Value.lookUp? (.str "min") entries = none ∧ Value.lookUp? (.str "max") entries = none) ∨
    ∃ low high : Nat, Value.lookUp? (.str "min") entries = some (.int low) ∧
      Value.lookUp? (.str "max") entries = some (.int high) ∧ low ≤ high

/-- The documents that the decoder accepts. -/
inductive Grammatical : Value → Prop
  | scalar {v} (hscalar : v.isScalar = true) : Grammatical v
  | array {items} (hitems : ∀ v ∈ items, Grammatical v) : Grammatical (.seq .list items)
  | simple {entries word} (hform : Value.lookUp? (.str "$") entries = some (.str word))
    (hword : word ∈ ["any", "number", "string", "boolean"])
    (hkeys : Value.keysWithin ["$"] entries = true) : Grammatical (.dict entries)
  | exact {entries value} (hform : Value.lookUp? (.str "$") entries = some (.str "is"))
    (hvalue : Value.lookUp? (.str "value") entries = some value)
    (hkeys : Value.keysWithin ["$", "value"] entries = true) : Grammatical (.dict entries)
  | parts {entries word items} (hform : Value.lookUp? (.str "$") entries = some (.str word))
    (hword : word ∈ ["or", "seq"])
    (hof : Value.lookUp? (.str "of") entries = some (.seq .list items))
    (hitems : ∀ v ∈ items, Grammatical v)
    (hkeys : Value.keysWithin ["$", "of"] entries = true) : Grammatical (.dict entries)
  | repeated {entries word} (hform : Value.lookUp? (.str "$") entries = some (.str word))
    (hword : word ∈ ["greedy", "lazy", "array"])
    (hinner : ∀ v, Value.lookUp? (.str "of") entries = some v → Grammatical v)
    (hbounds : HasBounds entries)
    (hkeys : Value.keysWithin ["$", "of", "min", "max"] entries = true) :
    Grammatical (.dict entries)
  | named {entries label} (hform : Value.lookUp? (.str "$") entries = some (.str "name"))
    (hlabel : Value.lookUp? (.str "label") entries = some (.str label))
    (hinner : ∀ v, Value.lookUp? (.str "of") entries = some v → Grammatical v)
    (hkeys : Value.keysWithin ["$", "label", "of"] entries = true) : Grammatical (.dict entries)

theorem Grammatical.items {form : Form} {items : List Value} (h : Grammatical (.seq form items)) :
    ∀ v ∈ items, Grammatical v := by
  cases h with
  | scalar hscalar => cases hscalar
  | array hitems => exact hitems

theorem decode_eq_ok {v : Value} {p : Pattern Value} :
    Pattern.decode v = .ok p ↔ ∃ d, ofValue v = some d ∧ d.toPattern = .ok p := by
  unfold Pattern.decode
  constructor
  · intro h
    split at h
    · next d hread => exact ⟨d, hread, h⟩
    · cases h
  · rintro ⟨d, hread, hp⟩
    rw [hread]
    exact hp

theorem boundEnd_eq_ok {which : BoundEnd} {v : Value} {n : Nat}
    (h : Construct.boundEnd which v = .ok n) : v = .int n := by
  unfold Construct.boundEnd at h
  split at h
  · cases h
    rfl
  · cases h

/-- Ends that are there and make bounds are natural numbers in order. -/
theorem bounds_eq_ok {low high : Value} {made : Option Bounds} (hlow : isBound low = true)
    (hhigh : isBound high = true) (h : Construct.bounds low high = .ok made) :
    ∃ b : Bounds, low = .int b.min ∧ high = .int b.max := by
  unfold Construct.bounds at h
  split at h
  · cases hlow
  · cases hlow
  · cases hhigh
  · obtain ⟨min, hmin, h⟩ := exists_of_bind_eq_ok h
    obtain ⟨max, hmax, h⟩ := exists_of_bind_eq_ok h
    split at h
    · next hordered => exact ⟨⟨min, max, hordered⟩, boundEnd_eq_ok hmin, boundEnd_eq_ok hmax⟩
    · cases h

section

variable {entries : List (Value × Value)}

/-- Bounds that a pattern can have are both ends in order, or none. -/
theorem hasBounds_of_bounds {bounds : Option (Value × Value)} {made : Option Bounds}
    (hbounds : bounds? (fieldsOf entries) = some bounds)
    (hmade : Construct.bounds (bounds.getD (.null, .null)).1 (bounds.getD (.null, .null)).2 =
      .ok made) : HasBounds entries := by
  obtain ⟨hmin, hmax⟩ := lookUp?_of_bounds? hbounds
  have hends := areBounds_of_bounds? hbounds
  cases bounds with
  | none => exact Or.inl ⟨hmin, hmax⟩
  | some ends =>
    obtain ⟨low, high⟩ := ends
    obtain ⟨hlow, hhigh⟩ := Bool.and_eq_true_iff.mp hends
    obtain ⟨b, rfl, rfl⟩ := bounds_eq_ok hlow hhigh hmade
    exact Or.inr ⟨b.min, b.max, hmin, hmax, b.min_le_max⟩

/-- Bounds that are both ends in order, or none, are read as those of a pattern. -/
theorem HasBounds.bounds? (h : HasBounds entries) :
    ∃ b : Option Bounds, Document.bounds? (fieldsOf entries) = some (ofBounds b) := by
  rw [bounds?_fieldsOf]
  rcases h with ⟨hmin, hmax⟩ | ⟨low, high, hmin, hmax, hordered⟩
  · rw [hmin, hmax]
    exact ⟨none, rfl⟩
  · rw [hmin, hmax]
    refine ⟨some ⟨low, high, hordered⟩, ?_⟩
    simp [isBound, ofBounds]

/-- What is inside an object is grammatical when it is a pattern's, if that holds of the values
under the object's keys. -/
theorem grammatical_inner {inner : Document} {q : Pattern Value}
    (hinside : ∀ key v p, Value.lookUp? (.str key) entries = some v → Pattern.decode v = .ok p →
      Grammatical v)
    (hinner : inner? (fieldsOf entries) = some inner) (hq : inner.toPattern = .ok q) :
    ∀ v, Value.lookUp? (.str "of") entries = some v → Grammatical v := by
  intro v hof
  rw [inner?_fieldsOf, hof] at hinner
  exact hinside "of" v q hof (decode_eq_ok.mpr ⟨inner, hinner, hq⟩)

/-- Parts are grammatical when they are a pattern's. -/
theorem grammatical_parts {parts : List Document} {ps : List (Pattern Value)}
    (hinside : ∀ key v p, Value.lookUp? (.str key) entries = some v → Pattern.decode v = .ok p →
      Grammatical v)
    (hparts : parts? (fieldsOf entries) = some parts) (hps : toPatterns parts = .ok ps) :
    ∃ items, Value.lookUp? (.str "of") entries = some (.seq .list items) ∧
      ∀ v ∈ items, Grammatical v := by
  obtain ⟨items, hof, hitems⟩ := lookUp?_of_parts? hparts
  -- The list under the key is a document too, and so are its items.
  have hread : ofValue (.seq .list items) = some (.array parts) :=
    Option.map_eq_some_iff.mpr ⟨parts, hitems, rfl⟩
  have hlist : (Document.array parts).toPattern = .ok (.sequence ps) := by
    rw [toPattern, hps]
    rfl
  have hgrammatical := hinside "of" _ _ hof (decode_eq_ok.mpr ⟨_, hread, hlist⟩)
  exact ⟨items, hof, hgrammatical.items⟩

/-- An object that is a pattern's has one of the forms. -/
theorem grammatical_dict {document : Document} {p : Pattern Value}
    (hinside : ∀ key v q, Value.lookUp? (.str key) entries = some v → Pattern.decode v = .ok q →
      Grammatical v)
    (hread : ofFields (fieldsOf entries) = some document) (hp : document.toPattern = .ok p) :
    Grammatical (.dict entries) := by
  obtain ⟨directive, hform, hkeys, hread⟩ := lookUp?_of_ofFields hread
  cases directive with
  | any => exact .simple hform (by decide) hkeys
  | check kind => exact .simple hform (by cases kind <;> decide) hkeys
  | exact =>
    simp only [ofDirective, field?_fieldsOf] at hread
    obtain ⟨field, hfield, -⟩ := Option.map_eq_some_iff.mp hread
    obtain ⟨value, hvalue, -⟩ := Option.map_eq_some_iff.mp hfield
    exact .exact hform hvalue hkeys
  | choice | sequence =>
    obtain ⟨parts, hparts, rfl⟩ := Option.map_eq_some_iff.mp hread
    obtain ⟨ps, hps, -⟩ := exists_of_bind_eq_ok hp
    obtain ⟨items, hof, hitems⟩ := grammatical_parts hinside hparts hps
    exact .parts hform (by decide) hof hitems hkeys
  | repeated mode =>
    obtain ⟨inner, hinner, hread⟩ := Option.bind_eq_some_iff.mp hread
    obtain ⟨bounds, hbounds, hread⟩ := Option.bind_eq_some_iff.mp hread
    cases hread
    obtain ⟨q, hq, hp⟩ := exists_of_bind_eq_ok hp
    obtain ⟨_, _, hp⟩ := exists_of_bind_eq_ok hp
    obtain ⟨made, hmade, -⟩ := exists_of_bind_eq_ok hp
    exact .repeated hform (by cases mode <;> decide) (grammatical_inner hinside hinner hq)
      (hasBounds_of_bounds hbounds hmade) hkeys
  | arrayOf =>
    obtain ⟨inner, hinner, hread⟩ := Option.bind_eq_some_iff.mp hread
    obtain ⟨bounds, hbounds, hread⟩ := Option.bind_eq_some_iff.mp hread
    cases hread
    obtain ⟨q, hq, hp⟩ := exists_of_bind_eq_ok hp
    obtain ⟨made, hmade, -⟩ := exists_of_bind_eq_ok hp
    exact .repeated hform (by decide) (grammatical_inner hinside hinner hq)
      (hasBounds_of_bounds hbounds hmade) hkeys
  | named =>
    obtain ⟨label, inner, hlabel, hinner, rfl⟩ := lookUp?_of_named hread
    obtain ⟨q, hq, -⟩ := exists_of_bind_eq_ok hp
    exact .named hform hlabel (grammatical_inner hinside hinner hq) hkeys

end

mutual

/-- The decoder accepts nothing that is not grammatical. -/
theorem grammatical_of_decode (v : Value) {p : Pattern Value} (h : Pattern.decode v = .ok p) :
    Grammatical v := by
  obtain ⟨document, hread, hp⟩ := decode_eq_ok.mp h
  cases v with
  | seq shape items =>
    cases shape with
    | list =>
      obtain ⟨parts, hparts, rfl⟩ := Option.map_eq_some_iff.mp hread
      obtain ⟨ps, hps, -⟩ := exists_of_bind_eq_ok hp
      exact .array (allGrammatical_of_toPatterns items hparts hps)
    | tuple => cases hread
  | dict entries =>
    have hentries := entriesGrammatical_of_decode entries
    apply grammatical_dict _ hread hp
    intro key v q hfound hq
    obtain ⟨name, hmem⟩ := Value.mem_of_lookUp? hfound
    exact hentries _ hmem q hq
  | bytes bs | object name | pattern q | marker m => cases hread
  | _ => exact .scalar rfl
termination_by structural v

theorem allGrammatical_of_toPatterns (vs : List Value) {ds : List Document}
    {ps : List (Pattern Value)} (hread : ofValues vs = some ds) (hps : toPatterns ds = .ok ps) :
    ∀ v ∈ vs, Grammatical v := by
  cases vs with
  | nil => simp
  | cons v rest =>
    obtain ⟨d, hd, hread⟩ := Option.bind_eq_some_iff.mp hread
    obtain ⟨later, hlater, hread⟩ := Option.bind_eq_some_iff.mp hread
    cases hread
    obtain ⟨q, hq, hps⟩ := exists_of_bind_eq_ok hps
    obtain ⟨qs, hqs, -⟩ := exists_of_bind_eq_ok hps
    have hfirst := grammatical_of_decode v (decode_eq_ok.mpr ⟨d, hd, hq⟩)
    have hrest := allGrammatical_of_toPatterns rest hlater hqs
    exact List.forall_mem_cons.mpr ⟨hfirst, hrest⟩
termination_by structural vs

theorem entriesGrammatical_of_decode (entries : List (Value × Value)) :
    ∀ entry ∈ entries, ∀ p, Pattern.decode entry.2 = .ok p → Grammatical entry.2 := by
  cases entries with
  | nil => simp
  | cons entry rest =>
    obtain ⟨key, v⟩ := entry
    have hfirst : ∀ p, Pattern.decode v = .ok p → Grammatical v :=
      fun p h => grammatical_of_decode v h
    have hrest := entriesGrammatical_of_decode rest
    exact List.forall_mem_cons.mpr ⟨hfirst, hrest⟩
termination_by structural entries

end

section

variable {entries : List (Value × Value)}

/-- What a directive reads from an object with just its keys is what the object describes. -/
theorem decode_of_directive (directive : Directive) (document : Document) {p : Pattern Value}
    (hform : Value.lookUp? (.str "$") entries = some (.str directive.name))
    (hkeys : Value.keysWithin ("$" :: directive.keys) entries = true)
    (hread : ofDirective directive (fieldsOf entries) = some document)
    (hp : document.toPattern = .ok p) : Pattern.decode (.dict entries) = .ok p := by
  apply decode_eq_ok.mpr
  refine ⟨document, ?_, hp⟩
  rw [ofValue, ofFields_fieldsOf hform, hkeys, if_pos rfl, hread]

theorem ofValues_of_decode {items : List Value}
    (h : ∀ v ∈ items, ∃ p, Pattern.decode v = .ok p) :
    ∃ ds ps, ofValues items = some ds ∧ toPatterns ds = .ok ps := by
  induction items with
  | nil => exact ⟨[], [], rfl, rfl⟩
  | cons v rest ih =>
    obtain ⟨⟨p, hp⟩, hrest⟩ := List.forall_mem_cons.mp h
    obtain ⟨d, hd, hp⟩ := decode_eq_ok.mp hp
    obtain ⟨ds, ps, hds, hps⟩ := ih hrest
    refine ⟨d :: ds, p :: ps, ?_, ?_⟩
    · rw [ofValues, hd, hds]
      rfl
    · rw [toPatterns, hp, hps]
      rfl

/-- What is inside can be read, whether it is left out or a document. -/
theorem inner?_of_decode
    (hinner : ∀ v, Value.lookUp? (.str "of") entries = some v → ∃ p, Pattern.decode v = .ok p) :
    ∃ inner q, inner? (fieldsOf entries) = some inner ∧ inner.toPattern = .ok q := by
  rw [inner?_fieldsOf]
  cases hof : Value.lookUp? (.str "of") entries with
  | none => exact ⟨.any, .wildcard, rfl, rfl⟩
  | some v =>
    obtain ⟨q, hq⟩ := hinner v hof
    obtain ⟨inner, hread, hq⟩ := decode_eq_ok.mp hq
    exact ⟨inner, q, hread, hq⟩

/-- A repetition or an array form is accepted when its parts are. -/
theorem decode_repeated {word : String} (hword : word ∈ ["greedy", "lazy", "array"])
    (hform : Value.lookUp? (.str "$") entries = some (.str word))
    (hinner : ∀ v, Value.lookUp? (.str "of") entries = some v → ∃ p, Pattern.decode v = .ok p)
    (hbounds : HasBounds entries)
    (hkeys : Value.keysWithin ["$", "of", "min", "max"] entries = true) :
    ∃ p, Pattern.decode (.dict entries) = .ok p := by
  obtain ⟨inner, q, hinner, hq⟩ := inner?_of_decode hinner
  obtain ⟨b, hb⟩ := hbounds.bounds?
  have hmode (mode : Mode) (hmode : word = mode.name) :
      Pattern.decode (.dict entries) = .ok (.repeated q mode b) := by
    subst hmode
    apply decode_of_directive (.repeated mode) (.repeated mode inner (ofBounds b)) hform hkeys
    · rw [ofDirective, hinner, hb]
      rfl
    · rw [toPattern, hq]
      exact Construct.repetition_ofBounds q mode b
  have harray (harray : word = "array") : Pattern.decode (.dict entries) = .ok (.arrayOf q b) := by
    subst harray
    apply decode_of_directive .arrayOf (.arrayOf inner (ofBounds b)) hform hkeys
    · rw [ofDirective, hinner, hb]
      rfl
    · rw [toPattern, hq]
      exact Construct.array_ofBounds q b
  simp only [List.mem_cons, List.not_mem_nil, or_false] at hword
  rcases hword with hword | hword | hword
  · exact ⟨_, hmode .greedy hword⟩
  · exact ⟨_, hmode .lazy hword⟩
  · exact ⟨_, harray hword⟩

end

/-- The decoder accepts whatever is grammatical. -/
theorem Grammatical.decode {v : Value} (h : Grammatical v) : ∃ p, Pattern.decode v = .ok p := by
  induction h with
  | @scalar v hscalar =>
    cases v with
    | bytes bs | seq shape items | dict entries | object name | pattern p | marker m =>
      cases hscalar
    | _ => exact ⟨_, rfl⟩
  | array _ ih =>
    obtain ⟨ds, ps, hds, hps⟩ := ofValues_of_decode ih
    refine ⟨.sequence ps, decode_eq_ok.mpr ⟨.array ds, ?_, ?_⟩⟩
    · rw [ofValue, hds]
      rfl
    · rw [toPattern, hps]
      rfl
  | simple hform hword hkeys =>
    simp only [List.mem_cons, List.not_mem_nil, or_false] at hword
    rcases hword with rfl | rfl | rfl | rfl
    · exact ⟨_, decode_of_directive .any .any hform hkeys rfl rfl⟩
    · exact ⟨_, decode_of_directive (.check .number) (.check .number) hform hkeys rfl rfl⟩
    · exact ⟨_, decode_of_directive (.check .string) (.check .string) hform hkeys rfl rfl⟩
    · exact ⟨_, decode_of_directive (.check .boolean) (.check .boolean) hform hkeys rfl rfl⟩
  | @exact entries value hform hvalue hkeys =>
    have hread : ofDirective .exact (fieldsOf entries) = some (.exact value) := by
      simp only [ofDirective, field?_fieldsOf, hvalue, Option.map_some]
    exact ⟨_, decode_of_directive .exact (.exact value) hform hkeys hread rfl⟩
  | @parts entries word items hform hword hof _ hkeys ih =>
    obtain ⟨ds, ps, hds, hps⟩ := ofValues_of_decode ih
    have hparts : parts? (fieldsOf entries) = some ds := by
      rw [parts?_fieldsOf, hof]
      exact hds
    simp only [List.mem_cons, List.not_mem_nil, or_false] at hword
    rcases hword with rfl | rfl
    · refine ⟨.alternation ps, decode_of_directive .choice (.choice ds) hform hkeys ?_ ?_⟩
      · rw [ofDirective, hparts, Option.map_some]
      · rw [toPattern, hps]
        rfl
    · refine ⟨.sequence ps, decode_of_directive .sequence (.sequence ds) hform hkeys ?_ ?_⟩
      · rw [ofDirective, hparts, Option.map_some]
      · rw [toPattern, hps]
        rfl
  | repeated hform hword _ hbounds hkeys ih => exact decode_repeated hword hform ih hbounds hkeys
  | @named entries label hform hlabel _ hkeys ih =>
    obtain ⟨inner, q, hinner, hq⟩ := inner?_of_decode ih
    refine ⟨.named label q, decode_of_directive .named (.named label inner) hform hkeys ?_ ?_⟩
    · simp only [ofDirective, field?_fieldsOf, hlabel, Option.map_some, hinner]
    · rw [toPattern, hq]
      rfl

/-- What stands in a value outside of exact matches: the value itself, the items of sequences, and
the keys of objects with what is found under them, except under the value of an exact match. -/
inductive Exposed (v : Value) : Value → Prop
  | whole : Exposed v v
  | item {form items w} (h : Exposed v (.seq form items)) (hw : w ∈ items) : Exposed v w
  | key {entries entry} (h : Exposed v (.dict entries)) (hentry : entry ∈ entries) :
    Exposed v entry.1
  | entry {entries key w} (h : Exposed v (.dict entries))
    (hw : Value.lookUp? key entries = some w)
    (hexact : ¬ (Value.lookUp? (.str "$") entries = some (.str "is") ∧ key = .str "value")) :
    Exposed v w

section

variable {entries : List (Value × Value)}

/-- The ends of bounds that are there are whole numbers. -/
theorem HasBounds.grammatical (h : HasBounds entries) {w : Value} {name : String}
    (hname : name = "min" ∨ name = "max") (hw : Value.lookUp? (.str name) entries = some w) :
    Grammatical w := by
  rcases h with ⟨hmin, hmax⟩ | ⟨low, high, hmin, hmax, -⟩
  · rcases hname with rfl | rfl
    · rw [hmin] at hw
      cases hw
    · rw [hmax] at hw
      cases hw
  · rcases hname with rfl | rfl
    · rw [hmin] at hw
      cases hw
      exact .scalar rfl
    · rw [hmax] at hw
      cases hw
      exact .scalar rfl

theorem Grammatical.key (h : Grammatical (.dict entries)) {entry : Value × Value}
    (hentry : entry ∈ entries) : ∃ name, entry.1 = .str name := by
  have hkeys : ∃ names, Value.keysWithin names entries = true := by
    cases h with
    | scalar hscalar => cases hscalar
    | simple _ _ hkeys | exact _ _ hkeys | parts _ _ _ _ hkeys | repeated _ _ _ _ hkeys
    | named _ _ _ hkeys => exact ⟨_, hkeys⟩
  obtain ⟨names, hkeys⟩ := hkeys
  obtain ⟨name, -, hname⟩ := Value.mem_of_keysWithin hkeys hentry
  exact ⟨name, hname⟩

/-- What is found in an object is grammatical, the value of an exact match aside. -/
theorem Grammatical.entry (h : Grammatical (.dict entries)) {key w : Value}
    (hw : Value.lookUp? key entries = some w)
    (hexact : ¬ (Value.lookUp? (.str "$") entries = some (.str "is") ∧ key = .str "value")) :
    Grammatical w := by
  have htext {name text : String} (hfound : Value.lookUp? (.str name) entries = some (.str text))
      (hkey : key = .str name) : Grammatical w := by
    rw [hkey, hfound] at hw
    cases hw
    exact .scalar rfl
  cases h with
  | scalar hscalar => cases hscalar
  | simple hform _ hkeys =>
    obtain ⟨name, hname, hkey⟩ := Value.mem_of_lookUp?_of_keysWithin hkeys hw
    cases List.mem_singleton.mp hname
    exact htext hform hkey
  | exact hform _ hkeys =>
    obtain ⟨name, hname, hkey⟩ := Value.mem_of_lookUp?_of_keysWithin hkeys hw
    simp only [List.mem_cons, List.not_mem_nil, or_false] at hname
    rcases hname with rfl | rfl
    · exact htext hform hkey
    · exact absurd ⟨hform, hkey⟩ hexact
  | parts hform _ hof hitems hkeys =>
    obtain ⟨name, hname, hkey⟩ := Value.mem_of_lookUp?_of_keysWithin hkeys hw
    simp only [List.mem_cons, List.not_mem_nil, or_false] at hname
    rcases hname with rfl | rfl
    · exact htext hform hkey
    · rw [hkey, hof] at hw
      cases hw
      exact .array hitems
  | repeated hform _ hinner hbounds hkeys =>
    obtain ⟨name, hname, hkey⟩ := Value.mem_of_lookUp?_of_keysWithin hkeys hw
    subst hkey
    simp only [List.mem_cons, List.not_mem_nil, or_false] at hname
    rcases hname with rfl | rfl | rfl | rfl
    · exact htext hform rfl
    · exact hinner w hw
    · exact hbounds.grammatical (Or.inl rfl) hw
    · exact hbounds.grammatical (Or.inr rfl) hw
  | named hform hlabel hinner hkeys =>
    obtain ⟨name, hname, hkey⟩ := Value.mem_of_lookUp?_of_keysWithin hkeys hw
    simp only [List.mem_cons, List.not_mem_nil, or_false] at hname
    rcases hname with rfl | rfl | rfl
    · exact htext hform hkey
    · exact htext hlabel hkey
    · rw [hkey] at hw
      exact hinner w hw

end

/-- All that stands in a grammatical value outside of exact matches is grammatical. -/
theorem Grammatical.exposed {v w : Value} (h : Grammatical v) (hw : Exposed v w) :
    Grammatical w := by
  induction hw with
  | whole => exact h
  | item _ hitem ih => exact ih.items _ hitem
  | key _ hentry ih =>
    obtain ⟨name, hname⟩ := ih.key hentry
    rw [hname]
    exact .scalar rfl
  | entry _ hfound hexact ih => exact ih.entry hfound hexact

theorem Grammatical.plain {v : Value} (h : Grammatical v) :
    v.isScalar = true ∨ (∃ items, v = .seq .list items) ∨ ∃ entries, v = .dict entries := by
  cases h with
  | scalar hscalar => exact Or.inl hscalar
  | array _ => exact Or.inr (Or.inl ⟨_, rfl⟩)
  | _ => exact Or.inr (Or.inr ⟨_, rfl⟩)

/-- The decoder accepts what is grammatical and nothing else, and rejects the rest with a usage
error at every depth: no key is missed, no list is asked for in vain. Outside of exact matches,
what it accepts has nothing but scalars, lists and objects in it. -/
theorem decodeChecked_grammatical {valid : Value → Bool} (hvalid : Schema.Reads valid) (v : Value) :
    ((∃ p, decodeChecked valid v = .ok p) ↔ Grammatical v) ∧
      (¬ Grammatical v → ∃ error, decodeChecked valid v = .error (.usage error)) ∧
      (∀ p, decodeChecked valid v = .ok p ↔ Pattern.decode v = .ok p) ∧
      (Grammatical v → ∀ w, Exposed v w →
        w.isScalar = true ∨ (∃ items, w = .seq .list items) ∨ ∃ entries, w = .dict entries) := by
  have hdecode := decodeChecked_eq hvalid v
  have hsame : ∀ p, decodeChecked valid v = .ok p ↔ Pattern.decode v = .ok p := by
    intro p
    rw [hdecode]
    exact mapError_eq_ok Fault.usage
  have hgrammatical : (∃ p, decodeChecked valid v = .ok p) ↔ Grammatical v := by
    constructor
    · rintro ⟨p, hp⟩
      exact grammatical_of_decode v ((hsame p).mp hp)
    · intro h
      obtain ⟨p, hp⟩ := h.decode
      exact ⟨p, (hsame p).mpr hp⟩
  refine ⟨hgrammatical, ?_, hsame, fun h w hw => (h.exposed hw).plain⟩
  intro h
  cases hresult : Pattern.decode v with
  | ok p => exact absurd (grammatical_of_decode v hresult) h
  | error error =>
    rw [hdecode, hresult]
    exact ⟨error, rfl⟩

/-- Bounds inside a label have to be in order. The schema admits them in any order, and it is the
constructor that turns them down. -/
theorem decodeChecked_grammatical_bounds :
    let valid (v : Value) : Bool := (ofValue v).isSome
    let bounded (low high : Value) : Value :=
      .record [("$", .str "name"), ("label", .str "a"),
        ("of", .record [("$", .str "greedy"), ("min", low), ("max", high)])]
    Schema.Reads valid ∧ (∃ p, decodeChecked valid (bounded (.int 1) (.int 2)) = .ok p) ∧
      valid (bounded (.int 2) (.int 1)) = true ∧
      ∃ error, decodeChecked valid (bounded (.int 2) (.int 1)) = .error (.usage error) := by
  intro valid bounded
  have hordered : Grammatical (bounded (.int 1) (.int 2)) := by
    refine .named rfl rfl ?_ rfl
    rintro v ⟨⟩
    refine .repeated rfl (by decide) ?_ (Or.inr ⟨1, 2, rfl, rfl, by decide⟩) rfl
    rintro v ⟨⟩
  have hreversed : ¬ Grammatical (bounded (.int 2) (.int 1)) := by
    intro h
    obtain ⟨p, hp⟩ := h.decode
    cases hp
  have hvalid : Schema.Reads valid := Schema.reads_isSome
  obtain ⟨haccepts, -, -, -⟩ := decodeChecked_grammatical hvalid (bounded (.int 1) (.int 2))
  obtain ⟨-, hrejects, -, -⟩ := decodeChecked_grammatical hvalid (bounded (.int 2) (.int 1))
  exact ⟨hvalid, haccepts.mpr hordered, rfl, hrejects hreversed⟩

end Document

end Motif
