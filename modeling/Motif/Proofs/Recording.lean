import Motif.Proofs.Canonical

/-!
What becomes of an event that a tracer is told. It is made of its type, its place and its details,
whose keys are texts from then on, and it is accepted again when it is read back. The only thing
that can keep it from being written is a value without a form as data.
-/

namespace Motif

/-! ### Values with a form as data -/

namespace Value

mutual

/-- Whether a value has a form as data: bytes, objects, patterns and markers have none. Keys do not
matter, since they are written as texts whatever they are. -/
def hasDataForm : Value → Bool
  | .null | .bool _ | .int _ | .float _ | .str _ => true
  | .seq _ items => allHaveDataForm items
  | .dict entries => entriesHaveDataForm entries
  | .bytes _ | .object _ | .pattern _ | .marker _ => false
termination_by structural v => v

def allHaveDataForm : List Value → Bool
  | [] => true
  | v :: rest => hasDataForm v && allHaveDataForm rest
termination_by structural vs => vs

def entriesHaveDataForm : List (Value × Value) → Bool
  | [] => true
  | (_, v) :: rest => hasDataForm v && entriesHaveDataForm rest
termination_by structural entries => entries

end

theorem hasDataForm_seq {form : Form} {items : List Value} :
    hasDataForm (.seq form items) = true ↔ ∀ v ∈ items, hasDataForm v = true := by
  rw [hasDataForm]
  induction items with
  | nil => simp [allHaveDataForm]
  | cons v rest ih => rw [allHaveDataForm, Bool.and_eq_true, ih, List.forall_mem_cons]

theorem hasDataForm_dict {entries : List (Value × Value)} :
    hasDataForm (.dict entries) = true ↔ ∀ entry ∈ entries, hasDataForm entry.2 = true := by
  rw [hasDataForm]
  induction entries with
  | nil => simp [entriesHaveDataForm]
  | cons entry rest ih => rw [entriesHaveDataForm, Bool.and_eq_true, ih, List.forall_mem_cons]

theorem hasDataForm_record {entries : Entries String Value} :
    hasDataForm (.record entries) = true ↔ ∀ entry ∈ entries, hasDataForm entry.2 = true := by
  rw [record, hasDataForm_dict, List.forall_mem_map]

theorem hasDataForm_of_deeplySorted {v w : Value} (h : v.hasDataForm = true)
    (hsorted : deeplySorted v = .ok w) : w.hasDataForm = true := by
  induction v using Value.induction generalizing w with
  | seq form items ih =>
    rw [deeplySorted_seq] at hsorted
    obtain ⟨sorted, hitems, rfl⟩ := exists_of_map_eq_ok hsorted
    refine hasDataForm_seq.mpr fun w hw => ?_
    obtain ⟨v, hv, hvalue⟩ := exists_of_mem_mapM hitems hw
    exact ih v hv (hasDataForm_seq.mp h v hv) hvalue
  | dict entries ih =>
    rw [deeplySorted] at hsorted
    obtain ⟨sorted, hentries, rfl⟩ := exists_of_map_eq_ok hsorted
    have hvalues : ∀ entry ∈ entries, ∀ w, deeplySorted entry.2 = .ok w →
        w.hasDataForm = true := fun entry hentry w hw =>
      (ih entry hentry).2 (hasDataForm_dict.mp h entry hentry) hw
    exact hasDataForm_record.mpr (forall_sortedEntries hvalues hentries).2
  | _ =>
    cases hsorted
    exact h

end Value

namespace Json

variable {layout : Layout}

/-- Only what has no form as data keeps a value with texts for keys from being written. -/
theorem exists_writeAt_of_textKeyed {v : Value} (h : v.TextKeyed) (hdata : v.hasDataForm = true)
    (level : Nat) : ∃ text, writeAt layout level v = .ok text := by
  induction h generalizing level with
  | leaf v hleaf =>
    cases v with
    | null | int _ | float _ | str _ => exact ⟨_, rfl⟩
    | bool b => cases b <;> exact ⟨_, rfl⟩
    | seq _ _ | dict _ => cases hleaf
    | bytes _ | object _ | pattern _ | marker _ => cases hdata
  | seq form items _ ih =>
    have hitems : ∀ v ∈ items, ∀ level, ∃ text, writeAt layout level v = .ok text :=
      fun v hv => ih v hv (Value.hasDataForm_seq.mp hdata v hv)
    obtain ⟨texts, hwrites⟩ := exists_writeItems hitems (level + 1)
    exact ⟨layout.enclose level '[' ']' texts, by rw [writeAt, hwrites]; rfl⟩
  | record entries _ _ ih =>
    have hentries : ∀ entry ∈ entries, ∀ level, ∃ text,
        writeAt layout level entry.2 = .ok text := fun entry hentry =>
      ih entry hentry (Value.hasDataForm_record.mp hdata entry hentry)
    obtain ⟨parts, hwrites⟩ := exists_writeEntries hentries (level + 1)
    refine ⟨layout.enclose level (Char.ofNat 123) (Char.ofNat 125) parts, ?_⟩
    rw [Value.record, writeAt, hwrites]
    rfl

theorem exists_write_of_textKeyed {v : Value} (h : v.TextKeyed) (hdata : v.hasDataForm = true) :
    ∃ text, write layout v = .ok text := by
  obtain ⟨text, htext⟩ := exists_writeAt_of_textKeyed h hdata 0
  refine ⟨String.ofList text, ?_⟩
  rw [write, htext]
  rfl

end Json

/-! ### What an event is made of -/

theorem EventType.eq_name_of_ofName? {name : String} {type : EventType}
    (h : ofName? name = some type) : name = type.name := by
  unfold ofName? at h
  split_ifs at h <;> cases h <;> assumption

namespace Event

/-- What a tracer is told of an event at a place of the log. -/
def told (index : Nat) (type : Value) (details : Entries String Value) : Value :=
  .record [("type", type), ("i", .int index), ("meta", .record details)]

theorem lookUp?_of_readType {entries : List (Value × Value)} {type : EventType}
    (h : readType entries = .ok type) :
    Value.lookUp? (.str "type") entries = some (.str type.name) := by
  unfold readType at h
  dsimp only at h
  cases hgiven : Value.lookUp? (.str "type") entries with
  | none =>
    rw [hgiven] at h
    cases h
  | some given =>
    rw [hgiven, Option.getD_some] at h
    split at h
    · cases h
    · split at h
      · split at h
        · next name _ type' htype =>
          cases h
          rw [EventType.eq_name_of_ofName? htype]
        · cases h
      · cases h

theorem lookUp?_of_readIndex {entries : List (Value × Value)} {index : Nat}
    (h : readIndex entries = .ok index) :
    Value.lookUp? (.str "i") entries = some (.int index) := by
  unfold readIndex at h
  split at h
  · next n hn =>
    cases h
    exact hn
  · cases h

/-- The type and the index of an event are those that are given with it. -/
theorem lookUp?_of_ofValue {entries : List (Value × Value)} {e : Event}
    (h : ofValue (.dict entries) = .ok e) :
    Value.lookUp? (.str "type") entries = some (.str e.type.name) ∧
      Value.lookUp? (.str "i") entries = some (.int e.index) := by
  obtain ⟨version, -, h⟩ := exists_of_bind_eq_ok h
  obtain ⟨type, htype, h⟩ := exists_of_bind_eq_ok h
  obtain ⟨index, hindex, h⟩ := exists_of_bind_eq_ok h
  obtain ⟨given, -, h⟩ := exists_of_bind_eq_ok h
  have hparts : e.type = type ∧ e.index = index := by
    cases given with
    | none =>
      cases h
      exact ⟨rfl, rfl⟩
    | some given =>
      obtain ⟨details, -, h⟩ := exists_of_bind_eq_ok h
      cases h
      exact ⟨rfl, rfl⟩
  rw [hparts.1, hparts.2]
  exact ⟨lookUp?_of_readType htype, lookUp?_of_readIndex hindex⟩

/-- An event that a tracer accepts is made of what the tracer is told. -/
theorem of_told {index : Nat} {type : Value} {details : Entries String Value} {e : Event}
    (h : ofValue (told index type details) = .ok e) :
    type = .str e.type.name ∧ e.version = .int 1 ∧ e.index = index ∧
      ∃ sorted, e.details = some sorted ∧
        Value.deeplySorted (.record details) = .ok (.record sorted) := by
  obtain ⟨hversion, hdetails⟩ := exists_of_ofValue h
  obtain ⟨htype, hindex⟩ := lookUp?_of_ofValue h
  have hone := (beq_one_of_readVersion hversion).1
  rw [Value.lookUp?_record] at htype hindex hone
  have hnumber : (index : Int) = e.index := Value.int.inj (Option.some.inj hindex)
  refine ⟨Option.some.inj htype, hone, (Int.ofNat_inj.mp hnumber).symm, ?_⟩
  rcases hdetails with ⟨hnone, -⟩ | ⟨given, sorted, hread, hsorted, hsome⟩
  · cases hnone
  · have hgiven := lookUp?_of_readDetails hread
    rw [Value.lookUp?_record] at hgiven
    refine ⟨sorted, hsome, ?_⟩
    rw [← hsorted]
    exact congrArg Value.deeplySorted (Option.some.inj hgiven)

/-- What is told of a decision is never refused. -/
theorem ofValue_told_decision (d : Decision) (index : Nat) :
    ofValue (told index (.str d.eventType.name) d.arguments) = .ok (d.event index) :=
  ofValue_record d.eventType index d.sortDetails_arguments

theorem index_eq_of_ofValue_toValue {e again : Event} (h : ofValue e.toValue = .ok again) :
    again.index = e.index := by
  obtain ⟨-, hindex⟩ := lookUp?_of_ofValue h
  change Value.lookUp? (.str "i") ((fields e).map _) = _ at hindex
  rw [Value.lookUp?_record] at hindex
  have hnumber : (e.index : Int) = again.index := Value.int.inj (Option.some.inj hindex)
  exact (Int.ofNat_inj.mp hnumber).symm

theorem exists_line_of_details {e : Event} {details : Entries String Value}
    (hversion : e.version = .int 1) (hsome : e.details = some details)
    (htexts : (Value.record details).TextKeyed)
    (hdata : (Value.record details).hasDataForm = true) :
    ∃ line, Json.write .compact e.toValue = .ok line := by
  have hfields : e.fields = [("v", .int 1), ("type", .str e.type.name), ("i", .int e.index),
      ("meta", .record details)] := by
    rw [fields, hversion, hsome]
    rfl
  change ∃ line, Json.write .compact (.record e.fields) = .ok line
  rw [hfields]
  have hkeys : Entries.keys [("v", Value.int 1), ("type", .str e.type.name), ("i", .int e.index),
      ("meta", .record details)] = ["v", "type", "i", "meta"] := rfl
  refine Json.exists_write_of_textKeyed (.record _ (by rw [hkeys]; decide) ?_)
    (Value.hasDataForm_record.mpr ?_)
  · intro entry hentry
    simp only [List.mem_cons, List.not_mem_nil, or_false] at hentry
    rcases hentry with rfl | rfl | rfl | rfl
    exacts [.leaf _ rfl, .leaf _ rfl, .leaf _ rfl, htexts]
  · intro entry hentry
    simp only [List.mem_cons, List.not_mem_nil, or_false] at hentry
    rcases hentry with rfl | rfl | rfl | rfl
    exacts [rfl, rfl, rfl, hdata]

/-- If all values that are told of an event have a form as data, then the event can be written when
it is read back. -/
theorem exists_line {index : Nat} {type : Value} {details : Entries String Value}
    {e again : Event} (h : ofValue (told index type details) = .ok e)
    (hdata : ∀ entry ∈ details, entry.2.hasDataForm = true)
    (hagain : ofValue e.toValue = .ok again) :
    ∃ line, Json.write .compact again.toValue = .ok line := by
  obtain ⟨-, hversion, -, sorted, hsome, hsorted⟩ := of_told h
  have hone : (e.version == .int 1) = true := by
    rw [hversion]
    decide +kernel
  rw [ofValue_toValue hone, hsome] at hagain
  obtain ⟨settled, hsettled, rfl⟩ := exists_of_map_eq_ok hagain
  have hturned := sortDetails_eq_ok_iff.mp hsettled
  have hkept := Value.hasDataForm_of_deeplySorted (Value.hasDataForm_record.mpr hdata) hsorted
  exact exists_line_of_details hversion rfl (Value.textKeyed_of_deeplySorted hturned)
    (Value.hasDataForm_of_deeplySorted hkept hturned)

end Event

theorem Decision.hasDataForm_of_mem_arguments (d : Decision) {entry : String × Value}
    (h : entry ∈ d.arguments) : entry.2.hasDataForm = true := by
  have hrecord : (Value.record d.arguments).hasDataForm = true := by cases d <;> rfl
  exact Value.hasDataForm_record.mp hrecord entry h

end Motif
