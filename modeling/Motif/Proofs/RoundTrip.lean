import Motif.Proofs.Building
import Motif.Proofs.Reading

/-!
Patterns are read back as they were written. What is written for a pattern is always
a document, and the pattern that it describes is the one that was written, except
that literals hold lists where they held tuples. Only literals can keep a pattern
from being written, so a pattern whose literals are all plain data never fails to be.
-/

namespace Motif

namespace Value

mutual

/-- Whether there is a tuple in a value, its keys aside. -/
def hasTuple : Value → Bool
  | .seq .tuple _ => true
  | .seq .list items => anyTuple items
  | .dict entries => anyEntryTuple entries
  | .null | .bool _ | .int _ | .float _ | .str _ | .bytes _ | .object _ | .pattern _ | .marker _ =>
    false
termination_by structural v => v

def anyTuple : List Value → Bool
  | [] => false
  | v :: rest => hasTuple v || anyTuple rest
termination_by structural vs => vs

def anyEntryTuple : List (Value × Value) → Bool
  | [] => false
  | (_, v) :: rest => hasTuple v || anyEntryTuple rest
termination_by structural entries => entries

end

mutual

/-- Without tuples, a value is plain data already as far as its sequences go. -/
theorem asData_of_hasTuple (v : Value) (h : v.hasTuple = false) : v.asData = v := by
  cases v with
  | seq form items =>
    cases form with
    | list => rw [asData, allAsData_of_anyTuple items h]
    | tuple => cases h
  | dict entries => rw [asData, entriesAsData_of_anyEntryTuple entries h]
  | _ => rfl
termination_by structural v

theorem allAsData_of_anyTuple (vs : List Value) (h : anyTuple vs = false) :
    allAsData vs = vs := by
  cases vs with
  | nil => rfl
  | cons v rest =>
    obtain ⟨hv, hrest⟩ := Bool.or_eq_false_iff.mp h
    rw [allAsData, asData_of_hasTuple v hv, allAsData_of_anyTuple rest hrest]
termination_by structural vs

theorem entriesAsData_of_anyEntryTuple (entries : List (Value × Value))
    (h : anyEntryTuple entries = false) : entriesAsData entries = entries := by
  cases entries with
  | nil => rfl
  | cons entry rest =>
    obtain ⟨k, v⟩ := entry
    obtain ⟨hv, hrest⟩ := Bool.or_eq_false_iff.mp h
    rw [entriesAsData, asData_of_hasTuple v hv, entriesAsData_of_anyEntryTuple rest hrest]
termination_by structural entries

end

end Value

namespace Pattern

section

variable {α β : Type}

mutual

/-- Whether every node is of one of the eight kinds of patterns, with the options of every choice
as they are. -/
def isRegular : Pattern α → Bool
  | .wildcard | .literal _ | .typeCheck _ => true
  | .alternation parts | .sequence parts => areRegular parts
  | .repeated inner _ _ | .arrayOf inner _ | .named _ inner => isRegular inner
  | .unspecified _ | .misfit .. | .choiceFrom .. => false
termination_by structural p => p

def areRegular : List (Pattern α) → Bool
  | [] => true
  | p :: rest => isRegular p && areRegular rest
termination_by structural ps => ps

end

mutual

/-- The values of the literals in a pattern, from left to right. -/
def literals : Pattern α → List α
  | .literal value => [value]
  | .alternation parts | .sequence parts | .choiceFrom _ parts => allLiterals parts
  | .repeated inner _ _ | .arrayOf inner _ | .named _ inner => literals inner
  | .wildcard | .typeCheck _ | .unspecified _ | .misfit .. => []
termination_by structural p => p

def allLiterals : List (Pattern α) → List α
  | [] => []
  | p :: rest => literals p ++ allLiterals rest
termination_by structural ps => ps

end

mutual

theorem map_eq_self {f : α → α} (p : Pattern α) (hregular : p.isRegular = true)
    (hsame : ∀ value ∈ p.literals, f value = value) : p.map f = p := by
  cases p with
  | wildcard | typeCheck kind => rfl
  | literal value => rw [map, hsame value (List.mem_singleton.mpr rfl)]
  | alternation parts | sequence parts => rw [map, mapAll_eq_self parts hregular hsame]
  | repeated inner mode bounds => rw [map, map_eq_self inner hregular hsame]
  | arrayOf inner bounds => rw [map, map_eq_self inner hregular hsame]
  | named label inner => rw [map, map_eq_self inner hregular hsame]
  | unspecified tag | misfit flaw value | choiceFrom source parts => cases hregular
termination_by structural p

theorem mapAll_eq_self {f : α → α} (ps : List (Pattern α)) (hregular : areRegular ps = true)
    (hsame : ∀ value ∈ allLiterals ps, f value = value) : mapAll f ps = ps := by
  cases ps with
  | nil => rfl
  | cons p rest =>
    obtain ⟨hp, hrest⟩ := Bool.and_eq_true_iff.mp hregular
    obtain ⟨hown, hlater⟩ := List.forall_mem_append.mp hsame
    rw [mapAll, map_eq_self p hp hown, mapAll_eq_self rest hrest hlater]
termination_by structural ps

end

end

end Pattern

namespace Construct

/-- Bounds that were written down are accepted again. Without any, two nulls stand for them. -/
theorem bounds_ofBounds (bounds : Option Bounds) :
    Construct.bounds ((Document.ofBounds bounds).getD (.null, .null)).1
      ((Document.ofBounds bounds).getD (.null, .null)).2 = .ok bounds := by
  cases bounds with
  | none => rfl
  | some b => exact dif_pos b.min_le_max

theorem repetition_ofBounds (inner : Pattern Value) (mode : Mode) (bounds : Option Bounds) :
    repetition inner (.str mode.name) ((Document.ofBounds bounds).getD (.null, .null)).1
      ((Document.ofBounds bounds).getD (.null, .null)).2 = .ok (.repeated inner mode bounds) := by
  have hmode : Construct.mode (.str mode.name) = .ok mode := by
    cases mode <;> rfl
  rw [repetition, hmode, bounds_ofBounds]
  rfl

theorem array_ofBounds (inner : Pattern Value) (bounds : Option Bounds) :
    array inner ((Document.ofBounds bounds).getD (.null, .null)).1
      ((Document.ofBounds bounds).getD (.null, .null)).2 = .ok (.arrayOf inner bounds) := by
  rw [array, bounds_ofBounds]
  rfl

end Construct

namespace Document

theorem areBounds_ofBounds (bounds : Option Bounds) : areBounds (ofBounds bounds) = true := by
  cases bounds with
  | none => rfl
  | some b => simp [ofBounds, areBounds, isBound]

theorem isReadable_ofLiteral {value : Value} (h : value.isData = true) :
    (ofLiteral value).isReadable = true := by
  cases value with
  | bytes bs | object name | pattern p | marker m => cases h
  | _ => rfl

theorem toPattern_ofLiteral {value : Value} :
    (ofLiteral value).toPattern = .ok (.literal value.asData) := by
  cases value <;> rfl

mutual

/-- What is written for a pattern is readable. -/
theorem isReadable_ofPattern (p : Pattern Value) {d : Document} (h : ofPattern p = .ok d) :
    d.isReadable = true := by
  cases p with
  | wildcard | typeCheck kind =>
    cases h
    rfl
  | literal value =>
    unfold ofPattern at h
    split at h
    · next hdata =>
      cases h
      exact isReadable_ofLiteral hdata
    · cases h
  | alternation parts | sequence parts | choiceFrom source parts =>
    obtain ⟨ds, hds, h⟩ := exists_of_bind_eq_ok h
    cases h
    exact areReadable_ofPatterns parts hds
  | repeated inner mode bounds =>
    obtain ⟨written, hwritten, h⟩ := exists_of_bind_eq_ok h
    cases h
    have hinner := isReadable_ofPattern inner hwritten
    exact Bool.and_eq_true_iff.mpr ⟨hinner, areBounds_ofBounds bounds⟩
  | arrayOf inner bounds =>
    obtain ⟨written, hwritten, h⟩ := exists_of_bind_eq_ok h
    cases h
    have hinner := isReadable_ofPattern inner hwritten
    exact Bool.and_eq_true_iff.mpr ⟨hinner, areBounds_ofBounds bounds⟩
  | named label inner =>
    obtain ⟨written, hwritten, h⟩ := exists_of_bind_eq_ok h
    cases h
    have hinner := isReadable_ofPattern inner hwritten
    exact hinner
  | unspecified tag => cases h
  | misfit flaw value => cases flaw <;> cases h
termination_by structural p

theorem areReadable_ofPatterns (ps : List (Pattern Value)) {ds : List Document}
    (h : ofPatterns ps = .ok ds) : areReadable ds = true := by
  cases ps with
  | nil =>
    cases h
    rfl
  | cons p rest =>
    obtain ⟨d, hd, h⟩ := exists_of_bind_eq_ok h
    obtain ⟨later, hlater, h⟩ := exists_of_bind_eq_ok h
    cases h
    have hfirst := isReadable_ofPattern p hd
    have hrest := areReadable_ofPatterns rest hlater
    exact Bool.and_eq_true_iff.mpr ⟨hfirst, hrest⟩
termination_by structural ps

end

mutual

/-- What is written for a pattern describes that pattern, with lists for the tuples in it. -/
theorem toPattern_ofPattern (p : Pattern Value) (hregular : p.isRegular = true) {d : Document}
    (h : ofPattern p = .ok d) : d.toPattern = .ok (p.map Value.asData) := by
  cases p with
  | wildcard | typeCheck kind =>
    cases h
    rfl
  | literal value =>
    unfold ofPattern at h
    split at h
    · cases h
      exact toPattern_ofLiteral
    · cases h
  | alternation parts | sequence parts =>
    obtain ⟨ds, hds, h⟩ := exists_of_bind_eq_ok h
    cases h
    have hparts := toPatterns_ofPatterns parts hregular hds
    rw [toPattern, hparts]
    rfl
  | repeated inner mode bounds =>
    obtain ⟨written, hwritten, h⟩ := exists_of_bind_eq_ok h
    cases h
    have hinner := toPattern_ofPattern inner hregular hwritten
    rw [toPattern, hinner]
    exact Construct.repetition_ofBounds _ mode bounds
  | arrayOf inner bounds =>
    obtain ⟨written, hwritten, h⟩ := exists_of_bind_eq_ok h
    cases h
    have hinner := toPattern_ofPattern inner hregular hwritten
    rw [toPattern, hinner]
    exact Construct.array_ofBounds _ bounds
  | named label inner =>
    obtain ⟨written, hwritten, h⟩ := exists_of_bind_eq_ok h
    cases h
    have hinner := toPattern_ofPattern inner hregular hwritten
    rw [toPattern, hinner]
    rfl
  | unspecified tag | misfit flaw value | choiceFrom source parts => cases hregular
termination_by structural p

theorem toPatterns_ofPatterns (ps : List (Pattern Value))
    (hregular : Pattern.areRegular ps = true) {ds : List Document} (h : ofPatterns ps = .ok ds) :
    toPatterns ds = .ok (Pattern.mapAll Value.asData ps) := by
  cases ps with
  | nil =>
    cases h
    rfl
  | cons p rest =>
    obtain ⟨hp, hrest⟩ := Bool.and_eq_true_iff.mp hregular
    obtain ⟨d, hd, h⟩ := exists_of_bind_eq_ok h
    obtain ⟨later, hlater, h⟩ := exists_of_bind_eq_ok h
    cases h
    have hfirst := toPattern_ofPattern p hp hd
    have hothers := toPatterns_ofPatterns rest hrest hlater
    rw [toPatterns, hfirst, hothers]
    rfl
termination_by structural ps

end

/-- Either a result comes out and all of some literals are plain data, or the error names one of
them that is not. -/
def Settled {γ : Type} (literals : List Value) (result : Except EncodeError γ) : Prop :=
  (∃ written, result = .ok written) ∧ (∀ value ∈ literals, value.isData = true) ∨
    ∃ value ∈ literals, value.isData = false ∧ result = .error (.literal value)

theorem settled_ok {γ : Type} (written : γ) : Settled [] (.ok written) :=
  Or.inl ⟨⟨written, rfl⟩, by simp⟩

theorem Settled.bind {γ δ : Type} {literals later : List Value} {result : Except EncodeError γ}
    {next : γ → Except EncodeError δ} (h : Settled literals result)
    (hnext : ∀ written, Settled later (next written)) :
    Settled (literals ++ later) (result >>= next) := by
  rcases h with ⟨⟨written, rfl⟩, hall⟩ | ⟨value, hvalue, hdata, rfl⟩
  · rcases hnext written with ⟨⟨whole, hwhole⟩, hlater⟩ | ⟨value, hvalue, hdata, herror⟩
    · exact Or.inl ⟨⟨whole, hwhole⟩, List.forall_mem_append.mpr ⟨hall, hlater⟩⟩
    · exact Or.inr ⟨value, List.mem_append_right _ hvalue, hdata, herror⟩
  · exact Or.inr ⟨value, List.mem_append_left _ hvalue, hdata, rfl⟩

theorem Settled.map {γ δ : Type} {literals : List Value} {result : Except EncodeError γ}
    (h : Settled literals result) (f : γ → δ) :
    Settled literals (result >>= fun written => .ok (f written)) := by
  have hmapped := h.bind fun written => settled_ok (f written)
  rwa [List.append_nil] at hmapped

mutual

/-- A pattern of the eight kinds can be written down unless one of its literals cannot. -/
theorem settled_ofPattern (p : Pattern Value) (hregular : p.isRegular = true) :
    Settled p.literals (ofPattern p) := by
  cases p with
  | wildcard | typeCheck kind => exact settled_ok _
  | literal value =>
    cases hdata : value.isData with
    | true =>
      refine Or.inl ⟨⟨ofLiteral value, ?_⟩, List.forall_mem_singleton.mpr hdata⟩
      rw [ofPattern, if_pos hdata]
    | false =>
      refine Or.inr ⟨value, List.mem_singleton.mpr rfl, hdata, ?_⟩
      rw [ofPattern, hdata]
      rfl
  | alternation parts => exact (settled_ofPatterns parts hregular).map choice
  | sequence parts => exact (settled_ofPatterns parts hregular).map array
  | repeated inner mode bounds =>
    exact (settled_ofPattern inner hregular).map fun d => repeated mode d (ofBounds bounds)
  | arrayOf inner bounds =>
    exact (settled_ofPattern inner hregular).map fun d => arrayOf d (ofBounds bounds)
  | named label inner => exact (settled_ofPattern inner hregular).map (named label)
  | unspecified tag | misfit flaw value | choiceFrom source parts => cases hregular
termination_by structural p

theorem settled_ofPatterns (ps : List (Pattern Value)) (hregular : Pattern.areRegular ps = true) :
    Settled (Pattern.allLiterals ps) (ofPatterns ps) := by
  cases ps with
  | nil => exact settled_ok _
  | cons p rest =>
    obtain ⟨hp, hrest⟩ := Bool.and_eq_true_iff.mp hregular
    have hfirst := settled_ofPattern p hp
    have hlater := settled_ofPatterns rest hrest
    exact hfirst.bind fun d => hlater.map (d :: ·)
termination_by structural ps

end

end Document

namespace Pattern

/-- Decoding undoes encoding, for every pattern of the eight kinds. It can be encoded just when all
its literals are plain data, and the error names one that is not. What comes out is a document,
and decoding it gives the same pattern back, only with lists for the tuples in its literals; so
without tuples it is the pattern itself. -/
theorem decode_encode (p : Pattern Value) (hregular : p.isRegular = true) :
    ((∃ doc, p.encode = .ok doc) ↔ ∀ value ∈ p.literals, value.isData = true) ∧
    (∀ error, p.encode = .error error →
      ∃ value ∈ p.literals, value.isData = false ∧ error = .literal value) ∧
    ∀ doc, p.encode = .ok doc →
      Document.validate doc = .ok () ∧ decode doc = .ok (p.map Value.asData) ∧
      ((∀ value ∈ p.literals, value.hasTuple = false) → decode doc = .ok p) := by
  have hsettled : Document.Settled p.literals p.encode :=
    (Document.settled_ofPattern p hregular).map Document.toValue
  refine ⟨⟨fun ⟨doc, hdoc⟩ => ?_, fun hall => ?_⟩, fun error herror => ?_, fun doc hdoc => ?_⟩
  · rcases hsettled with ⟨-, hall⟩ | ⟨value, -, -, herror⟩
    · exact hall
    · rw [hdoc] at herror
      cases herror
  · rcases hsettled with ⟨hwritten, -⟩ | ⟨value, hvalue, hdata, -⟩
    · exact hwritten
    · rw [hall value hvalue] at hdata
      cases hdata
  · rcases hsettled with ⟨⟨doc, hdoc⟩, -⟩ | ⟨value, hvalue, hdata, hnamed⟩
    · rw [herror] at hdoc
      cases hdoc
    · rw [herror] at hnamed
      cases hnamed
      exact ⟨value, hvalue, hdata, rfl⟩
  · obtain ⟨d, hd, hwritten⟩ := exists_of_bind_eq_ok hdoc
    cases hwritten
    have hread := Document.ofValue_toValue d (Document.isReadable_ofPattern p hd)
    have hdecode : decode d.toValue = .ok (p.map Value.asData) := by
      rw [decode, hread]
      exact Document.toPattern_ofPattern p hregular hd
    refine ⟨by rw [Document.validate, hread], hdecode, fun htuples => ?_⟩
    rw [hdecode, map_eq_self p hregular fun value hvalue =>
      Value.asData_of_hasTuple value (htuples value hvalue)]

/-- A tuple comes back as a list, and everything around it as it was. -/
theorem decode_encode_tuple :
    let between (value : Value) : Pattern Value := .sequence
      [.named "rest" (.repeated .wildcard .lazy (some ⟨1, 2, by decide⟩)),
        .alternation [.literal value, .arrayOf (.typeCheck .number) none]]
    ∃ doc, (between (.tuple [.int 1, .bool true])).encode = .ok doc ∧
      Document.validate doc = .ok () ∧
      decode doc = .ok (between (.list [.int 1, .bool true])) := by
  intro between
  obtain ⟨hencodes, -, hresult⟩ := decode_encode (between (.tuple [.int 1, .bool true])) rfl
  obtain ⟨doc, hdoc⟩ := hencodes.mpr (by decide)
  obtain ⟨hvalid, hdecode, -⟩ := hresult doc hdoc
  exact ⟨doc, hdoc, hvalid, hdecode⟩

end Pattern

end Motif
