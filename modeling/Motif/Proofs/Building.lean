import Motif.Document.Codec
import Motif.Proofs.Structure

/-!
Where sound patterns come from. The constructors add nodes that can be matched, so
what they build is sound if the patterns that were handed to them are. The decoder
is handed plain data and no patterns, so what it builds is always sound.
-/

namespace Motif

theorem exists_of_bind_eq_ok {ε α β : Type} {first : Except ε α} {next : α → Except ε β}
    {b : β} (h : first >>= next = .ok b) : ∃ a, first = .ok a ∧ next a = .ok b := by
  cases first with
  | error e => cases h
  | ok a => exact ⟨a, rfl, h⟩

theorem exists_of_map_eq_ok {ε α β : Type} {next : α → β} {result : Except ε α} {b : β}
    (h : result.map next = .ok b) : ∃ a, result = .ok a ∧ next a = b := by
  cases result with
  | error e => cases h
  | ok a =>
    cases h
    exact ⟨a, rfl, rfl⟩

theorem mapError_bind {ε ε' α β : Type} (f : ε → ε') (first : Except ε α) (next : α → Except ε β) :
    (first.mapError f >>= fun a => (next a).mapError f) = (first >>= next).mapError f := by
  cases first <;> rfl

theorem mapError_eq_ok {ε ε' β : Type} (f : ε → ε') {result : Except ε β} {b : β} :
    result.mapError f = .ok b ↔ result = .ok b := by
  constructor
  · intro h
    cases result with
    | ok b' =>
      cases h
      rfl
    | error e => cases h
  · intro h
    rw [h]
    rfl

namespace Construct

/-- The patterns that a value hands over: itself, or those among its items. -/
inductive Hands : Value → Pattern Value → Prop
  | pattern {p} : Hands (.pattern p) p
  | item {form items v p} (hv : v ∈ items) (h : Hands v p) : Hands (.seq form items) p

mutual

/-- Constructors that are handed sound patterns build sound ones. -/
theorem isSound_ofValue (v : Value) (hhanded : ∀ p, Hands v p → p.isSound = true) :
    (ofValue v).isSound = true := by
  cases v with
  | pattern p => exact hhanded p .pattern
  | marker m => cases m <;> rfl
  | seq form items => exact areSound_ofValues items fun v hv p hp => hhanded p (.item hv hp)
  | _ => rfl
termination_by structural v

theorem areSound_ofValues (vs : List Value)
    (hhanded : ∀ v ∈ vs, ∀ p, Hands v p → p.isSound = true) :
    Pattern.areSound (ofValues vs) = true := by
  cases vs with
  | nil => rfl
  | cons v rest =>
    obtain ⟨hv, hrest⟩ := List.forall_mem_cons.mp hhanded
    have hfirst := isSound_ofValue v hv
    have hlater := areSound_ofValues rest hrest
    rw [ofValues, Pattern.areSound, hfirst, hlater]
    rfl
termination_by structural vs

end

variable {inner p : Pattern Value} {preference min max label : Value}

theorem isSound_repetition (h : repetition inner preference min max = .ok p) :
    p.isSound = inner.isSound := by
  obtain ⟨mode, _, h⟩ := exists_of_bind_eq_ok h
  obtain ⟨bounds, _, h⟩ := exists_of_bind_eq_ok h
  cases h
  rfl

theorem isSound_array (h : array inner min max = .ok p) : p.isSound = inner.isSound := by
  obtain ⟨bounds, _, h⟩ := exists_of_bind_eq_ok h
  cases h
  rfl

theorem isSound_labelled (h : labelled label inner = .ok p) : p.isSound = inner.isSound := by
  unfold labelled at h
  split at h
  · cases h
    rfl
  · cases h

end Construct

namespace Document

mutual

theorem isSound_toPattern (d : Document) {p : Pattern Value} (h : d.toPattern = .ok p) :
    p.isSound = true := by
  cases d with
  | scalar value | any | check kind | exact value =>
    cases h
    rfl
  | array parts | choice parts | sequence parts =>
    obtain ⟨ps, hps, h⟩ := exists_of_bind_eq_ok h
    cases h
    exact areSound_toPatterns parts hps
  | repeated mode inner bounds =>
    obtain ⟨q, hq, h⟩ := exists_of_bind_eq_ok h
    rw [Construct.isSound_repetition h]
    exact isSound_toPattern inner hq
  | arrayOf inner bounds =>
    obtain ⟨q, hq, h⟩ := exists_of_bind_eq_ok h
    rw [Construct.isSound_array h]
    exact isSound_toPattern inner hq
  | named label inner =>
    obtain ⟨q, hq, h⟩ := exists_of_bind_eq_ok h
    rw [Construct.isSound_labelled h]
    exact isSound_toPattern inner hq
termination_by structural d

theorem areSound_toPatterns (ds : List Document) {ps : List (Pattern Value)}
    (h : toPatterns ds = .ok ps) : Pattern.areSound ps = true := by
  cases ds with
  | nil =>
    cases h
    rfl
  | cons d rest =>
    obtain ⟨q, hq, h⟩ := exists_of_bind_eq_ok h
    obtain ⟨qs, hqs, h⟩ := exists_of_bind_eq_ok h
    cases h
    have hfirst := isSound_toPattern d hq
    have hlater := areSound_toPatterns rest hqs
    rw [Pattern.areSound, hfirst, hlater]
    rfl
termination_by structural ds

end

end Document

namespace Pattern

/-- What is decoded can be matched. -/
theorem isSound_of_decode {v : Value} {p : Pattern Value} (h : decode v = .ok p) :
    p.isSound = true := by
  unfold decode at h
  split at h
  · next document _ => exact document.isSound_toPattern h
  · cases h

end Pattern

namespace Construct

theorem isSound_typeCheck {kind : Value} {p : Pattern Value} (h : typeCheck kind = .ok p) :
    p.isSound = true := by
  unfold typeCheck at h
  split at h
  · split at h
    · cases h
      rfl
    · cases h
  · cases h

theorem map_part_pattern (ps : List (Pattern Value)) : (ps.map Value.pattern).map part = ps := by
  rw [List.map_map]
  exact List.map_id' ps

/-- A choice that takes sound patterns as they are is sound, whatever lists them. -/
theorem isSound_choiceOf {source : Value} {options : List (Pattern Value)}
    (hlisted : source.iterate? = some (options.map .pattern))
    (h : ∀ p ∈ options, p.isSound = true) : (choiceOf source).isSound = true := by
  have hsound := (Pattern.areSound_iff options).mpr h
  unfold choiceOf
  split
  · next items =>
    have hitems : items = options.map .pattern := Option.some.inj hlisted
    rw [hitems, map_part_pattern]
    exact hsound
  · rw [hlisted]
    simp only [map_part_pattern]
    exact hsound

theorem isSound_sequenceOf? {source : Value} {elements : List (Pattern Value)} {p : Pattern Value}
    (hlisted : source.iterate? = some (elements.map .pattern)) (hp : sequenceOf? source = some p)
    (h : ∀ p ∈ elements, p.isSound = true) : p.isSound = true := by
  rw [sequenceOf?, hlisted, Option.map_some, map_part_pattern] at hp
  cases hp
  exact (Pattern.areSound_iff elements).mpr h

/-- The patterns that come from the constructors, the compiler and the decoder, when all patterns
that are handed to them come from there as well. A constructor that takes things in as they are
has to be given patterns. Patterns of unspecified kind come from elsewhere. -/
inductive Built : Pattern Value → Prop
  | ofValue {v} (h : ∀ p, Hands v p → Built p) : Built (ofValue v)
  | literal v : Built (.literal v)
  | alternation {options} (h : ∀ v ∈ options, ∀ p, Hands v p → Built p) :
    Built (alternation options)
  | sequence {elements} (h : ∀ v ∈ elements, ∀ p, Hands v p → Built p) :
    Built (sequence elements)
  | greedy {inner min max p} (h : ∀ p, Hands inner p → Built p)
    (hp : greedy inner min max = .ok p) : Built p
  | lazy {inner min max p} (h : ∀ p, Hands inner p → Built p)
    (hp : lazy inner min max = .ok p) : Built p
  | arrayOf {inner min max p} (h : ∀ p, Hands inner p → Built p)
    (hp : arrayOf inner min max = .ok p) : Built p
  | named {label inner p} (h : ∀ p, Hands inner p → Built p)
    (hp : named label inner = .ok p) : Built p
  | typeCheck {kind p} (hp : typeCheck kind = .ok p) : Built p
  | choiceOf {source} {options : List (Pattern Value)}
    (hlisted : source.iterate? = some (options.map .pattern))
    (h : ∀ p ∈ options, Built p) : Built (choiceOf source)
  | sequenceOf {source} {elements : List (Pattern Value)} {p}
    (hlisted : source.iterate? = some (elements.map .pattern))
    (h : ∀ q ∈ elements, Built q) (hp : sequenceOf? source = some p) : Built p
  | repetition {inner preference min max p} (h : Built inner)
    (hp : repetition inner preference min max = .ok p) : Built p
  | array {inner min max p} (h : Built inner) (hp : array inner min max = .ok p) : Built p
  | labelled {label inner p} (h : Built inner) (hp : labelled label inner = .ok p) : Built p
  | decoded {v p} (hp : Pattern.decode v = .ok p) : Built p

theorem Built.isSound {p : Pattern Value} (h : Built p) : p.isSound = true := by
  induction h with
  | ofValue _ ih => exact isSound_ofValue _ ih
  | literal v => rfl
  | alternation _ ih => exact areSound_ofValues _ ih
  | sequence _ ih => exact areSound_ofValues _ ih
  | greedy _ hp ih =>
    rw [isSound_repetition hp]
    exact isSound_ofValue _ ih
  | lazy _ hp ih =>
    rw [isSound_repetition hp]
    exact isSound_ofValue _ ih
  | arrayOf _ hp ih =>
    rw [isSound_array hp]
    exact isSound_ofValue _ ih
  | named _ hp ih =>
    rw [isSound_labelled hp]
    exact isSound_ofValue _ ih
  | typeCheck hp => exact isSound_typeCheck hp
  | choiceOf hlisted _ ih => exact isSound_choiceOf hlisted ih
  | sequenceOf hlisted _ hp ih => exact isSound_sequenceOf? hlisted hp ih
  | repetition _ hp ih => exact (isSound_repetition hp).trans ih
  | array _ hp ih => exact (isSound_array hp).trans ih
  | labelled _ hp ih => exact (isSound_labelled hp).trans ih
  | decoded hp => exact Pattern.isSound_of_decode hp

end Construct

end Motif
