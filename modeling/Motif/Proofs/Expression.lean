import Mathlib.Data.List.Forall2
import Motif.Proofs.Checking

/-!
Expressions in which constructors are called, with calls among their arguments to any depth. Whether
a computation comes to a pattern can be told before it is made: a label has to be text and bounds
have to fit, and both can only be given outright, since what comes of a call is a pattern. There is
no other way to fail than by the mistake that is found there, as long as the calls have arguments of
the right number and names.
-/

namespace Motif

/-! ### Arguments and their values -/

theorem rel_getElem? {α β : Type} {R : α → β → Prop} {xs : List α} {ys : List β}
    (h : List.Forall₂ R xs ys) (place : Nat) : Option.Rel R xs[place]? ys[place]? := by
  induction h generalizing place with
  | nil => exact .none
  | cons hfirst _ ih =>
    cases place with
    | zero => exact .some hfirst
    | succ place => exact ih place

namespace Entries

variable {β γ : Type}

/-- Whether a key is found depends on the keys alone. -/
theorem isNone_find?_congr {entries : Entries String β} {others : Entries String γ}
    (h : entries.map Prod.fst = others.map Prod.fst) (key : String) :
    (entries.find? key).isNone = (others.find? key).isNone := by
  induction entries generalizing others with
  | nil =>
    cases others with
    | nil => rfl
    | cons other rest => cases h
  | cons entry rest ih =>
    cases others with
    | nil => cases h
    | cons other later =>
      obtain ⟨hkey, hrest⟩ := List.cons.inj h
      rw [find?, find?, hkey]
      split
      · rfl
      · exact ih hrest

theorem rel_find? {R : β → γ → Prop} {xs : Entries String β} {ys : Entries String γ}
    (h : List.Forall₂ (fun x y => x.1 = y.1 ∧ R x.2 y.2) xs ys) (key : String) :
    Option.Rel R (xs.find? key) (ys.find? key) := by
  induction h with
  | nil => exact .none
  | @cons x y xs ys hfirst _ ih =>
    rw [find?, find?, hfirst.1]
    split
    · exact .some hfirst.2
    · exact ih

theorem keys_eq {R : β → γ → Prop} {xs : Entries String β} {ys : Entries String γ}
    (h : List.Forall₂ (fun x y => x.1 = y.1 ∧ R x.2 y.2) xs ys) :
    xs.map Prod.fst = ys.map Prod.fst := by
  induction h with
  | nil => rfl
  | cons hfirst _ ih => rw [List.map_cons, List.map_cons, hfirst.1, ih]

end Entries

/-- An application in which nothing but the number of places and the names counts. -/
def Application.outline {α : Type} (positional : List α) (named : Entries String α) : Application :=
  ⟨positional.map fun _ => .null, named.mapValues fun _ => .null⟩

/-- Which arguments are taken depends on the number of places and on the names alone. -/
theorem Signature.check_congr (s : Signature) {a b : Application}
    (hplaces : a.positional.length = b.positional.length)
    (hnames : a.named.map Prod.fst = b.named.map Prod.fst) : s.check a = s.check b := by
  have hmissing : s.missing a = s.missing b := by
    simp only [missing, hplaces, Entries.isNone_find?_congr hnames]
  have hkeys (named : Entries String Value) :
      (named.forM fun entry => s.checkName b.positional.length entry.1) =
        (named.map Prod.fst).forM (s.checkName b.positional.length) :=
    List.forM_map.symm
  unfold check
  dsimp only
  rw [hplaces, hkeys, hkeys, hnames, hmissing]

/-- Expressions. An entry of a mapping has a key that is there already. -/
inductive Expression where
  | value (v : Value)
  | seq (form : Form) (items : List Expression)
  | dict (entries : List (Value × Expression))
  | call (b : Builder) (positional : List Expression) (named : List (String × Expression))

namespace Expression

mutual

/-- What comes of an expression. Its parts are computed from left to right. -/
def evaluate : Expression → Except ConstructorError Value
  | value v => .ok v
  | seq form items => do return .seq form (← evaluateAll items)
  | dict entries => do return .dict (← evaluateEntries entries)
  | call b positional named => do
    let places ← evaluateAll positional
    let names ← evaluateNamed named
    return .pattern (← b.constructor ⟨places, names⟩)
termination_by structural e => e

def evaluateAll : List Expression → Except ConstructorError (List Value)
  | [] => .ok []
  | e :: rest => do
    let v ← evaluate e
    let vs ← evaluateAll rest
    return v :: vs
termination_by structural es => es

def evaluateEntries : List (Value × Expression) → Except ConstructorError (List (Value × Value))
  | [] => .ok []
  | (key, e) :: rest => do
    let v ← evaluate e
    let entries ← evaluateEntries rest
    return (key, v) :: entries
termination_by structural entries => entries

def evaluateNamed : List (String × Expression) → Except ConstructorError (Entries String Value)
  | [] => .ok []
  | (name, e) :: rest => do
    let v ← evaluate e
    let names ← evaluateNamed rest
    return (name, v) :: names
termination_by structural named => named

end

mutual

/-- Whether each call has arguments of the right number and names. -/
def isApplied : Expression → Bool
  | value _ => true
  | seq _ items => areApplied items
  | dict entries => entriesApplied entries
  | call b positional named =>
    areApplied positional && namedApplied named &&
      (b.signature.check (.outline positional named)).isOk
termination_by structural e => e

def areApplied : List Expression → Bool
  | [] => true
  | e :: rest => isApplied e && areApplied rest
termination_by structural es => es

def entriesApplied : List (Value × Expression) → Bool
  | [] => true
  | (_, e) :: rest => isApplied e && entriesApplied rest
termination_by structural entries => entries

def namedApplied : List (String × Expression) → Bool
  | [] => true
  | (_, e) :: rest => isApplied e && namedApplied rest
termination_by structural named => named

end

def isText : Expression → Bool
  | value v => v.isText
  | _ => false

/-- Whether two expressions can be the bounds of a repetition. -/
def fits : Expression → Expression → Bool
  | value min, value max => Construct.fits min max
  | _, _ => false

/-- The argument for the parameter at a place. -/
def argumentAt (s : Signature) (positional : List Expression) (named : Entries String Expression)
    (place : Nat) : Expression :=
  let given := positional[place]?.or <|
    s.parameters[place]?.bind fun parameter =>
      (named.find? parameter.name).or (parameter.standard.map value)
  given.getD (value .null)

/-- Whether the label and the bounds among the arguments of a constructor are as they should be. -/
def suits (b : Builder) (argument : Nat → Expression) : Bool :=
  match b with
  | .greedy | .lazy | .arrayOf => (argument 1).fits (argument 2)
  | .named => (argument 0).isText
  | .sequence | .alternation | .literal | .compile => true

mutual

/-- Whether some label in an expression is no text or some bounds do not fit. -/
def isFaulty : Expression → Bool
  | value _ => false
  | seq _ items => areFaulty items
  | dict entries => entriesFaulty entries
  | call b positional named =>
    areFaulty positional || (namedFaulty named ||
      !suits b (argumentAt b.signature positional named))
termination_by structural e => e

def areFaulty : List Expression → Bool
  | [] => false
  | e :: rest => isFaulty e || areFaulty rest
termination_by structural es => es

def entriesFaulty : List (Value × Expression) → Bool
  | [] => false
  | (_, e) :: rest => isFaulty e || entriesFaulty rest
termination_by structural entries => entries

def namedFaulty : List (String × Expression) → Bool
  | [] => false
  | (_, e) :: rest => isFaulty e || namedFaulty rest
termination_by structural named => named

end

/-! ### Computed arguments -/

/-- The arguments come to values one by one. -/
theorem forall₂_of_evaluateAll {es : List Expression} {vs : List Value}
    (h : evaluateAll es = .ok vs) : List.Forall₂ (fun e v => e.evaluate = .ok v) es vs := by
  induction es generalizing vs with
  | nil =>
    cases h
    exact .nil
  | cons e rest ih =>
    obtain ⟨v, hv, h⟩ := exists_of_bind_eq_ok h
    obtain ⟨later, hlater, h⟩ := exists_of_bind_eq_ok h
    cases h
    exact .cons hv (ih hlater)

theorem forall₂_of_evaluateNamed {named : List (String × Expression)} {names : Entries String Value}
    (h : evaluateNamed named = .ok names) :
    List.Forall₂ (fun given made => given.1 = made.1 ∧ given.2.evaluate = .ok made.2)
      named names := by
  induction named generalizing names with
  | nil =>
    cases h
    exact .nil
  | cons given rest ih =>
    obtain ⟨v, hv, h⟩ := exists_of_bind_eq_ok h
    obtain ⟨later, hlater, h⟩ := exists_of_bind_eq_ok h
    cases h
    exact .cons ⟨rfl, hv⟩ (ih hlater)

section

variable {b : Builder} {positional : List Expression} {named : List (String × Expression)}
  {places : List Value} {names : Entries String Value}

/-- The value of a parameter is what its argument comes to. -/
theorem evaluate_argumentAt (s : Signature) (hplaces : evaluateAll positional = .ok places)
    (hnames : evaluateNamed named = .ok names) (place : Nat) :
    (argumentAt s positional named place).evaluate = .ok (s.valueAt ⟨places, names⟩ place) := by
  have hplace := rel_getElem? (forall₂_of_evaluateAll hplaces) place
  unfold argumentAt Signature.valueAt
  dsimp only
  generalize positional[place]? = given at hplace ⊢
  generalize places[place]? = made at hplace ⊢
  cases hplace with
  | some h => exact h
  | none =>
    -- What has no place is given by name, or it is left to the standard value.
    cases s.parameters[place]? with
    | none => rfl
    | some parameter =>
      have hname := Entries.rel_find? (R := fun e v => evaluate e = .ok v)
        (forall₂_of_evaluateNamed hnames) parameter.name
      simp only [Option.none_or, Option.bind_some]
      generalize Entries.find? parameter.name named = given at hname ⊢
      generalize Entries.find? parameter.name names = made at hname ⊢
      cases hname with
      | some h => exact h
      | none => cases parameter.standard <;> rfl

/-- Arguments that are taken before they are computed are taken afterwards. -/
theorem check_of_outline {s : Signature}
    (h : (s.check (.outline positional named)).isOk = true)
    (hplaces : evaluateAll positional = .ok places) (hnames : evaluateNamed named = .ok names) :
    s.check ⟨places, names⟩ = .ok () := by
  have hlength : (positional.map fun _ => Value.null).length = places.length := by
    rw [List.length_map, (forall₂_of_evaluateAll hplaces).length_eq]
  have hkeys : (Entries.mapValues (fun _ => Value.null) named).map Prod.fst =
      names.map Prod.fst := by
    rw [Entries.mapValues, List.map_map]
    exact Entries.keys_eq (R := fun e v => evaluate e = .ok v) (forall₂_of_evaluateNamed hnames)
  rw [s.check_congr (a := .outline positional named) (b := ⟨places, names⟩) hlength hkeys] at h
  cases hcheck : s.check ⟨places, names⟩ with
  | ok _ => rfl
  | error error =>
    rw [hcheck] at h
    cases h

end

/-- A value that is not given outright is a sequence, a mapping or a pattern, and so neither text
nor an end of some bounds. -/
theorem eq_value_or_of_evaluate {e : Expression} {v : Value} (h : e.evaluate = .ok v) :
    e = value v ∨
      (e.isText = v.isText ∧ ∀ f w, e.fits f = Construct.fits v w ∧
        f.fits e = Construct.fits w v) := by
  cases e with
  | value w =>
    cases h
    exact .inl rfl
  | seq form items =>
    obtain ⟨vs, -, h⟩ := exists_of_bind_eq_ok h
    cases h
    exact .inr ⟨rfl, fun f w => ⟨rfl, by cases f <;> cases w <;> rfl⟩⟩
  | dict entries =>
    obtain ⟨vs, -, h⟩ := exists_of_bind_eq_ok h
    cases h
    exact .inr ⟨rfl, fun f w => ⟨rfl, by cases f <;> cases w <;> rfl⟩⟩
  | call b positional named =>
    obtain ⟨places, -, h⟩ := exists_of_bind_eq_ok h
    obtain ⟨names, -, h⟩ := exists_of_bind_eq_ok h
    obtain ⟨p, -, h⟩ := exists_of_bind_eq_ok h
    cases h
    exact .inr ⟨rfl, fun f w => ⟨rfl, by cases f <;> cases w <;> rfl⟩⟩

theorem isText_of_evaluate {e : Expression} {v : Value} (h : e.evaluate = .ok v) :
    e.isText = v.isText := by
  rcases eq_value_or_of_evaluate h with rfl | ⟨htext, -⟩
  · rfl
  · exact htext

theorem fits_of_evaluate {e f : Expression} {v w : Value} (he : e.evaluate = .ok v)
    (hf : f.evaluate = .ok w) : e.fits f = Construct.fits v w := by
  rcases eq_value_or_of_evaluate he with rfl | ⟨-, hcomputed⟩
  · rcases eq_value_or_of_evaluate hf with rfl | ⟨-, hcomputed⟩
    · rfl
    · exact (hcomputed _ _).2
  · exact (hcomputed _ _).1

/-! ### Computing an expression -/

/-- A computation comes to something unless it is faulty, and then it ends with a mistake in the
use of a constructor. -/
def Settles {α : Type} (faulty : Bool) (result : Except ConstructorError α) : Prop :=
  match faulty with
  | false => ∃ made, result = .ok made
  | true => ∃ error, result = .error (.usage error)

namespace Settles

variable {α β : Type} {faulty later : Bool} {first : Except ConstructorError α}

theorem bind {next : α → Except ConstructorError β} (hfirst : Settles faulty first)
    (hnext : ∀ made, first = .ok made → Settles later (next made)) :
    Settles (faulty || later) (first >>= next) := by
  cases faulty with
  | false =>
    obtain ⟨made, rfl⟩ := hfirst
    exact hnext made rfl
  | true =>
    obtain ⟨error, rfl⟩ := hfirst
    exact ⟨error, rfl⟩

theorem map (h : Settles faulty first) (f : α → β) :
    Settles faulty (first >>= fun made => pure (f made)) := by
  cases faulty with
  | false =>
    obtain ⟨made, rfl⟩ := h
    exact ⟨f made, rfl⟩
  | true =>
    obtain ⟨error, rfl⟩ := h
    exact ⟨error, rfl⟩

/-- What is made of bounds alone is faulty just if they do not fit. -/
theorem bounded (make : Option Bounds → Pattern Value) (min max : Value) :
    Settles (!Construct.fits min max)
      (Constructor.usage (Construct.bounds min max >>= fun b => pure (make b))) := by
  cases hfits : Construct.fits min max with
  | true =>
    obtain ⟨b, hb⟩ := Construct.fits_iff.mp hfits
    rw [hb]
    exact ⟨make b, rfl⟩
  | false =>
    obtain ⟨error, herror⟩ := Construct.exists_error_of_fits hfits
    rw [herror]
    exact ⟨error, rfl⟩

theorem array (inner : Pattern Value) (min max : Value) :
    Settles (!Construct.fits min max) (Constructor.usage (Construct.array inner min max)) :=
  bounded (.arrayOf inner) min max

theorem repetition (inner : Pattern Value) (mode : Mode) (min max : Value) :
    Settles (!Construct.fits min max)
      (Constructor.usage (Construct.repetition inner (.str mode.name) min max)) := by
  rw [Construct.repetition, Construct.mode_name]
  exact bounded (.repeated inner mode) min max

theorem labelled (label : Value) (inner : Pattern Value) :
    Settles (!label.isText) (Constructor.usage (Construct.labelled label inner)) := by
  cases label with
  | str label => exact ⟨_, rfl⟩
  | _ => exact ⟨_, rfl⟩

end Settles

theorem settles_constructor {b : Builder} {positional : List Expression}
    {named : List (String × Expression)} {places : List Value} {names : Entries String Value}
    (htaken : (b.signature.check (.outline positional named)).isOk = true)
    (hplaces : evaluateAll positional = .ok places) (hnames : evaluateNamed named = .ok names) :
    Settles (!suits b (argumentAt b.signature positional named))
      (b.constructor ⟨places, names⟩) := by
  rw [Builder.constructor_eq (check_of_outline htaken hplaces hnames)]
  have hargument := evaluate_argumentAt b.signature hplaces hnames
  cases b with
  | greedy =>
    rw [suits, fits_of_evaluate (hargument 1) (hargument 2)]
    exact .repetition _ .greedy _ _
  | lazy =>
    rw [suits, fits_of_evaluate (hargument 1) (hargument 2)]
    exact .repetition _ .lazy _ _
  | arrayOf =>
    rw [suits, fits_of_evaluate (hargument 1) (hargument 2)]
    exact .array _ _ _
  | named =>
    rw [suits, isText_of_evaluate (hargument 0)]
    exact .labelled _ _
  | sequence | alternation | literal | compile => exact ⟨_, rfl⟩

mutual

/-- An expression with calls that have the right arguments comes to a value, unless a label or some
bounds are wrong. -/
theorem settles (e : Expression) (h : e.isApplied = true) : Settles e.isFaulty e.evaluate := by
  cases e with
  | value v => exact ⟨v, rfl⟩
  | seq form items => exact (settlesAll items h).map (Value.seq form)
  | dict entries => exact (settlesEntries entries h).map Value.dict
  | call b positional named =>
    obtain ⟨hparts, htaken⟩ := Bool.and_eq_true_iff.mp h
    obtain ⟨hpositional, hnamed⟩ := Bool.and_eq_true_iff.mp hparts
    refine (settlesAll positional hpositional).bind fun places hplaces => ?_
    refine (settlesNamed named hnamed).bind fun names hnames => ?_
    exact (settles_constructor htaken hplaces hnames).map Value.pattern
termination_by structural e

theorem settlesAll (es : List Expression) (h : areApplied es = true) :
    Settles (areFaulty es) (evaluateAll es) := by
  cases es with
  | nil => exact ⟨[], rfl⟩
  | cons e rest =>
    obtain ⟨hfirst, hrest⟩ := Bool.and_eq_true_iff.mp h
    exact (settles e hfirst).bind fun v _ => (settlesAll rest hrest).map (v :: ·)
termination_by structural es

theorem settlesEntries (entries : List (Value × Expression)) (h : entriesApplied entries = true) :
    Settles (entriesFaulty entries) (evaluateEntries entries) := by
  cases entries with
  | nil => exact ⟨[], rfl⟩
  | cons entry rest =>
    obtain ⟨key, e⟩ := entry
    obtain ⟨hfirst, hrest⟩ := Bool.and_eq_true_iff.mp h
    exact (settles e hfirst).bind fun v _ => (settlesEntries rest hrest).map ((key, v) :: ·)
termination_by structural entries

theorem settlesNamed (named : List (String × Expression)) (h : namedApplied named = true) :
    Settles (namedFaulty named) (evaluateNamed named) := by
  cases named with
  | nil => exact ⟨[], rfl⟩
  | cons given rest =>
    obtain ⟨name, e⟩ := given
    obtain ⟨hfirst, hrest⟩ := Bool.and_eq_true_iff.mp h
    exact (settles e hfirst).bind fun v _ => (settlesNamed rest hrest).map ((name, v) :: ·)
termination_by structural named

end

/-- Construction comes to a pattern, or it ends with a mistake of use, and the latter just when a
label is no text or some bounds do not fit. The pattern is the one that the outermost constructor is
told to make, with whatever the matcher relies on in each of its nodes. The checks, which compare
values of any kind, come to the same as the constructor, so that none of them fails itself. What is
decoded is the pattern that its document tells to make, and it is as sound as what is constructed.
-/
theorem evaluate_call (b : Builder) (positional : List Expression)
    (named : List (String × Expression)) (happlied : (call b positional named).isApplied = true) :
    ((call b positional named).isFaulty = false →
      ∃ places names p, evaluateAll positional = .ok places ∧ evaluateNamed named = .ok names ∧
        (call b positional named).evaluate = .ok (.pattern p) ∧
        p.draft = b.draft ⟨places, names⟩ ∧ (b.draft ⟨places, names⟩).check = .ok () ∧
        ∀ q ∈ p.nodes, q.draft.WellFormed) ∧
    ((call b positional named).isFaulty = true →
      ∃ error, (call b positional named).evaluate = .error (.usage error) ∧
        ∀ places names, evaluateAll positional = .ok places → evaluateNamed named = .ok names →
          (b.draft ⟨places, names⟩).check = .error (.usage error.message)) ∧
    ∀ given p, Pattern.decode given = .ok p →
      ∃ d, Document.ofValue given = some d ∧ d.draft = .ok p.draft ∧ p.draft.check = .ok () ∧
        ∀ q ∈ p.nodes, q.draft.WellFormed := by
  have hsettles := settles (call b positional named) happlied
  have htaken := (Bool.and_eq_true_iff.mp happlied).2
  refine ⟨fun hfaulty => ?_, fun hfaulty => ?_, fun given p hdecoded => ?_⟩
  · rw [hfaulty] at hsettles
    obtain ⟨v, hv⟩ := hsettles
    obtain ⟨places, hplaces, h⟩ := exists_of_bind_eq_ok hv
    obtain ⟨names, hnames, h⟩ := exists_of_bind_eq_ok h
    obtain ⟨p, hp, h⟩ := exists_of_bind_eq_ok h
    cases h
    have hcheck := check_of_outline htaken hplaces hnames
    obtain ⟨hdraft, hchecked⟩ := Builder.draft_of_constructor hcheck hp
    exact ⟨places, names, p, hplaces, hnames, hv, hdraft, hchecked,
      fun q _ => q.wellFormed_draft⟩
  · rw [hfaulty] at hsettles
    obtain ⟨error, herror⟩ := hsettles
    refine ⟨error, herror, fun places names hplaces hnames => ?_⟩
    have hcheck := check_of_outline htaken hplaces hnames
    rw [evaluate, hplaces, hnames] at herror
    change (b.constructor ⟨places, names⟩ >>= fun p => pure (Value.pattern p)) = _ at herror
    cases hmade : b.constructor ⟨places, names⟩ with
    | ok p =>
      rw [hmade] at herror
      cases herror
    | error found =>
      rw [hmade] at herror
      cases herror
      exact Builder.check_of_constructor hcheck hmade
  · obtain ⟨d, hread, hp⟩ := Document.decode_eq_ok.mp hdecoded
    obtain ⟨hdraft, hchecked⟩ := Document.draft_of_toPattern hp
    exact ⟨d, hread, hdraft, hchecked, fun q _ => q.wellFormed_draft⟩

/-- A bound that is text is found before it is compared with a number. -/
theorem evaluate_call_mistaken :
    let sound := call .named [value (.str "xs"),
      call .greedy [] [("max", value (.int 2)), ("min", value (.int 0))]] []
    let mistaken := call .sequence [value (.int 1),
      call .named [value (.str "xs"),
        call .greedy [] [("max", value (.int 2)), ("min", value (.str "0"))]] []] []
    sound.isApplied = true ∧ mistaken.isApplied = true ∧
      (∃ p, sound.evaluate = .ok (.pattern p) ∧ ∀ q ∈ p.nodes, q.draft.WellFormed) ∧
      ∃ error, mistaken.evaluate = .error (.usage error) := by
  intro sound mistaken
  have hsound : sound.isApplied = true := rfl
  have hmistaken : mistaken.isApplied = true := rfl
  obtain ⟨_, _, p, _, _, hp, _, _, hnodes⟩ := (evaluate_call _ _ _ hsound).1 rfl
  obtain ⟨error, herror, _⟩ := (evaluate_call _ _ _ hmistaken).2.1 rfl
  exact ⟨hsound, hmistaken, ⟨p, hp, hnodes⟩, error, herror⟩

end Expression

end Motif
