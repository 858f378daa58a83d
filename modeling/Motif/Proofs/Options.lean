import Motif.CommandLine.Options
import Motif.Proofs.Rereading

/-!
Command lines for texts that were written. No written text is taken for an option: the only ones
that start with a hyphen are negative numbers. So the options that a command line was read as,
followed by two such texts, are a command line again, and it is read as the same options.
-/

namespace Motif

namespace Text

theorem digitValue?_of_isDigit {c : Char} (h : Json.isDigit c = true) :
    digitValue? c = some (c.toNat - '0'.toNat) := by
  unfold Json.isDigit asciiDigit? at h
  split at h
  · next hrange =>
    have hfirst : (decide (48 ≤ c.toNat) && decide (c.toNat < 48 + 10)) = true := by
      have hlow : 48 ≤ c.toNat := hrange.1
      have hhigh : c.toNat ≤ 57 := hrange.2
      simp only [Bool.and_eq_true, decide_eq_true_eq]
      omega
    rw [digitValue?, digitZeros, List.find?_cons, hfirst]
    rfl
  · cases h

theorem isPadding_of_isDigit {c : Char} (h : Json.isDigit c = true) : isPadding c = false := by
  unfold Json.isDigit asciiDigit? at h
  split at h
  · next hrange =>
    have hlow : 48 ≤ c.toNat := hrange.1
    have hhigh : c.toNat ≤ 57 := hrange.2
    simp [isPadding, isBlank, blankRuns]
    omega
  · cases h

theorem dropWhile_eq_self {class? : Char → Bool} {text : List Char}
    (h : ∀ c ∈ text, class? c = false) : text.dropWhile class? = text := by
  cases text with
  | nil => rfl
  | cons c rest => exact List.dropWhile_cons_of_neg (by simp [h c List.mem_cons_self])

theorem strip_eq_self {class? : Char → Bool} {text : List Char}
    (h : ∀ c ∈ text, class? c = false) : strip class? text = text := by
  rw [strip, dropWhile_eq_self h, dropWhile_eq_self fun c hc => h c (List.mem_reverse.mp hc),
    List.reverse_reverse]

theorem continueNatural_digits {text : List Char} (h : ∀ c ∈ text, Json.isDigit c = true)
    (value : Nat) : continueNatural value text =
      some (text.foldl (fun n c => 10 * n + (c.toNat - '0'.toNat)) value) := by
  induction text generalizing value with
  | nil => rfl
  | cons c rest ih =>
    obtain ⟨hc, hrest⟩ := List.forall_mem_cons.mp h
    rw [continueNatural.eq_def]
    simp only [digitValue?_of_isDigit hc]
    exact ih hrest _

theorem readNatural?_digits (n : Nat) : readNatural? (Json.digits n) = some n := by
  obtain ⟨c, rest, hdigits, hc⟩ := Json.exists_digits n
  have hall : ∀ d ∈ c :: rest, Json.isDigit d = true :=
    fun d hd => Json.isDigit_of_mem_digits (hdigits ▸ hd)
  have hvalue := Json.naturalOf_digits n
  rw [hdigits] at hvalue ⊢
  rw [readNatural?, digitValue?_of_isDigit hc]
  rw [← hvalue, Json.naturalOf, List.foldl_cons, Nat.mul_zero, Nat.zero_add]
  exact continueNatural_digits (List.forall_mem_cons.mp hall).2 _

/-- An integer is read as it is written. -/
theorem readInteger?_toString (n : Int) : readInteger? (toString n) = some n := by
  have hpadding (n : Nat) : ∀ c ∈ Json.digits n, isPadding c = false :=
    fun c hc => isPadding_of_isDigit (Json.isDigit_of_mem_digits hc)
  cases n with
  | ofNat n =>
    obtain ⟨c, rest, hdigits, hc⟩ := Json.exists_digits n
    have hplus : c ≠ '+' := Json.ne_of_isDigit hc (by decide)
    have hminus : c ≠ '-' := Json.ne_of_isDigit hc (by decide)
    have hread := readNatural?_digits n
    unfold readInteger?
    rw [Json.toList_toString_ofNat, strip_eq_self (hpadding n), hdigits]
    rw [hdigits] at hread
    split
    · next heq => exact absurd (List.cons.inj heq).1 hplus
    · next heq => exact absurd (List.cons.inj heq).1 hminus
    · rw [hread]
      rfl
  | negSucc n =>
    have hstrip : strip isPadding ('-' :: Json.digits (n + 1)) = '-' :: Json.digits (n + 1) :=
      strip_eq_self (List.forall_mem_cons.mpr ⟨by decide, hpadding (n + 1)⟩)
    unfold readInteger?
    rw [Json.toList_toString_negSucc, hstrip]
    simp only [readNatural?_digits]
    rfl

end Text

namespace CommandLine

/-- A text that stands for itself wherever it is given. -/
def IsPlain (text : String) : Prop := classify text = some (.plain text) ∧ text ≠ "--"

theorem isPlain_of_head_ne {c : Char} (hc : c ≠ '-') {rest : List Char} {text : String}
    (htext : text.toList = c :: rest) : IsPlain text := by
  refine ⟨?_, ?_⟩
  · unfold classify
    rw [htext]
    split
    · next heq => exact absurd (List.cons.inj heq).1 hc
    · next heq => exact absurd (List.cons.inj heq).1 hc
    · next heq => exact absurd (List.cons.inj heq).1 hc
    · rfl
  · rintro rfl
    exact hc (List.cons.inj htext).1.symm

theorem isNegativeNumber_digits {text : String} {n : Nat}
    (htext : text.toList = '-' :: Json.digits n) : isNegativeNumber text = true := by
  have hdigit : ∀ c ∈ Json.digits n, (Text.digitValue? c).isSome = true := by
    intro c hc
    rw [Text.digitValue?_of_isDigit (Json.isDigit_of_mem_digits hc)]
    rfl
  have hlast : (Json.digits n).getLast? ≠ some '\n' := by
    intro hlast
    have hbreak := Json.isDigit_of_mem_digits (List.mem_of_getLast? hlast)
    revert hbreak
    decide
  have hdrop : (Json.digits n).dropWhile (fun c => (Text.digitValue? c).isSome) = [] := by
    have happend : (Json.digits n ++ []).dropWhile (fun c => (Text.digitValue? c).isSome) = [] :=
      List.dropWhile_append_of_pos hdigit
    rwa [List.append_nil] at happend
  obtain ⟨c, rest, hdigits, -⟩ := Json.exists_digits n
  unfold isNegativeNumber
  rw [htext]
  simp only [if_neg hlast, hdrop]
  rw [hdigits]
  rfl

theorem isPlain_int (n : Int) : IsPlain (toString n) := by
  cases n with
  | ofNat n =>
    obtain ⟨c, rest, hdigits, hc⟩ := Json.exists_digits n
    exact isPlain_of_head_ne (Json.ne_of_isDigit hc (by decide))
      ((Json.toList_toString_ofNat n).trans hdigits)
  | negSucc n =>
    have htext := Json.toList_toString_negSucc n
    obtain ⟨c, rest, hdigits, hc⟩ := Json.exists_digits (n + 1)
    have hnumber := isNegativeNumber_digits htext
    rw [hdigits] at htext
    refine ⟨?_, fun heq => ?_⟩
    · unfold classify
      rw [htext]
      split
      · next heq =>
        obtain ⟨rfl, -⟩ := List.cons.inj (List.cons.inj heq).2
        cases hc
      · next heq =>
        obtain ⟨rfl, -⟩ := List.cons.inj (List.cons.inj heq).2
        cases hc
      · rw [classifyOther, hnumber]
        rfl
      · next hother => exact absurd rfl (hother c rest)
    · rw [heq] at htext
      obtain ⟨rfl, -⟩ := List.cons.inj (List.cons.inj htext).2
      cases hc

/-- Whatever is written without floating-point numbers is a plain argument. -/
theorem isPlain_write {layout : Json.Layout} {v : Value} (h : v.Spelled false) {text : String}
    (hwrite : Json.write layout v = .ok text) : IsPlain text := by
  obtain ⟨characters, hcharacters, hwrite⟩ := exists_of_bind_eq_ok hwrite
  cases hwrite
  have hplain {c : Char} {rest : List Char} (hc : c ≠ '-') :
      IsPlain (String.ofList (c :: rest)) :=
    isPlain_of_head_ne hc String.toList_ofList
  cases h with
  | null =>
    cases hcharacters
    exact hplain (by decide)
  | bool b =>
    cases b with
    | false =>
      cases hcharacters
      exact hplain (by decide)
    | true =>
      cases hcharacters
      exact hplain (by decide)
  | int n =>
    cases hcharacters
    rw [String.ofList_toList]
    exact isPlain_int n
  | float _ h => cases h
  | str s =>
    cases hcharacters
    exact hplain (by decide)
  | list items _ =>
    rw [Json.writeAt] at hcharacters
    obtain ⟨parts, -, hcharacters⟩ := exists_of_bind_eq_ok hcharacters
    cases hcharacters
    obtain ⟨rest, hrest⟩ := layout.exists_enclose 0 '[' ']' parts
    rw [hrest]
    exact hplain (by decide)
  | record entries _ _ =>
    rw [Value.record, Json.writeAt] at hcharacters
    obtain ⟨parts, -, hcharacters⟩ := exists_of_bind_eq_ok hcharacters
    cases hcharacters
    obtain ⟨rest, hrest⟩ := layout.exists_enclose 0 (Char.ofNat 123) (Char.ofNat 125) parts
    rw [hrest]
    exact hplain (by decide)

namespace Arguments

/-- The options for the number of steps. -/
def stepOptions : Option (Given Int) → List String
  | none => []
  | some .nothing => ["--max-steps=--"]
  | some (.value n) => ["--max-steps", toString n]

/-- Options that say how to match and how to report, as the arguments have it. -/
def options (a : Arguments) : List String :=
  (if a.pretty then ["--pretty"] else []) ++
    ((if a.trace then ["--trace"] else []) ++ stepOptions a.maxSteps)

/-- What the options for the number of steps are taken for. -/
def stepTokens : Option (Given Int) → List Token
  | none => []
  | some .nothing => [.long .maxSteps (some "--")]
  | some (.value n) => [.long .maxSteps none, .plain (toString n)]

def tokens (a : Arguments) : List Token :=
  (if a.pretty then [.long .pretty none] else []) ++
    ((if a.trace then [.long .trace none] else []) ++ stepTokens a.maxSteps)

/-- The arguments with two texts for pattern and input, and nothing to be read elsewhere. -/
def matching (a : Arguments) (patternText inputText : String) : Arguments :=
  ⟨some patternText, some inputText, false, a.pretty, a.trace, false, none, a.maxSteps⟩

theorem classifyAll_cons {text : String} {token : Token} (h : classify text = some token)
    (hne : text ≠ "--") (rest : List String) :
    classifyAll (text :: rest) = (classifyAll rest).map (token :: ·) := by
  rw [classifyAll, if_neg hne, h]
  cases classifyAll rest <;> rfl

theorem classifyAll_stepOptions (steps : Option (Given Int)) (rest : List String) :
    classifyAll (stepOptions steps ++ rest) = (classifyAll rest).map (stepTokens steps ++ ·) := by
  rcases steps with _ | n | _
  · cases hrest : classifyAll rest <;> simp [stepOptions, stepTokens, hrest]
  · obtain ⟨hplain, hne⟩ := isPlain_int n
    have hname : classify "--max-steps" = some (.long .maxSteps none) := rfl
    simp only [stepOptions, List.cons_append, List.nil_append]
    rw [classifyAll_cons hname (by decide), classifyAll_cons hplain hne, Option.map_map]
    rfl
  · have hname : classify "--max-steps=--" = some (.long .maxSteps (some "--")) := rfl
    exact classifyAll_cons hname (by decide) rest

theorem classifyAll_flag {text : String} {name : OptionName}
    (h : classify text = some (.long name none)) (hne : text ≠ "--") (given : Bool)
    (rest : List String) : classifyAll ((if given then [text] else []) ++ rest) =
      (classifyAll rest).map ((if given then [.long name none] else []) ++ ·) := by
  cases given with
  | false => cases hrest : classifyAll rest <;> simp [hrest]
  | true => exact classifyAll_cons h hne rest

theorem classifyAll_options (a : Arguments) (rest : List String) :
    classifyAll (a.options ++ rest) = (classifyAll rest).map (a.tokens ++ ·) := by
  have hpretty : classify "--pretty" = some (.long .pretty none) := rfl
  have htrace : classify "--trace" = some (.long .trace none) := rfl
  rw [options, List.append_assoc, List.append_assoc, classifyAll_flag hpretty (by decide),
    classifyAll_flag htrace (by decide), classifyAll_stepOptions, Option.map_map, Option.map_map]
  simp only [tokens, Function.comp_def, List.append_assoc]

/-- Whatever follows some tokens, using them turns some arguments into others. -/
def Uses (fileExists : String → Bool) (a : Arguments) (tokens : List Token) (a' : Arguments) :
    Prop :=
  ∀ (fuel : Nat) (rest : List Token) (opened leftOver : Bool),
    tokens.length + rest.length ≤ fuel →
      ∃ less, rest.length ≤ less ∧
        useTokens fileExists fuel ⟨a, opened, leftOver⟩ (tokens ++ rest) =
          useTokens fileExists less ⟨a', opened, leftOver⟩ rest

section

variable {fileExists : String → Bool} {a b c : Arguments}

theorem Uses.nil : Uses fileExists a [] a := by
  intro fuel rest opened leftOver hfuel
  exact ⟨fuel, by simpa using hfuel, rfl⟩

theorem Uses.append {first later : List Token} (h : Uses fileExists a first b)
    (hlater : Uses fileExists b later c) : Uses fileExists a (first ++ later) c := by
  intro fuel rest opened leftOver hfuel
  rw [List.length_append, Nat.add_assoc, ← List.length_append] at hfuel
  obtain ⟨between, hbetween, hfirst⟩ := h fuel (later ++ rest) opened leftOver hfuel
  rw [List.length_append] at hbetween
  obtain ⟨less, hless, hrest⟩ := hlater between rest opened leftOver hbetween
  exact ⟨less, hless, by rw [List.append_assoc, hfirst, hrest]⟩

/-- One turn may use up one token or two. -/
theorem Uses.of_turn {tokens : List Token} (hpos : 0 < tokens.length)
    (h : ∀ fuel rest opened leftOver,
      useTokens fileExists (fuel + 1) ⟨a, opened, leftOver⟩ (tokens ++ rest) =
        useTokens fileExists fuel ⟨b, opened, leftOver⟩ rest) : Uses fileExists a tokens b := by
  intro fuel rest opened leftOver hfuel
  obtain ⟨fuel, rfl⟩ : ∃ n, fuel = n + 1 := ⟨fuel - 1, by omega⟩
  exact ⟨fuel, by omega, h fuel rest opened leftOver⟩

theorem uses_flag {name : OptionName} (hname : name.takesArgument = false)
    (hset : a.setFlag name = .ok b) : Uses fileExists a [.long name none] b := by
  refine Uses.of_turn Nat.one_pos fun fuel rest opened leftOver => ?_
  rw [List.singleton_append, useTokens.eq_def]
  simp only [hname, hset, Bool.false_eq_true, if_false, Option.isSome_none, bind, Except.bind]

/-- A flag that is there changes the arguments, and one that is not leaves them as they are. -/
theorem uses_given {name : OptionName} (hname : name.takesArgument = false) (given : Bool)
    (hset : given = true → a.setFlag name = .ok b) (hsame : given = false → b = a) :
    Uses fileExists a (if given then [.long name none] else []) b := by
  cases given with
  | false =>
    rw [hsame rfl]
    exact Uses.nil
  | true => exact uses_flag hname (hset rfl)

theorem uses_stepTokens (a : Arguments) (steps : Option (Given Int)) (ha : a.maxSteps = none) :
    Uses fileExists a (stepTokens steps) { a with maxSteps := steps } := by
  rcases steps with _ | n | _
  · have hsame : { a with maxSteps := none } = a := by rw [← ha]
    rw [hsame]
    exact Uses.nil
  · have hset : a.setArgument fileExists .maxSteps (toString n) =
        .ok { a with maxSteps := some (.value n) } := by
      rw [setArgument, if_neg (isPlain_int n).2, Text.readInteger?_toString]
    refine Uses.of_turn (Nat.zero_lt_succ 1) fun fuel rest opened leftOver => ?_
    simp only [stepTokens, List.cons_append, List.nil_append]
    rw [useTokens]
    simp only [OptionName.takesArgument, if_true, hset, bind, Except.bind]
  · exact Uses.of_turn Nat.one_pos fun _ _ _ _ => rfl

theorem uses_tokens (fileExists : String → Bool) (a : Arguments) :
    Uses fileExists Progress.initial.arguments a.tokens
      ⟨none, none, false, a.pretty, a.trace, false, none, a.maxSteps⟩ := by
  have hpretty : Uses fileExists Progress.initial.arguments
      (if a.pretty then [.long .pretty none] else [])
      ⟨none, none, false, a.pretty, false, false, none, none⟩ :=
    uses_given rfl a.pretty (fun h => by rw [h]; rfl) (fun h => by rw [h]; rfl)
  have htrace : Uses fileExists ⟨none, none, false, a.pretty, false, false, none, none⟩
      (if a.trace then [.long .trace none] else [])
      ⟨none, none, false, a.pretty, a.trace, false, none, none⟩ :=
    uses_given rfl a.trace (fun h => by rw [h]; rfl) (fun h => by rw [h])
  exact hpretty.append (htrace.append (uses_stepTokens _ a.maxSteps rfl))

/-- Two plain texts are pattern and input. -/
theorem useTokens_texts {patternText inputText : String} (hpattern : patternText ≠ "--")
    (hinput : inputText ≠ "--") {fuel : Nat} (hfuel : 2 ≤ fuel) (a : Arguments) :
    useTokens fileExists fuel ⟨a, true, false⟩ [.plain patternText, .plain inputText] =
      .ok ⟨{ a with pattern := some patternText, input := some inputText }, false, false⟩ := by
  have htake {text : String} (hne : text ≠ "--") (rest : List Token)
      (hrest : rest.dropWhile Token.isSeparator = rest) :
      Token.takePositional (.plain text :: rest) = (some text, rest) := by
    have hdrop : (Token.plain text :: rest).dropWhile Token.isSeparator = .plain text :: rest := rfl
    unfold Token.takePositional
    rw [hdrop]
    simp [hne, hrest]
  obtain ⟨fuel, rfl⟩ : ∃ n, fuel = n + 2 := ⟨fuel - 2, by omega⟩
  rw [useTokens, if_pos rfl, htake hpattern [.plain inputText] rfl]
  simp only [htake hinput [] rfl]
  rfl

end

/-- The options of some arguments, with two plain texts after them, are read as these arguments. -/
theorem ofStrings_options (a : Arguments) {fileExists : String → Bool}
    {patternText inputText : String} (hpattern : IsPlain patternText)
    (hinput : IsPlain inputText) :
    ofStrings fileExists (a.options ++ [patternText, inputText]) =
      .ok (a.matching patternText inputText) := by
  have htexts : classifyAll [patternText, inputText] =
      some [.plain patternText, .plain inputText] := by
    rw [classifyAll_cons hpattern.1 hpattern.2, classifyAll_cons hinput.1 hinput.2]
    rfl
  obtain ⟨less, hless, hused⟩ := uses_tokens fileExists a
    (a.tokens ++ [Token.plain patternText, .plain inputText]).length
    [.plain patternText, .plain inputText] true false (Nat.le_of_eq List.length_append.symm)
  rw [useTokens_texts hpattern.2 hinput.2 hless] at hused
  rw [ofStrings, classifyAll_options, htexts]
  simp only [Option.map_some, Progress.initial] at hused ⊢
  rw [hused]
  rfl

end Arguments

end CommandLine

end Motif
