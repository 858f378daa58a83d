import Motif.Proofs.Command
import Motif.Proofs.Numerals
import Motif.Proofs.Tokens

/-!
Limits from environment variables. A variable asks for its standard value where it is unset or
blank, and otherwise for the integer that its text denotes. If both ask for what a limit can be,
the limits are just that. If the text of one denotes nothing, the message names such a variable. An
integer out of range is refused as well, but then the message speaks of the limit, and neither
variable stands in it.
-/

namespace Motif

namespace LimitVariable

/-- What a variable asks for where the variables are set in a way. -/
inductive Asks (v : LimitVariable) (setting : String → Option String) : Int → Prop
  | unset (hset : setting v.name = none) : Asks v setting v.standard
  | blank {text : String} (hset : setting v.name = some text)
    (h : ∀ c ∈ text.toList, Text.isBlank c = true) : Asks v setting v.standard
  | denoted {text : String} {n : Int} (hset : setting v.name = some text)
    (hsome : ∃ c ∈ text.toList, Text.isBlank c = false) (h : Text.Denotes text n) :
    Asks v setting n

section

variable {v : LimitVariable} {setting : String → Option String} {n : Int}

theorem read_eq_ok_iff : v.read (setting v.name) = .ok n ↔ v.Asks setting n := by
  constructor
  · intro h
    unfold read at h
    split at h
    · next hset =>
      cases h
      exact .unset hset
    · next text hset =>
      split at h
      · next hblank =>
        cases h
        exact .blank hset (List.all_eq_true.mp hblank)
      · next hblank =>
        obtain ⟨c, hc, hnot⟩ := List.all_eq_false.mp (Bool.not_eq_true _ ▸ hblank)
        split at h
        · next found hfound =>
          cases h
          exact .denoted hset ⟨c, hc, by simpa using hnot⟩ (Text.readInteger?_eq_some_iff.mp hfound)
        · cases h
  · intro h
    cases h with
    | unset hset =>
      rw [hset]
      rfl
    | blank hset h =>
      rw [hset]
      exact if_pos (List.all_eq_true.mpr h)
    | @denoted text n hset hsome h =>
      obtain ⟨c, hc, hnot⟩ := hsome
      have hblank : text.toList.all Text.isBlank = false :=
        List.all_eq_false.mpr ⟨c, hc, by simp [hnot]⟩
      simp only [hset, read, hblank, Bool.false_eq_true, if_false,
        Text.readInteger?_eq_some_iff.mpr h]

/-- The only way in which a variable can fail to ask for anything is that its text denotes no
integer. -/
theorem read_of_silent (h : ∀ n, ¬ v.Asks setting n) :
    ∃ text, v.read (setting v.name) = .error (.notInteger v text) := by
  cases hread : v.read (setting v.name) with
  | ok n => exact absurd (read_eq_ok_iff.mp hread) (h n)
  | error e =>
    unfold read at hread
    split at hread
    · cases hread
    · next text _ =>
      split at hread
      · cases hread
      · split at hread
        · cases hread
        · cases hread
          exact ⟨text, rfl⟩

end

end LimitVariable

namespace Limits

open CommandLine

theorem ofValues_of_depth {depth : Int} (h : depth < 1) (maxSteps : Value) :
    ofValues (.int depth) maxSteps = .error (.maxDepth (.int depth)) := by
  unfold ofValues
  split
  · rfl
  · next count hcount =>
    obtain ⟨k, rfl, rfl⟩ := ofValue?_int.mp hcount
    have hzero : ¬ 0 < (Count.number k).value := by
      rw [Count.value]
      omega
    exact dif_neg hzero

theorem ofValues_of_steps {depth steps : Int} (hdepth : 1 ≤ depth) (h : steps < 0) :
    ofValues (.int depth) (.int steps) = .error (.maxSteps (.int steps)) := by
  obtain ⟨k, rfl⟩ := Int.eq_ofNat_of_zero_le (Int.le_trans Int.one_nonneg hdepth)
  have hmade : Count.ofValue? (.int k) = some (.number k) := rfl
  have hpos : 0 < (Count.number k).value := by
    rw [Count.value]
    omega
  have hnone : Count.ofValue? (.int steps) = none := by
    cases hcount : Count.ofValue? (.int steps) with
    | none => rfl
    | some count =>
      obtain ⟨m, rfl, -⟩ := ofValue?_int.mp hcount
      omega
  simp only [ofValues, hmade, dif_pos hpos, hnone]

end Limits

namespace EnvironmentError

/-- The name of a variable stands in the message of an error. -/
def Names (error : EnvironmentError) (v : LimitVariable) : Prop :=
  v.name.toList <:+: error.message.toList

theorem names_notInteger (v : LimitVariable) (text : String) : Names (.notInteger v text) v := by
  unfold Names message
  simp only [String.toList_append]
  rw [List.append_assoc _ _ (Text.quoted text).toList]
  exact List.infix_append _ _ _

theorem notMem_text_int (n : Int) : 'X' ∉ (Value.int n).text.toList := by
  have hdigits (n : Nat) : 'X' ∉ Json.digits n := fun h => by
    cases Json.isDigit_of_mem_digits h
  cases n with
  | ofNat n =>
    rw [Value.text, Json.toList_toString_ofNat]
    exact hdigits n
  | negSucc n =>
    rw [Value.text, Json.toList_toString_negSucc]
    exact List.not_mem_cons_of_ne_of_not_mem (by decide) (hdigits (n + 1))

/-- A limit that is out of range is spoken of as the limit that it is, and not by a variable: the
names of both variables have a letter that the message does without. -/
theorem not_names_limits {error : LimitsError} {n : Int}
    (herror : error = .maxDepth (.int n) ∨ error = .maxSteps (.int n)) (v : LimitVariable) :
    ¬ Names (.limits error) v := by
  have hname : 'X' ∈ v.name.toList := by cases v <;> decide
  have hnumber := notMem_text_int n
  intro hinfix
  have hmem := hinfix.subset hname
  unfold message LimitsError.message at hmem
  rcases herror with rfl | rfl
  all_goals
    simp only [String.toList_append, List.mem_append, hnumber, or_false] at hmem
    revert hmem
    decide

end EnvironmentError

namespace LimitVariable

variable {setting : String → Option String} {depth steps : Int}

theorem ofEnvironment_eq_ok_iff {limits : Limits} :
    Limits.ofEnvironment setting = .ok limits ↔ ∃ depth steps : Nat,
      maxDepth.Asks setting depth ∧ maxSteps.Asks setting steps ∧
        limits.maxDepth = .number depth ∧ limits.maxSteps = .number steps := by
  simp only [CommandLine.ofEnvironment_eq_ok, read_eq_ok_iff]

/-- The depth is looked at before the number of steps. -/
theorem ofEnvironment_of_range (hdepth : maxDepth.Asks setting depth)
    (hsteps : maxSteps.Asks setting steps) (hrange : depth < 1 ∨ steps < 0) :
    Limits.ofEnvironment setting = .error (.limits
      (if depth < 1 then .maxDepth (.int depth) else .maxSteps (.int steps))) := by
  have hmade : Limits.ofValues (.int depth) (.int steps) =
      .error (if depth < 1 then .maxDepth (.int depth) else .maxSteps (.int steps)) := by
    split
    · next hlow => exact Limits.ofValues_of_depth hlow _
    · next hhigh =>
      exact Limits.ofValues_of_steps (Int.not_lt.mp hhigh) (hrange.resolve_left hhigh)
  simp only [Limits.ofEnvironment, read_eq_ok_iff.mpr hdepth, read_eq_ok_iff.mpr hsteps, bind,
    Except.bind, hmade]

theorem ofEnvironment_of_silent {v : LimitVariable} (hsilent : ∀ n, ¬ v.Asks setting n) :
    ∃ first text, (∀ n, ¬ first.Asks setting n) ∧
      Limits.ofEnvironment setting = .error (.notInteger first text) := by
  cases hdepth : maxDepth.read (setting maxDepth.name) with
  | error error =>
    have hnone : ∀ n, ¬ maxDepth.Asks setting n := fun n hn => by
      rw [read_eq_ok_iff.mpr hn] at hdepth
      cases hdepth
    obtain ⟨text, hread⟩ := read_of_silent hnone
    refine ⟨maxDepth, text, hnone, ?_⟩
    simp only [Limits.ofEnvironment, hread, bind, Except.bind]
  | ok depth =>
    cases v with
    | maxDepth => exact absurd (read_eq_ok_iff.mp hdepth) (hsilent depth)
    | maxSteps =>
      obtain ⟨text, hread⟩ := read_of_silent hsilent
      refine ⟨maxSteps, text, hsilent, ?_⟩
      simp only [Limits.ofEnvironment, hdepth, hread, bind, Except.bind]

/-- What comes of every setting of the two variables. The limits are just what the variables ask
for, if both ask for what a limit can be. If the text of one denotes no integer, they are refused,
and such a variable is named. If both ask for integers and one of these is out of range, the limits
are refused too, but the message speaks of the limit and names no variable. -/
theorem ofEnvironment_answers (setting : String → Option String) :
    (∀ depth steps, maxDepth.Asks setting depth → maxSteps.Asks setting steps →
      1 ≤ depth → 0 ≤ steps → ∃ limits, Limits.ofEnvironment setting = .ok limits) ∧
    (∀ limits, Limits.ofEnvironment setting = .ok limits ↔ ∃ depth steps : Nat,
      maxDepth.Asks setting depth ∧ maxSteps.Asks setting steps ∧
        limits.maxDepth = .number depth ∧ limits.maxSteps = .number steps) ∧
    (∀ v : LimitVariable, (∀ n, ¬ v.Asks setting n) →
      ∃ error first, Limits.ofEnvironment setting = .error error ∧
        (∀ n, ¬ first.Asks setting n) ∧ error.Names first) ∧
    ∀ depth steps, maxDepth.Asks setting depth → maxSteps.Asks setting steps →
      depth < 1 ∨ steps < 0 → ∃ error, Limits.ofEnvironment setting = .error (.limits error) ∧
        error = (if depth < 1 then .maxDepth (.int depth) else .maxSteps (.int steps)) ∧
        ∀ v, ¬ (EnvironmentError.limits error).Names v := by
  refine ⟨?_, fun limits => ofEnvironment_eq_ok_iff, ?_, ?_⟩
  · intro depth steps hdepth hsteps hlow hnonneg
    obtain ⟨d, rfl⟩ := Int.eq_ofNat_of_zero_le (Int.le_trans Int.one_nonneg hlow)
    obtain ⟨k, rfl⟩ := Int.eq_ofNat_of_zero_le hnonneg
    exact ⟨⟨.number d, .number k, Int.ofNat_le.mp hlow⟩,
      ofEnvironment_eq_ok_iff.mpr ⟨d, k, hdepth, hsteps, rfl, rfl⟩⟩
  · intro v hsilent
    obtain ⟨first, text, hfirst, herror⟩ := ofEnvironment_of_silent hsilent
    exact ⟨_, first, herror, hfirst, EnvironmentError.names_notInteger first text⟩
  · intro depth steps hdepth hsteps hrange
    refine ⟨_, ofEnvironment_of_range hdepth hsteps hrange, rfl, fun v => ?_⟩
    split
    · exact EnvironmentError.not_names_limits (.inl rfl) v
    · exact EnvironmentError.not_names_limits (.inr rfl) v

/-- A sign, an underscore and digits of two scripts for the depth, and blanks for the steps. -/
theorem ofEnvironment_answers_scripts :
    let setting : String → Option String := fun name =>
      if name = maxDepth.name then some " +1_٢\n" else some "\t"
    maxDepth.Asks setting 12 ∧ maxSteps.Asks setting 0 ∧
      ∃ limits, Limits.ofEnvironment setting = .ok limits := by
  intro setting
  have hnumeral : Text.Numeral ['1', '_', '٢'] [1, 2] :=
    .underscore (by decide) (.last (by decide))
  have hdenotes : Text.Denotes " +1_٢\n" 12 :=
    ⟨[' '], ['+', '1', '_', '٢'], ['\n'], by decide, List.forall_mem_singleton.mpr (by decide),
      List.forall_mem_singleton.mpr (by decide), .plus hnumeral⟩
  have hdepth : maxDepth.Asks setting 12 := .denoted rfl ⟨'+', by decide⟩ hdenotes
  have htab : "\t".toList = ['\t'] := by decide
  have hsteps : maxSteps.Asks setting 0 := by
    refine .blank rfl ?_
    rw [htab]
    exact List.forall_mem_singleton.mpr (by decide)
  exact ⟨hdepth, hsteps, (ofEnvironment_answers setting).1 12 0 hdepth hsteps (by decide)
    (by decide)⟩

/-- A depth of zero is refused without the name of the variable that asks for it. -/
theorem ofEnvironment_zero :
    let setting : String → Option String := fun name =>
      if name = maxDepth.name then some "0" else none
    maxDepth.Asks setting 0 ∧
      ∃ error, Limits.ofEnvironment setting = .error error ∧ ∀ v, ¬ error.Names v := by
  intro setting
  have hdenotes : Text.Denotes "0" 0 :=
    ⟨[], ['0'], [], by decide, List.forall_mem_nil _, List.forall_mem_nil _,
      .plain (.last (by decide))⟩
  have hdepth : maxDepth.Asks setting 0 := .denoted rfl ⟨'0', by decide⟩ hdenotes
  have hsteps : maxSteps.Asks setting 0 := .unset rfl
  exact ⟨hdepth, _, ofEnvironment_of_range hdepth hsteps (.inl (by decide)),
    EnvironmentError.not_names_limits (.inl rfl)⟩

end LimitVariable

end Motif
