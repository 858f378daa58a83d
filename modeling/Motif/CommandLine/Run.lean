import Motif.CommandLine.Options
import Motif.Document.Codec
import Motif.Limits.Environment
import Motif.Matching
import Motif.Render

/-!
The command: match one JSON value against one pattern document and report the
result as JSON. It exits with 0 for a match, with 1 for none, also when a limit
stops the search, and with 2 when pattern, input or limits are invalid. The
pattern is looked at first, then the input, then the limits.

All texts are made of whole characters. Where a JSON text spells half a character in an
escape, it is left open what the command does. Neither the depth of calls nor the number
of digits is bounded, and the shared tracer stays off.
-/

namespace Motif.CommandLine

def schemaTag : String := "shapematch-match.v1"

def schemaDocument : String := "shapematch/schemas/match_result.v1.json"

/-- What the command can look at besides its arguments. -/
structure Surroundings where
  stdin : String
  file : String → Option String
  environment : String → Option String

/-- Why pattern, input or limits are invalid. -/
inductive InputError where
  | pattern (error : UsageError)
  | inputText
  | noInput
  | environment (error : EnvironmentError)
  | limits (error : LimitsError)

/-- What is said about invalid input. After the messages about a document, its text and the text of
the input, more may follow: the place of the mistake and the reason. -/
def InputError.message : InputError → String
  | .pattern error => error.message
  | .inputText => "Input must be JSON"
  | .noInput => "No input provided. Use positional JSON, --input-file, or --stdin."
  | .environment error => error.message
  | .limits error => error.message

inductive Result where
  | finished (exit : Nat) (stdout stderr : String)
  /-- The arguments were not used: help was asked for, or they are wrong. -/
  | stopped (stop : Stop)

def Stop.exit : Stop → Nat
  | .help => 0
  | .usage => 2

/-- What the command does not report but fails with. -/
inductive Failure where
  | noFile
  /-- A text spells half a character, and what the command does with it is left open. -/
  | halfCharacter
  | encode (error : EncodeError)
  | render (error : RenderError)
  | unwritable (error : Json.Unwritable)

def Failure.message : Failure → String
  | .noFile => "'list' object does not support the context manager protocol"
  | .halfCharacter => "a text spells half a character"
  | .encode error => error.message
  | .render error => error.message
  | .unwritable error => error.message

/-- Why there is no job: what was given is invalid, or the command fails. -/
inductive JobError where
  | invalid (error : InputError)
  | failed (failure : Failure)

/-- The text of the input: the argument before the file, the file before the standard input. -/
def inputText (s : Surroundings) (a : Arguments) : Except JobError String :=
  match a.input, a.inputFile with
  | some text, _ => .ok text
  | none, some (.value name) =>
    .ok (if name = "-" then s.stdin else (s.file name).getD "")
  | none, some .nothing => .error (.failed .noFile)
  | none, none => if a.stdin then .ok s.stdin else .error (.invalid .noInput)

/-- Why there is no job, when a text is not accepted. -/
def refusal (text : String) (error : InputError) : JobError :=
  if Json.spellsHalf text then .failed .halfCharacter else .invalid error

def readInput (s : Surroundings) (a : Arguments) : Except JobError Value := do
  let text ← inputText s a
  match Json.read text with
  | some v => return v
  | none => throw (refusal text .inputText)

/-- The number of steps as a limit is given. Nothing is an empty list, which is no limit. -/
def Given.stepLimit : Given Int → Value
  | .value steps => .int steps
  | .nothing => .list []

/-- The environment's limits, except that the arguments may say how many steps to take. -/
def readLimits (s : Surroundings) (a : Arguments) : Except InputError Limits :=
  match Limits.ofEnvironment s.environment with
  | .error error => .error (.environment error)
  | .ok limits =>
    match a.maxSteps with
    | none => .ok limits
    | some given =>
      match Limits.ofValues limits.maxDepth.toValue given.stepLimit with
      | .ok limits => .ok limits
      | .error error => .error (.limits error)

structure Job where
  pattern : Pattern Value
  input : Value
  limits : Limits

def readJob (s : Surroundings) (a : Arguments) (patternText : String) :
    Except JobError Job := do
  let pattern ← match Pattern.ofText patternText with
    | .ok pattern => .ok pattern
    | .error error => .error (refusal patternText (.pattern error))
  let input ← readInput s a
  let limits ← match readLimits s a with
    | .ok limits => .ok limits
    | .error error => .error (.invalid error)
  return ⟨pattern, input, limits⟩

/-- The captures that are reported. -/
def bindings : Outcome → Value
  | .matched captures => (Value.record captures).asData
  | _ => .null

/-- What is reported about a search that was stopped. -/
def warnings : Outcome → List Value
  | .aborted reason => [.str reason.message]
  | _ => []

/-- The report on a match. The trace is part of it if the match was watched. -/
def report (job : Job) (r : Report) (document : Value) (rendered : String) : Value :=
  .record ([("schema", .str schemaTag), ("schema_doc", .str schemaDocument),
    ("pattern", document), ("pretty", .str rendered), ("input", job.input),
    ("matched", .bool r.outcome.isMatched), ("bindings", bindings r.outcome),
    ("warnings", .list (warnings r.outcome))] ++
    match r.tracer with
    | none => []
    | some tracer => [("trace", tracer.toValue)])

/-- The layout in which the report is written. -/
def Arguments.layout (a : Arguments) : Json.Layout := if a.pretty then .indented else .spaced

/-- The match that a job asks for, watched or not. -/
def Arguments.matched (a : Arguments) (job : Job) : Report :=
  job.pattern.matchAgainst job.input job.limits (if a.trace then some .empty else none)

def perform (a : Arguments) (job : Job) : Except Failure Result := do
  let r := a.matched job
  let document ← match job.pattern.encode with
    | .ok document => .ok document
    | .error error => .error (.encode error)
  let rendered ← match job.pattern.render with
    | .ok text => .ok text
    | .error error => .error (.render error)
  match Json.write a.layout (report job r document rendered) with
  | .ok text => .ok (.finished (if r.outcome.isMatched then 0 else 1) (text ++ "\n") "")
  | .error error => .error (.unwritable error)

/-- What becomes of a job that was read, or of what kept it from being read. -/
def conclude (a : Arguments) : Except JobError Job → Except Failure Result
  | .error (.invalid error) => .ok (.finished 2 "" ("Invalid input: " ++ error.message ++ "\n"))
  | .error (.failed failure) => .error failure
  | .ok job => perform a job

def run (s : Surroundings) (texts : List String) : Except Failure Result :=
  match Arguments.ofStrings (fun name => (s.file name).isSome) texts with
  | .error stop => .ok (.stopped stop)
  | .ok a =>
    if a.schema then .ok (.finished 0 (schemaTag ++ " " ++ schemaDocument ++ "\n") "")
    else match a.pattern with
      | none | some "" => .ok (.stopped .usage)
      | some patternText => conclude a (readJob s a patternText)

end Motif.CommandLine
