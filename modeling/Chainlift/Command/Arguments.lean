import Chainlift.Command.Run

/-!
# Arguments

The words after the program's name: a command, its options in any order, and the input files. An option with a value takes it
from behind an equals sign or from the next word, which must not look like an option itself; after `--` every word is a file.
No option is given twice.
-/

namespace Chainlift

/-- Why the arguments make no sense. -/
inductive UsageError where
  | noCommand
  | unknownCommand (word : String)
  | unknownOption (word : String)
  | missingValue (option : String)
  | unwantedValue (option : String)
  | invalidValue (value : String)
  | repeated (option : String)
  | conflict
  | noInputs
  deriving DecidableEq, Repr

def UsageError.message : UsageError → String
  | .noCommand => "a command is needed: unminify or check"
  | .unknownCommand word => "unknown command: " ++ word
  | .unknownOption word => "unknown option: " ++ word
  | .missingValue option => option ++ " needs a value"
  | .unwantedValue option => option ++ " takes no value"
  | .invalidValue value => "not a valid value: " ++ value
  | .repeated option => option ++ " is given more than once"
  | .conflict => "--strict-leaves and --false-leaves exclude each other"
  | .noInputs => "at least one input file is needed"

inductive Task where
  | unminify | check
  deriving DecidableEq, Repr

/-- What the arguments ask for. -/
inductive Command where
  | run (task : Task) (r : Request)
  | help
  | version

namespace Command

/-- An option without a value. -/
inductive Switch where
  | strictLeaves | falseLeaves | noNullish | stats
  deriving DecidableEq, Repr

/-- An option with a value. -/
inductive Valued where
  | output | maxPasses
  deriving DecidableEq, Repr

def switch? (task : Task) : String → Option Switch
  | "strict-leaves" => some .strictLeaves
  | "false-leaves" => some .falseLeaves
  | "no-nullish" => if task == .unminify then some .noNullish else none
  | "stats" => if task == .unminify then some .stats else none
  | _ => none

def valued? (task : Task) : String → Option Valued
  | "max-passes" => some .maxPasses
  | "output" => if task == .unminify then some .output else none
  | _ => none

/-- What has been given so far. -/
structure Given where
  inputs : List String := []
  output : Option String := none
  maxPasses : Option Nat := none
  switches : List Switch := []

/-- A number below 2^64 in decimal digits, which a plus sign may precede. -/
def number? (text : String) : Option Nat :=
  let ds := match text.toList with
    | '+' :: ds => ds
    | ds => ds
  let n := ds.foldl (fun n c => n * 10 + (c.toNat - 48)) 0
  if !ds.isEmpty && ds.all Char.isDigit && n < Nat.pow 2 64 then some n else none

namespace Given

def addSwitch (g : Given) (name : String) (s : Switch) : Except UsageError Given :=
  if g.switches.contains s then .error (.repeated name) else .ok { g with switches := s :: g.switches }

def addValue (g : Given) (name : String) (value : String) : Valued → Except UsageError Given
  | .output =>
    if g.output.isSome then .error (.repeated name)
    else if value == "" then .error (.invalidValue value)
    else .ok { g with output := some value }
  | .maxPasses =>
    if g.maxPasses.isSome then .error (.repeated name)
    else match number? value with
      | some n => .ok { g with maxPasses := some n }
      | none => .error (.invalidValue value)

def addInput (g : Given) (path : String) : Except UsageError Given :=
  if path == "" then .error (.invalidValue path) else .ok { g with inputs := g.inputs ++ [path] }

/-- The request for a run, when all arguments have been read. -/
def request (g : Given) : Except UsageError Request :=
  let has (s : Switch) : Bool := g.switches.contains s
  if has .strictLeaves && has .falseLeaves then .error .conflict
  else if g.inputs.isEmpty then .error .noInputs
  else .ok
    { inputs := g.inputs
      output := g.output
      options := .chosen g.maxPasses (has .strictLeaves) (has .falseLeaves) (has .noNullish)
      stats := has .stats }

end Given

/-- A word that begins like an option. A single dash is none. -/
def isOption (word : String) : Bool := word.startsWith "-" && word != "-"

/-- A word before and behind its first equals sign. -/
def splitValue (word : String) : String × Option String :=
  match word.splitOn "=" with
  | [] => (word, none)
  | [name] => (name, none)
  | name :: rest => (name, some ("=".intercalate rest))

/-- An option as a word writes it. -/
inductive Word where
  | help
  | switch (name : String) (s : Switch)
  | valued (name : String) (v : Valued) (value : Option String)
  | input (path : String)

/-- What a word in front of `--` is. -/
def readWord (task : Task) (word : String) : Except UsageError Word :=
  match word.toList with
  | '-' :: '-' :: cs =>
    let (name, value) := splitValue (String.ofList cs)
    match switch? task name, valued? task name with
    | some s, _ => if value.isSome then .error (.unwantedValue word) else .ok (.switch name s)
    | none, some v => .ok (.valued name v value)
    | none, none =>
      if name != "help" then .error (.unknownOption word)
      else if value.isSome then .error (.unwantedValue word)
      else .ok .help
  | '-' :: 'h' :: _ => .ok .help
  | '-' :: 'o' :: cs =>
    if task != .unminify then .error (.unknownOption word)
    else match cs with
      | [] => .ok (.valued "output" .output none)
      | '=' :: cs => .ok (.valued "output" .output (some (String.ofList cs)))
      | cs => .ok (.valued "output" .output (some (String.ofList cs)))
  | '-' :: _ :: _ => .error (.unknownOption word)
  | _ => .ok (.input word)

/-- Read the words after the command; nothing comes of them when help is asked for. -/
def readWords (task : Task) (g : Given) : List String → Except UsageError (Option Given)
  | [] => .ok (some g)
  | "--" :: paths => (paths.foldlM Given.addInput g).map some
  | word :: words => do
    match ← readWord task word with
    | .help => .ok none
    | .switch name s => readWords task (← g.addSwitch name s) words
    | .input path => readWords task (← g.addInput path) words
    | .valued name v (some value) => readWords task (← g.addValue name value v) words
    | .valued name v none =>
      match words with
      | [] => .error (.missingValue name)
      | value :: words =>
        if isOption value then .error (.missingValue name) else readWords task (← g.addValue name value v) words

/-- The command for a task. -/
def ofTask (task : Task) (words : List String) : Except UsageError Command := do
  match ← readWords task {} words with
  | none => .ok .help
  | some g => .ok (.run task (← g.request))

/-- The command that the arguments give. -/
def parse : List String → Except UsageError Command
  | [] => .error .noCommand
  | "unminify" :: words => ofTask .unminify words
  | "check" :: words => ofTask .check words
  | "help" :: words =>
    match words with
    | [] | ["unminify"] | ["check"] | ["help"] => .ok .help
    | word :: _ => .error (.unknownCommand word)
  | word :: _ =>
    match word.toList with
    | '-' :: 'h' :: _ => .ok .help
    | '-' :: 'V' :: _ => .ok .version
    | '-' :: _ =>
      if word == "--help" then .ok .help
      else if word == "--version" then .ok .version
      else .error (.unknownOption word)
    | _ => .error (.unknownCommand word)

end Command

/-! ## Exit -/

/-- What a run of the program leaves: its exit code and what it wrote. -/
structure Exit where
  code : Nat
  stdout : String
  stderr : String
  deriving DecidableEq, Repr

namespace Exit

def versionText : String := "unminify-rs 0.1.0\n"

def helpText : String :=
  "Restore optional chaining and nullish coalescing in transpiled JavaScript\n\n"
    ++ "Usage: unminify-rs unminify [OPTIONS] FILES...\n"
    ++ "       unminify-rs check [OPTIONS] FILES...\n\n"
    ++ "Options:\n"
    ++ "  -o, --output PATH      Output file, or directory for several inputs (unminify)\n"
    ++ "      --max-passes N     Maximum number of sweeps over each document\n"
    ++ "      --strict-leaves    Only accept undefined as the value of a guarded branch\n"
    ++ "      --false-leaves     Also accept false and !1 as that value\n"
    ++ "      --no-nullish       Leave expanded nullish coalescing untouched (unminify)\n"
    ++ "      --stats            Print statistics as JSON to the standard error stream (unminify)\n"
    ++ "  -h, --help             Print help\n"
    ++ "  -V, --version          Print version\n"

def ofOutcome (o : Outcome) : Exit :=
  match o.error with
  | none => ⟨0, o.stdout, o.stderr⟩
  | some e => ⟨1, o.stdout, "Error: " ++ e.message ++ "\n"⟩

end Exit

/-- Do one of the two tasks. -/
def Task.run {m : Type → Type} [Monad m] (fs : FileSystem m) (r : Request) : Task → m Outcome
  | .unminify => r.unminify fs
  | .check => r.check fs

/-- Run the program with some arguments. -/
def Command.main {m : Type → Type} [Monad m] (fs : FileSystem m) (args : List String) : m Exit := do
  match Command.parse args with
  | .error e => return ⟨2, "", "error: " ++ e.message ++ "\n"⟩
  | .ok .help => return ⟨0, Exit.helpText, ""⟩
  | .ok .version => return ⟨0, Exit.versionText, ""⟩
  | .ok (.run task r) => return .ofOutcome (← task.run fs r)

end Chainlift
