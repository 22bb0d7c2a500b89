import Chainlift.Document
import Chainlift.File.Path
import Chainlift.File.System
import Chainlift.Report

/-!
# Running the program over files

Every input is read and lifted before anything is written. One input may go to a file; several go to a directory, each under
its own file name; without an output they go to the standard output, one after another. A check writes only the report.
-/

namespace Chainlift

/-- What the program is asked to do with some files. -/
structure Request where
  inputs : List String
  /-- A file or a directory. -/
  output : Option String := none
  options : Options := {}
  /-- Report the statistics. -/
  stats : Bool := false

/-- What the program has written to its streams, and why it failed if it did. -/
structure Outcome where
  error : Option Error := none
  stdout : String := ""
  stderr : String := ""
  deriving DecidableEq, Repr

namespace Request

variable {m : Type → Type} [Monad m]

/-- A failed operation on a file, with its path. -/
def atPath {α : Type} (path : String) (result : Except FileError α) : Except Error α :=
  result.mapError fun e => .io (path ++ ": " ++ e.message)

/-- Read and lift one input. -/
def liftFile (fs : FileSystem m) (o : Options) (path : String) : ExceptT Error m (String × Document) := do
  let text ← atPath path (← fs.read path)
  let type ← SourceType.ofPath path
  let d ← Document.lift o type text
  return (path, d)

/-- Read and lift the inputs. -/
def liftFiles (fs : FileSystem m) (r : Request) : ExceptT Error m (List (String × Document)) :=
  r.inputs.mapM (liftFile fs r.options)

def writeFile (fs : FileSystem m) (path text : String) : ExceptT Error m Unit := do
  atPath path (← fs.write path text)

/-- Write the documents into a directory under the names of their inputs. -/
def writeInto (fs : FileSystem m) (directory : String) (documents : List (String × Document)) : ExceptT Error m Unit := do
  (← fs.createDirectories directory).mapError fun e => Error.io e.message
  documents.forM fun (input, d) => do
    match Path.fileName? input with
    | some name => writeFile fs (Path.join directory name) d.code
    | none => throw (.noFileName input)

/-- Write the documents where they belong; the text is what goes to the standard output. -/
def writeDocuments (fs : FileSystem m) (output : Option String) (documents : List (String × Document)) :
    ExceptT Error m String := do
  match output with
  | none => return String.join (documents.map fun (_, d) => d.code)
  | some path =>
    match documents with
    | [(_, d)] =>
      if ← fs.isDirectory path then writeInto fs path documents else writeFile fs path d.code
    | documents => writeInto fs path documents
    return ""

def report (documents : List (String × Document)) : String :=
  (Report.ofFiles (documents.map fun (path, d) => (path, d.stats))).text

/-- An outcome, failed or not. -/
def toOutcome (result : ExceptT Error m Outcome) : m Outcome := do
  match ← result.run with
  | .ok o => return o
  | .error e => return { error := some e }

/-- Lift the inputs and write the outputs. -/
def unminify (fs : FileSystem m) (r : Request) : m Outcome := toOutcome do
  let documents ← r.liftFiles fs
  let stdout ← writeDocuments fs r.output documents
  return { stdout, stderr := if r.stats then report documents else "" }

/-- Report what lifting the inputs would do. -/
def check (fs : FileSystem m) (r : Request) : m Outcome := toOutcome do
  let documents ← r.liftFiles fs
  return { stdout := report documents }

end Request

end Chainlift
