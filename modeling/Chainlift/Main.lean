import Chainlift.Command.Arguments

/-!
# The program

The files of the machine as a file system, and the streams.
-/

namespace Chainlift

/-- The cause of a failed operation. -/
def FileError.ofIO : IO.Error → FileError
  | .noFileOrDirectory .. | .noSuchThing .. => .notFound
  | .alreadyExists .. => .alreadyExists
  | .inappropriateType _ code _ => if code == 20 then .notDirectory else .isDirectory
  | e => .other (toString e)

/-- Do an operation and catch its failure. -/
def attemptIO {α : Type} (action : IO α) : IO (Except FileError α) := do
  try
    return .ok (← action)
  catch e => return .error (.ofIO e)

/-- The text of a file of the machine. -/
def readText (path : String) : IO (Except FileError String) := do
  match ← attemptIO (IO.FS.readBinFile path) with
  | .error e => return .error e
  | .ok bytes => match String.fromUTF8? bytes with
    | some text => return .ok text
    | none => return .error .notText

/-- The files of the machine. -/
def machine : FileSystem IO where
  read := readText
  isDirectory path := do
    match ← readText path with
    | .error .isDirectory => return true
    | _ => return false
  createDirectories path := attemptIO (IO.FS.createDirAll path)
  write path text := attemptIO (IO.FS.writeFile path text)

end Chainlift

def main (args : List String) : IO UInt32 := do
  let exit ← Chainlift.Command.main Chainlift.machine args
  IO.print exit.stdout
  IO.eprint exit.stderr
  return exit.code.toUInt32
