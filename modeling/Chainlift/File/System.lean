/-!
# File systems

What the program needs of the files around it, in any monad: the files of a machine, or a tree of files held in memory.
-/

namespace Chainlift

/-- Why an operation on a file fails. -/
inductive FileError where
  | notFound
  | alreadyExists
  | notDirectory
  | isDirectory
  /-- The content is no text in UTF-8. -/
  | notText
  | other (text : String)
  deriving DecidableEq, Repr

def FileError.message : FileError → String
  | .notFound => "No such file or directory (os error 2)"
  | .alreadyExists => "File exists (os error 17)"
  | .notDirectory => "Not a directory (os error 20)"
  | .isDirectory => "Is a directory (os error 21)"
  | .notText => "stream did not contain valid UTF-8"
  | .other text => text

structure FileSystem (m : Type → Type) where
  /-- The text of a file. -/
  read : String → m (Except FileError String)
  isDirectory : String → m Bool
  /-- Make a directory and those above it, unless they are there. -/
  createDirectories : String → m (Except FileError Unit)
  /-- Make a text the content of a file, which need not be there yet. -/
  write : String → String → m (Except FileError Unit)

end Chainlift
