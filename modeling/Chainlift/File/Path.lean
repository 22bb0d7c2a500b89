/-!
# Paths

A path is a text whose components are separated by slashes. Empty components and `.` count for nothing.
-/

namespace Chainlift.Path

/-- The components that lead somewhere. -/
def components (path : String) : List String :=
  ((path.toList.splitOn '/').map String.ofList).filter fun c => c != "" && c != "."

/-- Whether the path starts at the root. -/
def isAbsolute (path : String) : Bool := path.startsWith "/"

/-- The last component, which is no step upwards. -/
def fileName? (path : String) : Option String :=
  (components path).getLast?.filter (· != "..")

/-- The parts of a name between its dots. -/
def nameParts (name : String) : List String := (name.toList.splitOn '.').map String.ofList

/-- What follows the last dot of the file name, unless that dot is its first character. -/
def extension? (path : String) : Option String := do
  let parts := nameParts (← fileName? path)
  if parts.length < 2 || parts.dropLast == [""] then none else parts.getLast?

/-- A name in a directory. -/
def join (directory name : String) : String :=
  if directory == "" then name
  else if directory.endsWith '/' then directory ++ name
  else directory ++ "/" ++ name

end Chainlift.Path
