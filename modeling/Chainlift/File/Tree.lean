import Chainlift.File.Path
import Chainlift.File.System

/-!
# Trees of files

A tree of files below a working directory. Paths are followed from there: each component but the last has to be a directory,
and `..` leads back. What lies above the working directory is a directory of which nothing more is known.
-/

namespace Chainlift

/-- The names that lead from the working directory to a file. -/
abbrev Location := List String

inductive Entry where
  | directory
  | file (content : ByteArray)

namespace Entry

theorem file_inj {a b : ByteArray} : Entry.file a = .file b ↔ a.data = b.data := by
  rw [Entry.file.injEq, ByteArray.ext_iff]

/-- Files are equal when their bytes are. -/
def decEq : (a b : Entry) → Decidable (a = b)
  | .directory, .directory => isTrue rfl
  | .directory, .file _ => isFalse nofun
  | .file _, .directory => isFalse nofun
  | .file a, .file b =>
    if h : a.data = b.data then isTrue (file_inj.2 h) else isFalse (fun e => h (file_inj.1 e))

instance : DecidableEq Entry := decEq

end Entry

/-- The entries below the working directory; each location stands in it once. -/
structure FileTree where
  entries : List (Location × Entry)
  deriving DecidableEq

namespace FileTree

def empty : FileTree := ⟨[]⟩

/-- What is at a location. -/
def find? (t : FileTree) (l : Location) : Option Entry := if l.isEmpty then some .directory else t.entries.lookup l

/-- Put an entry at a location. -/
def put (t : FileTree) (l : Location) (e : Entry) : FileTree := ⟨t.entries.filter (fun p => p.1 != l) ++ [(l, e)]⟩

/-- Where a path leads: into the tree or above it. -/
inductive Spot where
  | inside (l : Location)
  | above

/-- Follow components from a directory of the tree. The last one need not be there. -/
def follow (t : FileTree) (here : Location) : List String → Except FileError Spot
  | [] => .ok (.inside here)
  | c :: cs =>
    if c == ".." then
      if here.isEmpty then if cs.isEmpty then .ok .above else .error .notFound
      else t.follow here.dropLast cs
    else if cs.isEmpty then .ok (.inside (here ++ [c]))
    else match t.find? (here ++ [c]) with
      | some .directory => t.follow (here ++ [c]) cs
      | some (.file _) => .error .notDirectory
      | none => .error .notFound

/-- Where a path leads. -/
def locate (t : FileTree) (path : String) : Except FileError Spot :=
  if path == "" || Path.isAbsolute path then .error .notFound else t.follow [] (Path.components path)

/-- The path ends as only the path of a directory may. -/
def namesDirectory (path : String) : Bool := path.endsWith "/" || path.endsWith "/."

def read (t : FileTree) (path : String) : Except FileError String := do
  match ← t.locate path with
  | .above => .error .isDirectory
  | .inside l => match t.find? l with
    | none => .error .notFound
    | some .directory => .error .isDirectory
    | some (.file content) =>
      if namesDirectory path then .error .notDirectory
      else match String.fromUTF8? content with
        | some text => .ok text
        | none => .error .notText

def isDirectory (t : FileTree) (path : String) : Bool :=
  match t.locate path with
  | .ok .above => true
  | .ok (.inside l) => t.find? l == some .directory
  | .error _ => false

def write (t : FileTree) (path text : String) : Except FileError FileTree := do
  match ← t.locate path with
  | .above => .error .isDirectory
  | .inside l => match t.find? l with
    | some .directory => .error .isDirectory
    | some (.file _) => if namesDirectory path then .error .notDirectory else .ok (t.put l (.file text.toUTF8))
    | none => if namesDirectory path then .error .isDirectory else .ok (t.put l (.file text.toUTF8))

/-- Make the directories on the way along components from a directory of the tree. -/
def makeWay (t : FileTree) (here : Location) : List String → Except FileError FileTree
  | [] => .ok t
  | c :: cs =>
    if c == ".." then
      if here.isEmpty then if cs.isEmpty then .ok t else .error .notFound
      else t.makeWay here.dropLast cs
    else match t.find? (here ++ [c]) with
      | some .directory => t.makeWay (here ++ [c]) cs
      | some (.file _) => .error (if cs.isEmpty then .alreadyExists else .notDirectory)
      | none => (t.put (here ++ [c]) .directory).makeWay (here ++ [c]) cs

def createDirectories (t : FileTree) (path : String) : Except FileError FileTree :=
  if Path.isAbsolute path then .error .notFound else t.makeWay [] (Path.components path)

/-- A change of the tree, which is left as it is when the change fails. -/
def change (f : FileTree → Except FileError FileTree) : StateM FileTree (Except FileError Unit) := fun t =>
  match f t with
  | .ok t => (.ok (), t)
  | .error e => (.error e, t)

/-- A tree as a file system. -/
def system : FileSystem (StateM FileTree) where
  read path := fun t => (t.read path, t)
  isDirectory path := fun t => (t.isDirectory path, t)
  createDirectories path := change fun t => t.createDirectories path
  write path text := change fun t => t.write path text

/-! ## Making and listing trees -/

/-- Add a file and the directories above it. -/
def addFile (t : FileTree) (path : String) (content : ByteArray) : FileTree :=
  let l := Path.components path
  match t.makeWay [] l.dropLast with
  | .ok t => t.put l (.file content)
  | .error _ => t

/-- Add a directory and those above it. -/
def addDirectory (t : FileTree) (path : String) : FileTree :=
  match t.createDirectories path with
  | .ok t => t
  | .error _ => t

/-- The files that another tree does not hold with the same content. -/
def changedFrom (t before : FileTree) : List (Location × ByteArray) :=
  t.entries.filterMap fun (l, e) => match e with
    | .file content => if before.find? l == some e then none else some (l, content)
    | .directory => none

/-- The directories without anything in them. -/
def emptyDirectories (t : FileTree) : List Location :=
  t.entries.filterMap fun (l, e) =>
    if e == .directory && t.entries.all (fun p => p.1.dropLast != l) then some l else none

end FileTree

end Chainlift
