import Chainlift.File.Path

/-!
# Kinds of source files

The extension of a file says which language it is written in and whether it is a module. A definition file holds only types.
-/

namespace Chainlift

inductive Language where
  | javascript | typescript | definition
  deriving DecidableEq, Repr

structure SourceType where
  language : Language
  isModule : Bool
  jsx : Bool
  deriving DecidableEq, Repr

namespace SourceType

/-- A JavaScript module. -/
def esModule : SourceType := ⟨.javascript, true, false⟩

def hasTypes (s : SourceType) : Bool := s.language != .javascript

/-- A name before `.ts` marks a definition file when `d` is one of its last two parts. -/
def marksDefinition (parts : List String) : Bool := (parts.reverse.take 2).contains "d"

/-- A name before `.mts` or `.cts` marks a definition file when it ends in `.d`. -/
def endsInMark (parts : List String) : Bool := 2 ≤ parts.length && parts.getLast? == some "d"

/-- The kind of a source file with that path, if its extension is known. -/
def ofPath? (path : String) : Option SourceType := do
  let parts := (Path.nameParts (← Path.fileName? path)).dropLast
  let types (mark : Bool) : Language := if mark then .definition else .typescript
  match ← Path.extension? path with
  | "js" | "mjs" => some ⟨.javascript, true, false⟩
  | "cjs" => some ⟨.javascript, false, false⟩
  | "jsx" => some ⟨.javascript, true, true⟩
  | "ts" => some ⟨types (marksDefinition parts), true, false⟩
  | "mts" => some ⟨types (endsInMark parts), true, false⟩
  | "cts" => some ⟨types (endsInMark parts), false, false⟩
  | "tsx" => some ⟨.typescript, true, true⟩
  | _ => none

end SourceType

end Chainlift
