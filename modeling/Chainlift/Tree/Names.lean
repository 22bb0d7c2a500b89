import Chainlift.Tree.Basic

/-!
# Names in trees

Three collections: the uses of variables anywhere in a tree (`references`), the variables that `=` gives a value outside
nested functions (`assignments`), and the names that a pattern binds (`boundNames`). Each is a list in the order of the text,
with a name as often as it occurs; counts are counts in these lists.
-/

namespace Chainlift.Tree

/-! ## Uses -/

/-- The variable that a node of that form is a use of. -/
def ownReferences : Form → List String
  | .reference name => [name]
  | _ => []

mutual

/-- The uses of variables, nested functions and assigned variables included. -/
def references : Tree → List String
  | .node f ps => ownReferences f ++ referencesAll ps

def referencesAll : List Tree → List String
  | [] => []
  | t :: ts => t.references ++ referencesAll ts

end

/-- How often the variable is used. -/
def uses (t : Tree) (name : String) : Nat := t.references.count name

def usesAll (name : String) (ts : List Tree) : Nat := (referencesAll ts).count name

/-! ## Assignments -/

/-- The variable that a node of that form and with these parts assigns by `=`. -/
def ownAssignments : Form → List Tree → List String
  | .assign .plain, .reference name :: _ => [name]
  | _, _ => []

mutual

/-- The variables assigned by `=`, outside nested functions. -/
def assignments : Tree → List String
  | .node f ps => if f.isFunction then [] else ownAssignments f ps ++ assignmentsAll ps

def assignmentsAll : List Tree → List String
  | [] => []
  | t :: ts => t.assignments ++ assignmentsAll ts

end

/-- The variables assigned by `=`, each once. -/
def assigned (t : Tree) : List String := t.assignments.eraseDups

/-- How often `=` assigns the variable. -/
def assignmentCount (t : Tree) (name : String) : Nat := t.assignments.count name

/-! ## Bindings -/

mutual

/-- The names that a pattern binds, each to a value or a part of one. What takes all that is left over, after `...` in an
array or object pattern, is not among them; the last parameter of a function is. -/
def boundNames : Tree → List String
  | .node (.binding name) _ => [name]
  | .node (.patternProperty _) [_, value] => value.boundNames
  | .node .withDefault (p :: _) => p.boundNames
  | .node .rest (p :: _) => p.boundNames
  | .node (.parameter _) (p :: _) => p.boundNames
  | .node .arrayPattern ps => boundNamesWithin ps
  | .node .objectPattern ps => boundNamesWithin ps
  | .node .parameters ps => boundNamesAll ps
  | _ => []

/-- The names of the parts of a pattern. -/
def boundNamesWithin : List Tree → List String
  | [] => []
  | .node .rest _ :: ts => boundNamesWithin ts
  | t :: ts => t.boundNames ++ boundNamesWithin ts

def boundNamesAll : List Tree → List String
  | [] => []
  | t :: ts => t.boundNames ++ boundNamesAll ts

end

end Chainlift.Tree
