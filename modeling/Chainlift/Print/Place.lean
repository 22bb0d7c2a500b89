import Chainlift.Tree.Basic
import Chainlift.Tree.Operator

/-!
# Places

How a node is written depends on where it stands: on how tightly its surroundings bind (`Level`), on whether a statement or
an arrow's body begins with it (`Opening`), on the indentation, and on what must not appear there unprotected. A `Place` holds
all of it, and a `Part` is a node together with the text it has at each place.
-/

namespace Chainlift

/-- How tightly the surroundings bind; the higher, the more needs parentheses. -/
abbrev Level := Nat

namespace Level

def lowest : Level := 0
def comma : Level := 1
def yield : Level := 3
def assign : Level := 4
def conditional : Level := 5
def coalesce : Level := 6
def equals : Level := 12
def compare : Level := 13
def shift : Level := 14
def power : Level := 17
def before : Level := 18
def after : Level := 19
def new : Level := 20
def call : Level := 21

/-- The level at which the result of an operator needs parentheses. -/
def ofJoint (j : Joint) : Level := j.rank + 5

end Level

/-- What begins with the first character of an expression. -/
inductive Opening where
  | nothing | statement | defaultExport | arrowBody
  deriving DecidableEq, Repr

/-- What stands before a statement or a member of a class. -/
inductive Slot where
  /-- Something else on the line: this is part of an expression. -/
  | within
  /-- A line of its own. -/
  | line
  /-- A space, on a line that has been begun. -/
  | inline
  /-- The head of a loop or the word `export`; a semicolon does not follow either. -/
  | head
  deriving DecidableEq, Repr

structure Place where
  depth : Nat
  level : Level := Level.lowest
  opening : Opening := .nothing
  /-- The operator `in` must not appear. -/
  noIn : Bool := false
  /-- A call must not appear. -/
  noCall : Bool := false
  slot : Slot := .within
  /-- Comments are left out. -/
  quiet : Bool := false

def tabs (n : Nat) : String := String.ofList (List.replicate n '\t')

namespace Place

/-- An expression at that depth, in brackets or otherwise apart from what surrounds it. -/
def inside (p : Place) (level : Level) : Place := { depth := p.depth, level }

/-- An operand that does not come first. -/
def operand (p : Place) (level : Level) : Place := { depth := p.depth, level, noIn := p.noIn, noCall := p.noCall }

/-- An operand that comes first. -/
def first (p : Place) (level : Level) : Place := { p.operand level with opening := p.opening }

/-- One step further in. -/
def deeper (p : Place) : Place := { p with depth := p.depth + 1 }

/-- A statement on a line of its own. -/
def line (p : Place) : Place := { depth := p.depth, slot := .line }

/-- A statement on the line that has been begun. -/
def inline (p : Place) : Place := { depth := p.depth, slot := .inline }

/-- A statement without anything around it. -/
def head (p : Place) : Place := { depth := p.depth, slot := .head }

/-- What stands before a statement. -/
def lead (p : Place) : String :=
  match p.slot with
  | .line => tabs p.depth
  | .inline => " "
  | .within | .head => ""

/-- A text in parentheses if that is needed. What stands in them comes first in nothing. -/
def wrap (p : Place) (needed : Bool) (text : Place → String) : String :=
  if needed then "(" ++ text { p with opening := .nothing } ++ ")" else text p

/-- The same for operands of an operator: between the parentheses `in` may appear again. -/
def group (p : Place) (needed : Bool) (text : Place → String) : String :=
  if needed then p.wrap true fun p => text { p with noIn := false } else text p

end Place

/-- A node and the text it has at each place. -/
structure Part where
  tree : Tree
  text : Place → String

namespace Part

def none : Part := ⟨.absent, fun _ => ""⟩

/-- The part is not there. -/
def isAbsent (a : Part) : Bool := a.tree.form == .absent

/-- The text around a part, if it is there. -/
def textIf (a : Part) (start : String) (p : Place) (finish : String := "") : String :=
  if a.isAbsent then "" else start ++ a.text p ++ finish

end Part

abbrev Parts := List Part

/-- A part by its position. -/
def Parts.nth (ps : Parts) (i : Nat) : Part := ps.getD i Part.none

/-- The texts of parts with a separator between them. -/
def Parts.joined (ps : Parts) (separator : String) (p : Place) : String :=
  separator.intercalate (ps.map fun a => a.text p)

/-- The texts of parts, each on a line of its own, between braces. -/
def Parts.braced (ps : Parts) (p : Place) : String :=
  if ps.isEmpty then "\x7b\x7d"
  else "\x7b\n" ++ String.join (ps.map fun a => a.text p.deeper.line ++ "\n") ++ tabs p.depth ++ "\x7d"

end Chainlift
