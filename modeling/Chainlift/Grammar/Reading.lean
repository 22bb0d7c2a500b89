import Chainlift.Tree.Basic
import Chainlift.Token.Basic

/-!
# Readings

What is written in brackets or braces can turn out to be an expression, a target of an assignment, or parameters of an
arrow, and the text after it decides which. So a piece of text is read as all of them at once: a `Reading` holds the
expression and, where there are any, the target and the pattern that the same text can stand for. `[a, { b = 1 }]` has a
target and a pattern but no expression; `[a.b]` has an expression and a target but no pattern.
-/

namespace Chainlift

structure Reading where
  /-- As an expression. -/
  expr : Except SyntaxError Tree
  /-- As the target of an assignment. -/
  target : Option Tree := none
  /-- As a pattern that binds names. -/
  pattern : Option Tree := none
  /-- Set when the text is `x = value`: target and pattern are then those of `x`, and this is their default value. -/
  default : Option Tree := none
  /-- The text stands in parentheses. -/
  closed : Bool := false
  /-- An arrow function, which is no operand. -/
  arrow : Bool := false

namespace Reading

/-- A text that is an expression and nothing else. -/
def value (t : Tree) : Reading := { expr := .ok t }

/-- A text that is an expression and a target, such as a member access. -/
def place (t : Tree) : Reading := { expr := .ok t, target := some t }

/-- A variable. -/
def ofName (name : String) : Reading :=
  { expr := .ok (.reference name), target := some (.reference name), pattern := some (.binding name) }

def ofArrow (t : Tree) : Reading := { expr := .ok t, arrow := true }

/-- A function that stands in parentheses. -/
def announced : Tree → Tree
  | .node (.function declared isAsync generator _) ps => .node (.function declared isAsync generator true) ps
  | .node (.arrow isAsync _) ps => .node (.arrow isAsync true) ps
  | t => t

/-- In parentheses only a variable or a member access can still be assigned to, and nothing can be bound. -/
def parenthesized (r : Reading) : Reading :=
  let simple : Bool := match r.target.map Tree.form with
    | some .arrayTarget | some .objectTarget => false
    | _ => r.default.isNone
  { expr := r.expr.map announced, target := if simple then r.target else none, closed := true }

/-- The target, if the whole text is one. -/
def asTarget (r : Reading) : Option Tree := if r.default.isSome then none else r.target

/-- The target of an element of a pattern, which may have a default value. -/
def asTargetElement (r : Reading) : Option Tree :=
  match r.default with
  | some d => r.target.map fun t => .node .withDefault [t, d]
  | none => r.target

/-- The pattern of an element of a pattern, which may have a default value. -/
def asPatternElement (r : Reading) : Option Tree :=
  match r.default with
  | some d => r.pattern.map fun p => .node .withDefault [p, d]
  | none => r.pattern

/-- The parameter that the text can be. -/
def asParameter (r : Reading) : Option Tree :=
  r.pattern.map fun p => .node (.parameter false) [p, .absent, r.default.getD .absent]

/-- A target with a single name or place in it, as `+=` and `++` need. -/
def asPlace (r : Reading) : Option Tree :=
  r.asTarget.filter fun t => t.form != .arrayTarget && t.form != .objectTarget

end Reading

/-- An element of a list: an expression, one that is spread, or a hole. -/
inductive Item where
  | plain (r : Reading)
  | spread (r : Reading)
  | hole

namespace Item

def expr : Item → Except SyntaxError Tree
  | .plain r => r.expr
  | .spread r => r.expr.map Tree.spread
  | .hole => .ok .absent

/-- The element of an array target; only the last one may be spread. -/
def target (last : Bool) : Item → Option Tree
  | .plain r => r.asTargetElement
  | .spread r => if last then r.asTarget.map fun t => .node .rest [t, .absent] else none
  | .hole => some .absent

/-- The element of an array pattern; only the last one may be spread. -/
def pattern (last : Bool) : Item → Option Tree
  | .plain r => r.asPatternElement
  | .spread r =>
    if last && r.default.isNone then r.pattern.map fun p => .node .rest [p, .absent] else none
  | .hole => some .absent

/-- The parameter of an arrow; only the last one may be spread. -/
def parameter (last : Bool) : Item → Option Tree
  | .plain r => r.asParameter
  | i => i.pattern last

/-- Read each element by `f`, which is told whether it is the last one. -/
def eachLast {α : Type} (f : Bool → Item → Option α) : List Item → Option (List α)
  | [] => some []
  | [i] => (f true i).map ([·])
  | i :: is => do
    let a ← f false i
    let as ← eachLast f is
    some (a :: as)

/-- The readings of a list in brackets. `ended` says that a comma stands after its last element. -/
def asArray (items : List Item) (ended : Bool) : Reading :=
  let spreadEnd : Bool := match items.getLast? with
    | some (.spread _) => ended
    | _ => false
  { expr := (items.mapM expr).map Tree.array
    target := if spreadEnd then none else (eachLast target items).map (.node .arrayTarget ·)
    pattern := if spreadEnd then none else (eachLast pattern items).map (.node .arrayPattern ·) }

end Item

/-- A member of an object in braces: what it is as a part of an object, of a target and of a pattern. -/
structure Property where
  expr : Except SyntaxError Tree
  target : Option Tree
  pattern : Option Tree
  /-- It is spread, so it is the last one in a target or pattern. -/
  isSpread : Bool := false

namespace Property

/-- `key: value` -/
def pair (key : Tree) (r : Reading) : Property :=
  { expr := r.expr.map fun v => .node (.property false) [key, v]
    target := r.asTargetElement.map fun t => .node .targetProperty [key, t]
    pattern := r.asPatternElement.map fun p => .node (.patternProperty false) [key, p] }

/-- `name` -/
def short (name : String) : Property :=
  { expr := .ok (.node (.property true) [.node (.name name) [], .reference name])
    target := some (.node .targetName [.reference name, .absent])
    pattern := some (.node (.patternProperty true) [.node (.name name) [], .binding name]) }

/-- `name = value`, which is no part of an object. -/
def shortDefault (name : String) (value : Tree) : Property :=
  { expr := .error (.unexpected "=")
    target := some (.node .targetName [.reference name, value])
    pattern := some (.node (.patternProperty true) [.node (.name name) [], .node .withDefault [.binding name, value]]) }

/-- A method or accessor. -/
def ofMethod (t : Tree) : Property := { expr := .ok t, target := none, pattern := none }

/-- `...object` -/
def ofSpread (r : Reading) : Property :=
  { expr := r.expr.map Tree.spread
    target := r.asPlace.map fun t => .node .rest [t, .absent]
    pattern := match r.pattern, r.default with
      | some (.binding n), none => some (.node .rest [.binding n, .absent])
      | _, _ => none
    isSpread := true }

/-- The readings of members in braces. `ended` says that a comma stands after the last one. -/
def asObject (ps : List Property) (ended : Bool) : Reading :=
  let early := (ps.dropLast.any (·.isSpread)) || (ended && (ps.getLast?.map (·.isSpread)).getD false)
  { expr := (ps.mapM Property.expr).map (.node .object ·)
    target := if early then none else (ps.mapM Property.target).map (.node .objectTarget ·)
    pattern := if early then none else (ps.mapM Property.pattern).map (.node .objectPattern ·) }

end Property

end Chainlift
