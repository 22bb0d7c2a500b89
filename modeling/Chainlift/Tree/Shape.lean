import Chainlift.Tree.Basic

/-!
# Shapes of expressions

Chains are put together on open expressions, in which a link `?.` may stand on the spine (member objects, callees and
`x!`) without a closed chain around it. `Tree.opened` takes the closing away and `Tree.closed` puts it back. The links inside
a closed chain belong to that chain: they are no links of what surrounds it.
-/

namespace Chainlift

namespace Tree

/-! ## Values -/

def isLiteral (t : Tree) : Bool :=
  match t.form with
  | .null | .bool _ | .number _ | .string _ | .bigint _ => true
  | _ => false

/-- `undefined`, or `void` before a literal. -/
def isUndefined : Tree → Bool
  | .unary .void t => t.isLiteral
  | .reference name => name == "undefined"
  | _ => false

def isNull : Tree → Bool
  | .null => true
  | _ => false

def isNullish (t : Tree) : Bool := t.isNull || t.isUndefined

def isZero : Tree → Bool
  | .number v => v == .zero
  | _ => false

/-- `true` or `!0` -/
def isTrue : Tree → Bool
  | .bool b => b
  | .unary .not t => t.isZero
  | _ => false

/-- `false` or `!1` -/
def isFalse : Tree → Bool
  | .bool b => !b
  | .unary .not (.number v) => v.isNearlyOne
  | _ => false

mutual

/-- Evaluating the expression can be skipped and nobody notices. -/
def isPure : Tree → Bool
  | .node f ps => match f with
    | .absent | .reference _ | .this | .function .. | .arrow .. | .regexp .. => true
    | .null | .bool _ | .number _ | .string _ | .bigint _ => true
    | .unary op => op != .delete && allPure ps
    | .template _ | .array => allPure ps
    | _ => false

def allPure : List Tree → Bool
  | [] => true
  | t :: ts => t.isPure && allPure ts

end

/-! ## Names and operators -/

/-- A conditional, `&&` or `||`. -/
def isBranching (t : Tree) : Bool :=
  match t.form with
  | .conditional | .logical .and | .logical .or => true
  | _ => false

/-- The variable that the expression is. -/
def asVariable? : Tree → Option String
  | .reference name => some name
  | _ => none

/-- The variable and the value of `name = value`. -/
def assignment? : Tree → Option (String × Tree)
  | .assign .plain (.reference name) value => some (name, value)
  | _ => none

def not (t : Tree) : Tree := .unary .not t

/-! ## Member accesses -/

/-- The object of a member access. -/
def object? : Tree → Option Tree
  | .member object _ _ | .index object _ _ | .privateMember object _ _ => some object
  | _ => none

def isAccess (t : Tree) : Bool := t.object?.isSome

/-- The access itself is a link. -/
def isLink : Tree → Bool
  | .member _ _ optional | .index _ _ optional | .privateMember _ _ optional => optional
  | _ => false

/-- The same access made on another object. -/
def onObject (access object : Tree) (optional : Bool) : Tree :=
  match access with
  | .member _ name _ => .member object name optional
  | .index _ key _ => .index object key optional
  | .privateMember _ name _ => .privateMember object name optional
  | t => t

/-- The same access, as a link or not. -/
def withLink (t : Tree) (optional : Bool) : Tree :=
  match t.object? with
  | some object => t.onObject object optional
  | none => t

/-! ## Open and closed chains -/

/-- A link stands on the spine. -/
def hasLink : Tree → Bool
  | .call callee _ optional => optional || callee.hasLink
  | .nonNull t => t.hasLink
  | .member object _ optional => optional || object.hasLink
  | .index object _ optional => optional || object.hasLink
  | .privateMember object _ optional => optional || object.hasLink
  | _ => false

/-- Take the closing of a chain away, so that further links can join it. A chain that ends in `x!` stays closed. -/
def opened : Tree → Tree
  | .chain (.nonNull t) => .chain (.nonNull t)
  | .chain t => t
  | t => t

/-- Close an open chain. -/
def closed (t : Tree) : Tree := if t.hasLink then .chain t else t

/-! ## Assignment -/

/-- A variable or a member access without a link. -/
def isAssignable (t : Tree) : Bool := t.asVariable?.isSome || (t.isAccess && !t.hasLink)

/-- The expression can be written at the left of `=`. -/
def asTarget? (t : Tree) : Option Tree :=
  if t.asVariable?.isSome || t.isAccess then some t else none

end Tree

end Chainlift
