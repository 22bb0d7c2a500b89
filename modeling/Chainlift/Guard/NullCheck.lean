import Chainlift.Tree.Shape

/-!
# Null checks

A null check compares a value with `null` or `undefined`, in either order. The value is a variable, `this`, a member access
or an assignment `(t = v)`; what is guarded then reads the variable `t` (the token), and `v` (the target) is what a link is
put behind.
-/

namespace Chainlift

/-- What a value is compared with. -/
inductive Missing where
  | null | undefined
  deriving DecidableEq, Repr

structure NullCheck where
  operand : Tree
  compared : Missing
  /-- `===` or `!==` -/
  strict : Bool
  /-- `!=` or `!==` -/
  negated : Bool
  deriving DecidableEq, Repr

namespace NullCheck

/-- Whether an equality operator is strict, and whether it is negated. -/
def kind? : BinaryOp → Option (Bool × Bool)
  | .eq => some (false, false)
  | .strictEq => some (true, false)
  | .ne => some (false, true)
  | .strictNe => some (true, true)
  | _ => none

/-- The operand that is checked and the one it is checked against. -/
def sides? (a b : Tree) : Option (Tree × Tree) :=
  if b.isNullish then some (a, b)
  else if a.isNullish then some (b, a)
  else none

/-- Values whose check can be taken for a guard. -/
def isCheckable (t : Tree) : Bool :=
  match t with
  | .reference name => name != "undefined"
  | .this => true
  | t => t.isAccess || t.assignment?.isSome

/-- The null check that a condition is. -/
def of? : Tree → Option NullCheck
  | .binary op a b => do
    let (strict, negated) ← kind? op
    let (operand, literal) ← sides? a b
    if isCheckable operand then
      some { operand, compared := if literal.isNull then .null else .undefined, strict, negated }
    else none
  | _ => none

/-- The variable that holds the value from the check on. -/
def temporary? (c : NullCheck) : Option String := c.operand.assignment?.map (·.1)

/-- What the guarded expression reads. -/
def token (c : NullCheck) : Tree :=
  match c.operand.assignment? with
  | some (name, _) => .reference name
  | none => c.operand

/-- What ends up in front of the link. -/
def target (c : NullCheck) : Tree :=
  match c.operand.assignment? with
  | some (_, value) => value
  | none => c.operand

end NullCheck

/-- A check of the kind `x != null`. A decision that begins with one is negated before it is read. -/
def Tree.isNotNullCheck (t : Tree) : Bool := ((NullCheck.of? t).map (·.negated)).getD false

end Chainlift
