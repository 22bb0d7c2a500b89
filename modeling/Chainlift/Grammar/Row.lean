import Chainlift.Tree.Basic
import Chainlift.Tree.Operator
import Chainlift.Token.Basic

/-!
# Rows of operands

How a row of operands with operators between them becomes a tree. A row is taken up operand by operand (`Row.push`):
operators that bind at least as tightly as the new one are settled first, except that powers group to the right. `??` is not
mixed with `&&` and `||` without parentheses, and the base of a power is not an operator's result.
-/

namespace Chainlift

/-- The operator that a token is. -/
def Joint.ofToken? (allowIn : Bool) : Token → Option Joint
  | .punct s => all.find? fun j => j.symbol == s
  | .word s false =>
    if s == "instanceof" then some (.binary .instanceOf)
    else if s == "in" && allowIn then some (.binary .isIn)
    else none
  | _ => none

/-- An operand of a row, and whether it stands in parentheses. -/
structure Operand where
  tree : Tree
  closed : Bool

namespace Operand

/-- A logical operator's result, outside parentheses. -/
def mixes (o : Operand) (coalesce : Bool) : Bool :=
  !o.closed && match o.tree.form with
    | .logical .coalesce => !coalesce
    | .logical _ => coalesce
    | _ => false

/-- The result of an operator in front of its operand, outside parentheses. -/
def isOperation (o : Operand) : Bool :=
  !o.closed && match o.tree.form with
    | .unary _ | .await => true
    | _ => false

/-- The tree of an operator between two operands. A private name is an operand only at the left of `in`. -/
def join (j : Joint) (a b : Operand) : Except SyntaxError Operand :=
  match j, a.tree, b.tree with
  | _, _, .node (.privateName n) _ => .error (.unexpected ("#" ++ n))
  | .binary .isIn, .node (.privateName n) _, right => .ok ⟨.node (.privateIn n) [right], false⟩
  | _, .node (.privateName n) _, _ => .error (.unexpected ("#" ++ n))
  | .binary op, left, right => .ok ⟨.binary op left right, false⟩
  | .logical op, left, right =>
    let coalesce := op == .coalesce
    if a.mixes coalesce || b.mixes coalesce then .error .mixedCoalesce else .ok ⟨.logical op left right, false⟩

end Operand

/-- A row of operands: those that still wait for their right neighbour, nearest first, and the last one. -/
structure Row where
  waiting : List (Operand × Joint)
  last : Operand

namespace Row

/-- Settle the waiting operators of at least the given rank. -/
def settle (rank : Nat) : List (Operand × Joint) → Operand → Except SyntaxError Row
  | [], o => .ok ⟨[], o⟩
  | (a, j) :: rest, o =>
    if rank ≤ j.rank then do settle rank rest (← Operand.join j a o) else .ok ⟨(a, j) :: rest, o⟩

/-- One more operator and operand. -/
def push (row : Row) (j : Joint) (o : Operand) : Except SyntaxError Row := do
  if j == .binary .pow && row.last.isOperation then throw (.unexpected "**")
  let settled ← settle (if j == .binary .pow then j.rank + 1 else j.rank) row.waiting row.last
  .ok ⟨(settled.last, j) :: settled.waiting, o⟩

/-- A type assertion on what stands so far. -/
def assertType (row : Row) (form : Form) (type : Tree) : Except SyntaxError Row := do
  let settled ← settle Joint.comparisonRank row.waiting row.last
  .ok ⟨settled.waiting, ⟨.node form [settled.last.tree, type], false⟩⟩

/-- The tree of the whole row. -/
def finish (row : Row) : Except SyntaxError Tree := do
  let settled ← settle 0 row.waiting row.last
  match settled.last.tree with
  | .node (.privateName n) _ => throw (.unexpected ("#" ++ n))
  | t => .ok t

end Row

end Chainlift
