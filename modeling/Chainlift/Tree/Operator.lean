import Chainlift.Tree.Form

/-!
# Operators

The spelling of the operators, and how tightly those between two operands bind.
-/

namespace Chainlift

/-- An operator that stands between two operands. -/
inductive Joint where
  | binary (op : BinaryOp)
  | logical (op : LogicalOp)
  deriving DecidableEq, Repr

namespace BinaryOp

def symbol : BinaryOp → String
  | .eq => "==" | .ne => "!=" | .strictEq => "===" | .strictNe => "!=="
  | .lt => "<" | .le => "<=" | .gt => ">" | .ge => ">="
  | .shiftLeft => "<<" | .shiftRight => ">>" | .shiftRightZero => ">>>"
  | .add => "+" | .sub => "-" | .mul => "*" | .div => "/" | .rem => "%" | .pow => "**"
  | .bitOr => "|" | .bitXor => "^" | .bitAnd => "&"
  | .isIn => "in" | .instanceOf => "instanceof"

def all : List BinaryOp :=
  [.eq, .ne, .strictEq, .strictNe, .lt, .le, .gt, .ge, .shiftLeft, .shiftRight, .shiftRightZero, .add, .sub, .mul, .div,
    .rem, .pow, .bitOr, .bitXor, .bitAnd, .isIn, .instanceOf]

/-- The operators that have an assignment of their own. -/
def assignable : List BinaryOp :=
  [.shiftLeft, .shiftRight, .shiftRightZero, .add, .sub, .mul, .div, .rem, .pow, .bitOr, .bitXor, .bitAnd]

end BinaryOp

namespace LogicalOp

def symbol : LogicalOp → String
  | .and => "&&" | .or => "||" | .coalesce => "??"

def all : List LogicalOp := [.and, .or, .coalesce]

end LogicalOp

namespace UnaryOp

def symbol : UnaryOp → String
  | .plus => "+" | .minus => "-" | .not => "!" | .bitNot => "~"
  | .typeOf => "typeof" | .void => "void" | .delete => "delete"

/-- Written as a word. -/
def isWord : UnaryOp → Bool
  | .typeOf | .void | .delete => true
  | _ => false

def all : List UnaryOp := [.plus, .minus, .not, .bitNot, .typeOf, .void, .delete]

end UnaryOp

namespace AssignOp

def symbol : AssignOp → String
  | .plain => "="
  | .arith op => op.symbol ++ "="
  | .logic op => op.symbol ++ "="

def all : List AssignOp := .plain :: BinaryOp.assignable.map .arith ++ LogicalOp.all.map .logic

end AssignOp

namespace Joint

def symbol : Joint → String
  | .binary op => op.symbol
  | .logical op => op.symbol

/-- Operators of a higher rank bind more tightly. -/
def rank : Joint → Nat
  | .logical .coalesce => 1
  | .logical .or => 2
  | .logical .and => 3
  | .binary op => match op with
    | .bitOr => 4
    | .bitXor => 5
    | .bitAnd => 6
    | .eq | .ne | .strictEq | .strictNe => 7
    | .lt | .le | .gt | .ge | .isIn | .instanceOf => 8
    | .shiftLeft | .shiftRight | .shiftRightZero => 9
    | .add | .sub => 10
    | .mul | .div | .rem => 11
    | .pow => 12

/-- The rank of comparisons, at which a type assertion binds too. -/
def comparisonRank : Nat := 8

def all : List Joint := BinaryOp.all.map .binary ++ LogicalOp.all.map .logical

end Joint

end Chainlift
