import Chainlift.Tree.Shape

/-!
# Decisions

A conditional, `&&` or `||` is a choice between values. Its decision tree tests one atomic condition at each inner node: the
test of `(p && q) ? t : f` is split into `p ? (q ? t : f) : f`. Where `&&` or `||` ends early the value is that of the
condition just tested; such a leaf is marked with the way it was reached.
-/

namespace Chainlift

/-- How an operand that was tested ended the evaluation: `&&` at a falsy one, `||` at a truthy one. -/
inductive Stop where
  | falsy | truthy
  deriving DecidableEq, Repr

inductive Decision where
  /-- A value; with a mark it is the value of the condition that was just tested. -/
  | leaf (value : Tree) (stop : Option Stop)
  | test (condition : Tree) (yes no : Decision)
  deriving Repr

namespace Decision

/-- The choice by a condition between two decisions. A missing one is the value of the atomic condition that decides. -/
def choose (condition : Tree) (yes no : Option Decision) : Decision :=
  match condition with
  | .logical .and p q => choose p (some (choose q yes no)) no
  | .logical .or p q => choose p yes (some (choose q yes no))
  | c => .test c (yes.getD (.leaf c (some .truthy))) (no.getD (.leaf c (some .falsy)))

/-- The decision for the value of an expression. -/
def ofValue : Tree → Decision
  | .conditional c yes no => choose c (some (ofValue yes)) (some (ofValue no))
  | .logical .and p q => choose p (some (ofValue q)) none
  | .logical .or p q => choose p none (some (ofValue q))
  | t => .leaf t none

/-- The decision tree of a conditional, `&&` or `||`. -/
def of? (t : Tree) : Option Decision := if t.isBranching then some (ofValue t) else none

/-- The condition tested first, or the value if there is none. -/
def root : Decision → Tree
  | .leaf value _ => value
  | .test condition _ _ => condition

/-- The leaf that is reached when every condition fails: its value and its mark. -/
def lastLeaf : Decision → Tree × Option Stop
  | .leaf value stop => (value, stop)
  | .test _ _ no => no.lastLeaf

end Decision

/-! ## Negation -/

/-- The opposite of an equality operator. -/
def BinaryOp.opposite? : BinaryOp → Option BinaryOp
  | .eq => some .ne
  | .ne => some .eq
  | .strictEq => some .strictNe
  | .strictNe => some .strictEq
  | _ => none

/-- The negation of a condition: equality operators are turned around, a `!` is taken away, and `&&` and `||` change
places. -/
def Tree.negated : Tree → Tree
  | .binary op a b => match op.opposite? with
    | some op' => .binary op' a b
    | none => .not (.binary op a b)
  | .unary .not t => t
  | .logical .and a b => .logical .or a.negated b.negated
  | .logical .or a b => .logical .and a.negated b.negated
  | t => .not t

/-- Every condition negated and every pair of branches exchanged; the leaves stay as they are. -/
def Decision.negated : Decision → Decision
  | .leaf value stop => .leaf value stop
  | .test condition yes no => .test condition.negated no.negated yes.negated

end Chainlift
