import Chainlift.Guard.Decision
import Chainlift.Guard.NullCheck
import Chainlift.Options
import Chainlift.Spine.Fold
import Chainlift.Spine.Rewrite

/-!
# From guards to links

A decision tree is read along its failing conditions, where evaluation goes on past each guard. What is reached at the end is
the guarded expression; on the way back each guard becomes one link in it, the last guard first. A strict comparison with
`null` guards only together with a comparison of the same value with `undefined` right after it.
-/

namespace Chainlift

/-- An expression put together from guards. It is `matched` when at least one guard became a link. -/
structure Constructed where
  expr : Tree
  matched : Bool
  /-- The temporaries whose assignments may have gone, in the order in which they went. -/
  consumed : List String
  deriving DecidableEq, Repr

/-- What a chain yields when it ends early: `undefined`, but `true` under `delete`. -/
inductive Yield where
  | undefined | true
  deriving DecidableEq, Repr

/-- What the branches of a decision have to yield so that its guards can be links. -/
structure Acceptance where
  yields : Yield
  loose : Bool
  falseLeaves : Bool

namespace Acceptance

/-- What the guards of a decision protect tells what they have to yield. -/
def ofDecision (d : Decision) (o : Options) : Acceptance :=
  { yields := match d.lastLeaf with
      | (.unary .delete _, none) => .true
      | _ => .undefined
    loose := o.looseLeaves
    falseLeaves := o.falseLeaves }

/-- Whether the branch taken at a missing value is what a chain yields. -/
def accepts (a : Acceptance) : Decision → Bool
  | .test .. => false
  | .leaf value stop => match a.yields, stop with
    | .undefined, some .falsy => a.loose
    | .undefined, none => value.isUndefined || (a.loose && (value.isNull || (a.falseLeaves && value.isFalse)))
    | .true, some .truthy => true
    | .true, none => value.isTrue
    | _, _ => false

end Acceptance

namespace Constructed

/-- The guarded expression itself. -/
def ofLeaf (value : Tree) : Constructed :=
  let (expr, consumed) := value.foldAssigned
  ⟨expr, false, consumed⟩

/-- Make the access on the guarded value a link. The assignment of a temporary stays if the value is still read. -/
def addGuard (c : NullCheck) (rest : Constructed) : Option Constructed :=
  let linked := rest.expr.rewrite c.token (some c.target)
  if linked.matched then
    let stillRead := c.temporary?.any fun name => 0 < linked.expr.uses name
    let linked := if stillRead then rest.expr.rewrite c.token (some c.operand) else linked
    let (expr, folded) := linked.expr.foldAssigned
    some ⟨expr, true, rest.consumed ++ c.temporary?.toList ++ folded⟩
  else none

/-- Put a condition in front that is the value itself when it holds. -/
def addAlternative (condition : Tree) (rest : Constructed) : Constructed :=
  { rest with expr := .logical .or condition rest.expr }

end Constructed

namespace NullCheck

/-- The check can begin a guard. -/
def begins (c : NullCheck) : Bool := !c.negated && (!c.strict || c.compared == .null)

/-- The check is the second half of a guard on the token. -/
def completes (c : NullCheck) (token : Tree) : Bool :=
  !c.negated && c.compared == .undefined && c.token.same token

end NullCheck

namespace Decision

/-- The decision yields the condition itself when that holds. -/
def isStopAt (condition : Tree) : Decision → Bool
  | .leaf value (some .truthy) => value.same condition
  | _ => false

/-- Read a decision along its failing conditions. After a strict comparison with `null` its token is `awaited` by the
comparison with `undefined`. -/
def construct (a : Acceptance) : Decision → (awaited : Option Tree) → Option Constructed
  | .leaf value _, none => some (.ofLeaf value)
  | .leaf .., some _ => none
  | .test condition yes no, some token => do
    let c ← NullCheck.of? condition
    if c.completes token && a.accepts yes then no.construct a none else none
  | .test condition yes no, none =>
    match (NullCheck.of? condition).filter NullCheck.begins with
    | some c => do
      if a.accepts yes then
        let rest ← no.construct a (if c.strict then some c.token else none)
        Constructed.addGuard c rest
      else none
    | none => do
      if yes.isStopAt condition then
        let rest ← no.construct a none
        some (Constructed.addAlternative condition rest)
      else none

/-- A decision that begins with a check of the kind `x != null` is read negated. -/
def oriented (d : Decision) : Decision := if d.root.isNotNullCheck then d.negated else d

/-- What the guards of a decision make of the expression they protect. -/
def build (d : Decision) (o : Options) : Option Constructed := d.construct (.ofDecision d o) none

end Decision

/-- A new form of an expression, and the temporaries whose declarations it may leave dead. -/
structure Replacement where
  expr : Tree
  consumed : List String
  deriving DecidableEq, Repr

/-- Put the guards of a conditional, `&&` or `||` back into links. -/
def Tree.reconstruct (t : Tree) (o : Options) : Option Replacement := do
  let d ← Decision.of? t
  let c ← d.oriented.build o
  if c.matched && !c.expr.same t then some ⟨c.expr, c.consumed⟩ else none

end Chainlift
