import Chainlift.Scope.Basic

/-!
# Removing dead variables

A variable that nothing in its scope uses is removed with all its declarators, if no value that it is given could be missed.
Declarators bound by a pattern or in the head of a loop over something are left alone, and so is what is exported; a name that
is only bound there is kept.
-/

namespace Chainlift

/-- What came of the removal of a name. -/
inductive Removal where
  /-- So many declarators went. -/
  | removed (count : Nat)
  /-- The scope declares the name, and it stays. -/
  | retained
  /-- The scope does not declare the name. -/
  | unbound
  deriving DecidableEq, Repr

namespace Tree

/-- A declarator of just this name. -/
def declares (name : String) : Tree → Bool
  | .node .declarator (.node (.binding n) _ :: _) => n == name
  | _ => false

/-- The value that a declarator of the name gives it can be skipped. -/
def ownInitialPure (name : String) : Form → List Tree → Bool
  | .declarator, [.node (.binding n) _, _, value] => n != name || value.isPure
  | _, _ => true

mutual

/-- No declarator of the name has a value that could be missed. Values of other declarators are not looked into. -/
def initialPure (name : String) : Tree → Bool
  | .node f ps =>
    if f.isFunction then true
    else if f == .declarator then ownInitialPure name f ps
    else initialPureAll name ps

def initialPureAll (name : String) : List Tree → Bool
  | [] => true
  | t :: ts => t.initialPure name && initialPureAll name ts

end

/-! ## Pruning statements -/

/-- A declaration whose declarators are all gone. -/
def isEmptied (t : Tree) : Bool :=
  match t.uncommented with
  | .node (.declaration _) [] => true
  | _ => false

/-- What stands in the place of a statement that had to be there. -/
def filled (t : Tree) : Tree := if t.isEmptied then .node .emptyStmt [] else t

/-- The statements that hold other statements of the same scope, and what belongs to them. -/
def holdsStatements : Form → Bool
  | .block | .ifStmt | .forStmt | .forInStmt | .forOfStmt _ | .whileStmt | .doWhileStmt | .tryStmt | .catchClause
  | .switchStmt | .switchCase | .labeled _ | .commented _ => true
  | _ => false

/-- The head of a loop over something is not looked into. -/
def hasFixedHead : Form → Bool
  | .forInStmt | .forOfStmt _ => true
  | _ => false

/-- What becomes of emptied declarations: they leave a list, a place for one statement is filled, and the head of a counted
loop is left empty. -/
def tidied (f : Form) (ps : List Tree) : List Tree :=
  match f, ps with
  | .block, ps | .switchCase, ps => ps.filter fun t => !t.isEmptied
  | .forStmt, head :: ps => (if head.isEmptied then .absent else head) :: ps.map filled
  | .ifStmt, ps | .whileStmt, ps | .doWhileStmt, ps | .forInStmt, ps | .forOfStmt _, ps | .labeled _, ps => ps.map filled
  | _, ps => ps

mutual

/-- The statement without the declarators of the name. -/
def pruned (name : String) : Tree → Tree
  | .node f ps =>
    match f with
    | .declaration kind => .node (.declaration kind) (ps.filter fun d => !d.declares name)
    | f =>
      if holdsStatements f then .node f (tidied f (prunedParts name (hasFixedHead f) ps)) else .node f ps

def prunedParts (name : String) (fixedHead : Bool) : List Tree → List Tree
  | [] => []
  | t :: ts => (if fixedHead then t else t.pruned name) :: prunedParts name false ts

end

mutual

/-- How many declarators of the name pruning takes away. -/
def prunable (name : String) : Tree → Nat
  | .node f ps =>
    match f with
    | .declaration _ => ps.countP fun d => d.declares name
    | f => if holdsStatements f then prunableParts name (hasFixedHead f) ps else 0

def prunableParts (name : String) (fixedHead : Bool) : List Tree → Nat
  | [] => 0
  | t :: ts => (if fixedHead then 0 else t.prunable name) + prunableParts name false ts

end

/-- The statements of a list without the declarators of the name. -/
def prunedAll (name : String) (ss : List Tree) : List Tree :=
  (prunedParts name false ss).filter fun t => !t.isEmptied

def prunableAll (name : String) (ss : List Tree) : Nat := prunableParts name false ss

end Tree

namespace Scope

/-- Something keeps a variable of the scope: it is used, a value that it is given could be missed, or none of its declarators
can go. -/
def needs (s : Scope) (name : String) : Bool :=
  0 < s.statementUses name || !Tree.initialPureAll name s.statements || Tree.prunableAll name s.statements == 0

/-- Remove the declarators of a name if nothing uses it. -/
def removeUnused (s : Scope) (name : String) : Removal × List Tree :=
  if s.parameterNames.contains name || 0 < s.parameterUses name then (.retained, s.statements)
  else if s.functionNames.contains name then (.retained, s.statements)
  else if !s.variableNames.contains name then (.unbound, s.statements)
  else if s.needs name then (.retained, s.statements)
  else (.removed (Tree.prunableAll name s.statements), Tree.prunedAll name s.statements)

end Scope

end Chainlift
