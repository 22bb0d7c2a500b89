import Chainlift.Scope.Tally
import Chainlift.Tree.Shape

/-!
# Scopes

A scope is the parameter list and the statements of a function or an arrow, the statements of a static block, or those of a
program. What it declares are its parameters, the variables in its statements at any depth, and the functions declared there;
nested functions and static blocks are scopes of their own.
-/

namespace Chainlift

structure Scope where
  parameters : Option Tree
  statements : List Tree
  deriving DecidableEq, Repr

/-- Functions, arrows and static blocks have scopes of their own. -/
def Form.opensScope (f : Form) : Bool := f.isFunction || f == .staticBlock

namespace Tree

/-- The function that the form declares under its first part. -/
def ownFunctions : Form → List Tree → List String
  | .function true _ _ _, .node (.binding name) _ :: _ => [name]
  | _, _ => []

mutual

/-- The functions declared in a tree. -/
def declaredFunctions : Tree → List String
  | .node f ps => ownFunctions f ps ++ if f.opensScope then [] else declaredFunctionsAll ps

def declaredFunctionsAll : List Tree → List String
  | [] => []
  | t :: ts => t.declaredFunctions ++ declaredFunctionsAll ts

end

/-- The variables that a declarator binds. -/
def ownVariables : Form → List Tree → List String
  | .declarator, p :: _ => p.boundNames
  | _, _ => []

mutual

/-- The variables declared in a tree. -/
def declaredVariables : Tree → List String
  | .node f ps => if f.opensScope then [] else ownVariables f ps ++ declaredVariablesAll ps

def declaredVariablesAll : List Tree → List String
  | [] => []
  | t :: ts => t.declaredVariables ++ declaredVariablesAll ts

end

/-- The statements of a body: those in braces, or the expression of an arrow. -/
def bodyStatements : Tree → List Tree
  | .node (.body _) ss => ss
  | t => [t]

/-- The body with other statements. -/
def withStatements (body : Tree) (ss : List Tree) : Tree :=
  match body, ss with
  | .node (.body ds) _, ss => .node (.body ds) ss
  | _, [t] => t
  | t, _ => t

end Tree

namespace Scope

/-- The scope that a node opens. -/
def of? : Form → List Tree → Option Scope
  | .function .., [_, parameters, _, body] => some ⟨some parameters, body.bodyStatements⟩
  | .arrow .., [parameters, _, body] => some ⟨some parameters, body.bodyStatements⟩
  | .staticBlock, ss => some ⟨none, ss⟩
  | _, _ => none

/-- The parts of a node whose scope has these statements now. -/
def put (f : Form) (ps ss : List Tree) : List Tree :=
  match f, ps with
  | .function .., [name, parameters, type, body] => [name, parameters, type, body.withStatements ss]
  | .arrow .., [parameters, type, body] => [parameters, type, body.withStatements ss]
  | .staticBlock, _ => ss
  | _, ps => ps

/-- The scope of the function that is declared by a statement. -/
def ofFunction? (t : Tree) : Option Scope :=
  match t.uncommented with
  | .node (.function true isAsync generator marked) ps => of? (.function true isAsync generator marked) ps
  | _ => none

/-- The scope of a program. -/
def ofProgram (p : Program) : Scope := ⟨none, p.body⟩

/-- The names of the parameters. -/
def parameterNames (s : Scope) : List String := (s.parameters.map Tree.boundNames).getD []

/-- The uses of a variable in the parameters: in their default values and computed keys. -/
def parameterUses (s : Scope) (name : String) : Nat := (s.parameters.map (·.uses name)).getD 0

/-- The uses of a variable in the statements. -/
def statementUses (s : Scope) (name : String) : Nat := Tree.usesAll name s.statements

def variableNames (s : Scope) : List String := Tree.declaredVariablesAll s.statements

def functionNames (s : Scope) : List String := Tree.declaredFunctionsAll s.statements

/-- The variables that belong to the scope when its expressions are rewritten. -/
def owned (s : Scope) : List String := s.variableNames ++ s.parameterNames

/-- The tally of all uses in the scope. -/
def tally (s : Scope) : Tally := .ofTrees (s.parameters.toList ++ s.statements)

end Scope

end Chainlift
