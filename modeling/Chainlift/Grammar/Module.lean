import Chainlift.Grammar.Statement

/-!
# Imports and exports

They stand at the top of a program only. A name that is exported without a source is a use of the variable; one that is
exported from another module is not.
-/

namespace Chainlift.Grammar

open Parse

/-- The module after `from`. -/
def fromModule : Parse Points := do
  needWord "from"
  match ← token with
  | .string v _ => advance; return v
  | _ => unexpected

/-- A name under which something is exported. -/
def exportedName : Parse Tree := do
  match ← token with
  | .string v _ => advance; return .string v
  | _ => return .node (.name (← anyName)) []

/-! ## Imports -/

/-- An exported name and the variable that it is imported as. -/
def importNamed : Parse Tree := do
  let plain ← atVariable
  let name ← exportedName
  if ← eatWord "as" then return .node .importNamed [name, ← bindingName]
  match name with
  | .node (.name n) _ =>
    unless plain do unexpected
    return .node .importNamed [name, .binding n]
  | _ => unexpected

/-- The imports after the variable for the default. -/
def importList : Parse (List Tree) := do
  if ← eat "*" then
    needWord "as"
    return [.node .importNamespace [← bindingName]]
  need "\x7b"
  return (← separated "\x7d" importNamed).1

def importStatement : Parse Tree := do
  advance
  match ← token with
  | .string v _ =>
    advance
    semicolon
    return .node (.importDecl v true) []
  | _ =>
    let first ← do
      if ← atVariable then pure [Tree.node .importDefault [← bindingName]] else pure []
    let more ← do
      if first.isEmpty then importList
      else if ← eat "," then importList
      else pure []
    let source ← fromModule
    semicolon
    return .node (.importDecl source false) (first ++ more)

/-! ## Exports -/

/-- A name and the name under which it is exported, and whether the first can be a variable. -/
def exportName : Parse (Tree × Tree × Bool) := do
  let plain ← atVariable
  let name ← exportedName
  let exported ← do if ← eatWord "as" then exportedName else pure name
  return (name, exported, plain)

/-- A list of names in braces, from another module or of variables. -/
def exportList : Parse Tree := do
  need "\x7b"
  let (names, _) ← separated "\x7d" exportName
  if ← isWord "from" then
    let source ← fromModule
    semicolon
    return .node (.exportNames (some source)) (names.map fun (name, exported, _) => .node .exportName [name, exported])
  else
    let parts ← names.mapM fun (name, exported, plain) => match name, plain with
      | .node (.name n) _, true => pure (Tree.node .exportName [.reference n, exported])
      | _, _ => unexpected
    semicolon
    return .node (.exportNames none) parts

/-- `async function` stands here. -/
def atAsyncFunction : Parse Bool :=
  modifies "async" fun l => l.token == .word "function" false && !l.newline

def exportDefault (g : Grammar) : Parse Tree := do
  if ← isWord "function" then function g true false false
  else if ← isWord "class" then classLike g true false
  else if ← atAsyncFunction then
    advance
    function g true true false
  else
    let t ← g.valueIn
    semicolon
    return t

/-- A declaration that is exported under its own name. -/
def exportDeclaration (g : Grammar) : Parse Tree := do
  if let some kind ← variableKind? then
    let vs ← under (fun s => { s with allowIn := true }) (variableList g kind)
    checkValues kind vs
    semicolon
    return vs
  if ← isWord "function" then function g true false true
  else if ← isWord "class" then classLike g true true
  else if ← atAsyncFunction then
    advance
    function g true true true
  else unexpected

def exportStatement (g : Grammar) : Parse Tree := do
  advance
  if ← eatWord "default" then return .node .exportDefault [← exportDefault g]
  if ← isPunct "\x7b" then return ← exportList
  if ← eat "*" then
    let name ← do if ← eatWord "as" then exportedName else pure .absent
    let source ← fromModule
    semicolon
    return .node (.exportAll source) [name]
  return .node .exportDecl [← exportDeclaration g]

/-- A statement at the top of a program. -/
def topStatement (g : Grammar) : Parse Tree := do
  if ← isWord "export" then return ← withComments (exportStatement g)
  if ← isWord "import" then
    let called := (← peek).map fun l => l.token == .punct "(" || l.token == .punct "."
    if !(called.getD false) then return ← withComments importStatement
  g.statement

end Chainlift.Grammar
