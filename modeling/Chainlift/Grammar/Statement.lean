import Chainlift.Grammar.Expression

/-!
# Statements

Each statement is read by its first word, or is an expression. Variables at the head of a `for` are followed by `in`, `of`
or the rest of a counted head, so the head is read with `in` put aside as an operator. What stands below `if`, a loop or a
label is no declaration of its own, except a plain function.
-/

namespace Chainlift.Grammar

open Parse

/-! ## Variables -/

/-- The words in front of variables, if a declaration of variables begins here. -/
def variableKind? : Parse (Option VariableKind) := do
  let names (l : Lexeme) : Bool := match l.token with
    | .word s _ => !reservedWords.contains s && s != "of"
    | _ => false
  match ← token with
  | .word "var" false => return some .var
  | .word "const" false => return some .const
  | .word "let" false =>
    match ← peek with
    | some l =>
      let bracket := l.token == .punct "[" || l.token == .punct "\x7b"
      return if names l || bracket || l.token == .word "of" false then some .letVar else none
    | none => return none
  | .word "using" false =>
    match ← peek with
    | some l => return if names l && !l.newline then some .using else none
    | none => return none
  | .word "await" false =>
    if !(← read).allowAwait then return none
    match ← peek with
    | some l =>
      if l.token != .word "using" false || l.newline then return none
      match l.after with
      | .ok l => return if names l && !l.newline then some .awaitUsing else none
      | .error _ => return none
    | none => return none
  | _ => return none

/-- A variable with its type and value. -/
def declarator (g : Grammar) : Parse Tree := do
  let p ← g.pattern
  let type ← annotated g
  let value ← do if ← eat "=" then g.value else pure .absent
  return .node .declarator [p, type, value]

/-- The words in front of variables and the variables. -/
def variableList (g : Grammar) (kind : VariableKind) : Parse Tree := do
  advance
  if kind == .awaitUsing then advance
  return .node (.declaration kind) (← listed (declarator g))

/-- Outside the head of a loop over something, patterns and constants have values. -/
def needsValue (kind : VariableKind) : Tree → Bool
  | .node .declarator [p, _, .absent] => p.form == .arrayPattern || p.form == .objectPattern || kind == .const
  | _ => false

def checkValues (kind : VariableKind) (t : Tree) : Parse Unit := do
  if t.parts.any (needsValue kind) then throw (.expected "=" (← token).describe)

/-! ## Parts of statements -/

/-- The statements in braces. -/
def block (g : Grammar) : Parse Tree := do
  need "\x7b"
  return .node .block (← itemsUntil "\x7d" g.statement)

/-- An expression in parentheses. -/
def inParentheses (g : Grammar) : Parse Tree := do
  need "("
  let t ← g.expressionIn
  need ")"
  return t

/-- What cannot stand alone below another statement. -/
def isDeclaration (t : Tree) : Bool :=
  match t.uncommented.form with
  | .declaration kind => kind != .var
  | .classDef declared => declared
  | .function declared isAsync generator _ => declared && (isAsync || generator)
  | _ => false

/-- The statement below another one. -/
def nested (g : Grammar) : Parse Tree := do
  let t ← g.statement
  if isDeclaration t then unexpected
  return t

/-- The label after `break` or `continue`. -/
def jumpLabel : Parse (Option String) := do
  if !(← atNewline) && (← atVariable) then return some (← variableName) else return none

/-! ## Loops -/

/-- The rest of the head of a counted loop, and its body. -/
def countedLoop (g : Grammar) (start : Tree) : Parse Tree := do
  need ";"
  let test ← do if ← isPunct ";" then pure .absent else g.expressionIn
  need ";"
  let step ← do if ← isPunct ")" then pure .absent else g.expressionIn
  need ")"
  return .node .forStmt [start, test, step, ← nested g]

/-- The rest of the head of a loop over something, and its body. -/
def loopOver (g : Grammar) (isAwait : Bool) (each : Tree) : Parse Tree := do
  if ← eatWord "of" then
    let ts ← g.valueIn
    need ")"
    return .node (.forOfStmt isAwait) [each, ts, ← nested g]
  else
    if isAwait then unexpected
    needWord "in"
    let t ← g.expressionIn
    need ")"
    return .node .forInStmt [each, t, ← nested g]

def atLoopOver : Parse Bool := do return (← isWord "of") || (← isWord "in")

def forLoop (g : Grammar) : Parse Tree := do
  advance
  let isAwait ← do if (← read).allowAwait then eatWord "await" else pure false
  need "("
  let headed (s : Setting) : Setting := { s with allowIn := false }
  if let some kind ← variableKind? then
    let vs ← under headed (variableList g kind)
    if vs.parts.length == 1 && (← atLoopOver) then return ← loopOver g isAwait vs
    checkValues kind vs
    if isAwait then unexpected
    return ← countedLoop g vs
  if !isAwait && (← isPunct ";") then return ← countedLoop g .absent
  let r ← under headed g.sequence
  if ← atLoopOver then
    match r.asTarget with
    | some t => return ← loopOver g isAwait t
    | none => throw .invalidTarget
  if isAwait then unexpected
  countedLoop g (← Parse.expression r)

/-! ## Clauses -/

def switchCase (g : Grammar) : Parse Tree := do
  let test ← do
    if ← eatWord "default" then pure .absent
    else
      needWord "case"
      g.expressionIn
  need ":"
  let ss ← loop (σ := List Tree) (fun seen => do
    if (← isPunct "\x7d") || (← isWord "case") || (← isWord "default") then return .inr seen.reverse
    return .inl ((← g.statement) :: seen)) []
  return .node .switchCase (test :: ss)

def catchClause (g : Grammar) : Parse Tree := do
  let (p, type) ← do
    if ← eat "(" then
      let p ← g.pattern
      let type ← annotated g
      need ")"
      pure (p, type)
    else pure (.absent, .absent)
  return .node .catchClause [p, type, ← block g]

def tryStatement (g : Grammar) : Parse Tree := do
  advance
  let b ← block g
  let handler ← do if ← eatWord "catch" then catchClause g else pure .absent
  let last ← do if ← eatWord "finally" then block g else pure .absent
  if handler.form == .absent && last.form == .absent then unexpected
  return .node .tryStmt [b, handler, last]

/-! ## Statements -/

/-- An expression, or a statement with a label. -/
def expressionOrLabel (g : Grammar) : Parse Tree := do
  if ← atVariable then
    if let some l ← peek then
      if l.token == .punct ":" then
        let label ← variableName
        advance
        return .node (.labeled label) [← nested g]
  let t ← g.expressionIn
  semicolon
  return .node .expressionStmt [t]

/-- A statement that its first word tells. -/
def wordStatement (g : Grammar) (word : String) : Parse Tree := do
  match word with
  | "function" => function g true false true
  | "class" => classLike g true true
  | "if" => do
    advance
    let test ← inParentheses g
    let yes ← nested g
    let no ← do if ← eatWord "else" then nested g else pure .absent
    return .node .ifStmt [test, yes, no]
  | "for" => forLoop g
  | "while" => do
    advance
    let test ← inParentheses g
    return .node .whileStmt [test, ← nested g]
  | "do" => do
    advance
    let body ← nested g
    needWord "while"
    let test ← inParentheses g
    let _ ← eat ";"
    return .node .doWhileStmt [body, test]
  | "return" => do
    unless (← read).allowReturn do unexpected
    advance
    let ended := (← atNewline) || (← isPunct ";") || (← isPunct "\x7d") || (← token) == .finish
    let value ← do if ended then pure .absent else g.expressionIn
    semicolon
    return .node .returnStmt [value]
  | "break" => do
    advance
    let label ← jumpLabel
    semicolon
    return .node (.breakStmt label) []
  | "continue" => do
    advance
    let label ← jumpLabel
    semicolon
    return .node (.continueStmt label) []
  | "throw" => do
    advance
    if ← atNewline then unexpected
    let t ← g.expressionIn
    semicolon
    return .node .throwStmt [t]
  | "try" => tryStatement g
  | "switch" => do
    advance
    let value ← inParentheses g
    need "\x7b"
    return .node .switchStmt (value :: (← itemsUntil "\x7d" (switchCase g)))
  | "debugger" => do
    advance
    semicolon
    return .node .debuggerStmt []
  | "with" => do
    advance
    let t ← inParentheses g
    return .node .withStmt [t, ← nested g]
  | "async" => do
    match ← peek with
    | some l =>
      if l.token == .word "function" false && !l.newline then
        advance
        function g true true true
      else expressionOrLabel g
    | none => expressionOrLabel g
  | _ => expressionOrLabel g

/-- A statement with the comments before it. -/
def readStatement (g : Grammar) : Parse Tree := withComments <| do
  if let some kind ← variableKind? then
    let vs ← under (fun s => { s with allowIn := true }) (variableList g kind)
    checkValues kind vs
    semicolon
    return vs
  match ← token with
  | .punct "\x7b" => block g
  | .punct ";" => advance; return .node .emptyStmt []
  | .word s false => wordStatement g s
  | _ => expressionOrLabel g

end Chainlift.Grammar
