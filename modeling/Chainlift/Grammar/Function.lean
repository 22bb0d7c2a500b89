import Chainlift.Grammar.Types

/-!
# Patterns, parameters, bodies and templates

The parts of functions, and the keys of properties. A statement that is nothing but a string literal, at the start of a
body, is a directive.
-/

namespace Chainlift.Grammar

open Parse

/-- The expression in brackets, where `in` is an operator. -/
def computedKey (g : Grammar) : Parse Tree := do
  let t ← g.valueIn
  need "]"
  return .node .computed [t]

/-- The key of a property. -/
def propertyKey (g : Grammar) : Parse Tree := do
  match ← token with
  | .word s _ => advance; return .node (.name s) []
  | .string v _ => advance; return .string v
  | .number n => advance; return .number n
  | .bigint n => advance; return .node (.bigint n) []
  | .privateName n => advance; return .node (.privateName n) []
  | .punct "[" => advance; computedKey g
  | _ => unexpected

/-! ## Patterns -/

/-- A pattern, and the default value after it if there is one. -/
def patternElement (g : Grammar) : Parse Tree := do
  let p ← g.pattern
  if ← eat "=" then return .node .withDefault [p, ← g.valueIn] else return p

/-- Three points and the pattern that takes what is left. -/
def restPattern (g : Grammar) : Parse Tree := do
  need "..."
  let p ← g.pattern
  return .node .rest [p, ← annotated g]

/-- A rest is the last part. -/
def restIsLast (ps : List Tree) (ended : Bool) : Bool :=
  ps.dropLast.all (fun p => p.form != .rest) && !(ended && (ps.getLast?.map Tree.form) == some .rest)

def arrayPattern (g : Grammar) : Parse Tree := do
  let ps ← loop (σ := List Tree) (fun seen => do
    if ← eat "]" then return .inr seen.reverse
    if ← eat "," then return .inl (.absent :: seen)
    if ← isPunct "..." then
      let r ← restPattern g
      need "]"
      return .inr (r :: seen).reverse
    let p ← patternElement g
    unless ← isPunct "]" do need ","
    return .inl (p :: seen)) []
  return .node .arrayPattern ps

def patternProperty (g : Grammar) : Parse Tree := do
  if ← isPunct "..." then restPattern g
  else
    let simple ← atVariable
    let key ← propertyKey g
    if ← eat ":" then return .node (.patternProperty false) [key, ← patternElement g]
    match key with
    | .node (.name n) _ =>
      unless simple do unexpected
      let v := Tree.binding n
      if ← eat "=" then return .node (.patternProperty true) [key, .node .withDefault [v, ← g.valueIn]]
      else return .node (.patternProperty true) [key, v]
    | _ => unexpected

/-- A pattern that binds names. -/
def readPattern (g : Grammar) : Parse Tree := do
  match ← token with
  | .punct "[" => advance; arrayPattern g
  | .punct "\x7b" => do
    advance
    let (ps, ended) ← separated "\x7d" (patternProperty g)
    unless restIsLast ps ended do unexpected
    return .node .objectPattern ps
  | _ => bindingName

/-! ## Functions -/

def parameter (g : Grammar) : Parse Tree := do
  if ← isPunct "..." then restPattern g
  else
    let p ← g.pattern
    let optional ← do if (← read).typescript then eat "?" else pure false
    let type ← annotated g
    let value ← do if ← eat "=" then g.valueIn else pure .absent
    return .node (.parameter optional) [p, type, value]

/-- The parameters in parentheses. -/
def parameters (g : Grammar) : Parse Tree := do
  need "("
  let (ps, ended) ← separated ")" (parameter g)
  unless restIsLast ps ended do unexpected
  return .node .parameters ps

/-- The directives and the statements up to the end that `finished` tests. -/
def directivesAndStatements (g : Grammar) (finished : Parse Bool) : Parse (List String × List Tree) :=
  loop (σ := List String × List Tree × Bool) (fun (ds, ss, early) => do
    if ← finished then return .inr (ds.reverse, ss.reverse)
    let first ← token
    let s ← g.statement
    match early, first, s.uncommented with
    | true, .string _ raw, .node .expressionStmt [.string _] => return .inl (raw :: ds, ss, true)
    | _, _, _ => return .inl (ds, s :: ss, false)) ([], [], true)

/-- The setting inside a function. -/
def inFunction (isAsync generator : Bool) (s : Setting) : Setting :=
  { s with allowIn := true, allowReturn := true, allowAwait := isAsync, allowYield := generator }

/-- The body of a function, in braces. -/
def functionBody (g : Grammar) (isAsync generator : Bool) : Parse Tree := do
  need "\x7b"
  let (ds, ss) ← under (inFunction isAsync generator) (directivesAndStatements g (eat "\x7d"))
  return .node (.body ds) ss

/-- Parameters, return type and body. -/
def functionParts (g : Grammar) (isAsync generator : Bool) : Parse (List Tree) := do
  let ps ← under (inFunction isAsync generator) (parameters g)
  let type ← annotated g
  let body ← functionBody g isAsync generator
  return [ps, type, body]

/-- What follows `function`. A declaration has a name unless it is exported as the default. -/
def function (g : Grammar) (declared isAsync needsName : Bool) : Parse Tree := do
  needWord "function"
  let generator ← eat "*"
  let named := if declared then atVariable else under (inFunction isAsync generator) atVariable
  let name ← do
    if ← named then
      match ← token with
      | .word s _ => advance; pure (Tree.binding s)
      | _ => unexpected
    else if needsName then unexpected
    else pure .absent
  return .node (.function declared isAsync generator false) (name :: (← functionParts g isAsync generator))

/-- A function that is the value of a method. -/
def methodFunction (g : Grammar) (isAsync generator : Bool) : Parse Tree := do
  return .node (.function false isAsync generator false) (.absent :: (← functionParts g isAsync generator))

/-- The body of an arrow: a function body or an expression. -/
def arrowBody (g : Grammar) (isAsync : Bool) : Parse Tree := do
  if ← isPunct "\x7b" then functionBody g isAsync false
  else under (fun s => { inFunction isAsync false s with allowIn := s.allowIn }) g.value

/-! ## Templates -/

/-- Read the closing brace of a substitution as the start of the next chunk. -/
def continueTemplate : Parse Unit := do
  let l ← get
  match l.start with
  | '\x7d' :: cs =>
    let (t, rest) ← liftM (Lexer.templateToken cs)
    set { l with token := t, rest := rest }
  | _ => throw (.expected "\x7d" l.token.describe)

/-- A template from its first chunk on. Outside a tagged template every escape has a value. -/
def template (g : Grammar) (tagged : Bool) : Parse Tree :=
  loop (σ := List String × List Tree) (fun (chunks, ts) => do
    match ← token with
    | .template raw last valid =>
      unless valid || tagged do throw .invalidEscape
      let chunks := raw :: chunks
      advance
      if last then return .inr (.node (.template chunks.reverse) ts.reverse)
      let t ← g.expressionIn
      continueTemplate
      return .inl (chunks, t :: ts)
    | _ => unexpected) ([], [])

end Chainlift.Grammar
