import Chainlift.Grammar.Function

/-!
# Members of objects and classes

Properties, methods and accessors share their beginnings: `async`, `get`, `set` and `static` are keys of their own unless a
key follows them.
-/

namespace Chainlift.Grammar

open Parse

/-- Whether a token can begin a key. -/
def beginsKey : Token → Bool
  | .word .. | .string .. | .number _ | .bigint _ | .privateName _ => true
  | .punct s => s == "["
  | _ => false

/-- The current word stands in front of a key, which `ok` finds fit. -/
def modifies (word : String) (ok : Lexeme → Bool) : Parse Bool := do
  if ← isWord word then return ((← peek).map ok).getD false else return false

/-- What stands before the key of a member. -/
structure Start where
  isAsync : Bool
  generator : Bool
  kind : MethodKind

def memberStart : Parse Start := do
  if ← modifies "async" (fun l => !l.newline && (beginsKey l.token || l.token == .punct "*")) then
    advance
    return ⟨true, ← eat "*", .method⟩
  else if ← eat "*" then return ⟨false, true, .method⟩
  else if ← modifies "get" (fun l => beginsKey l.token) then
    advance
    return ⟨false, false, .getter⟩
  else if ← modifies "set" (fun l => beginsKey l.token) then
    advance
    return ⟨false, false, .setter⟩
  else return ⟨false, false, .method⟩

def Start.isPlain (s : Start) : Bool := !s.isAsync && !s.generator && s.kind == .method

/-! ## Objects -/

def property (g : Grammar) : Parse Property := do
  if ← eat "..." then return .ofSpread (← under (fun s => { s with allowIn := true }) g.assignment)
  let start ← memberStart
  let simple ← atVariable
  let key ← propertyKey g
  match key with
  | .node (.privateName _) _ => unexpected
  | _ => pure ()
  if !start.isPlain || (← isPunct "(") then
    let f ← methodFunction g start.isAsync start.generator
    return .ofMethod (.node (.method start.kind false) [key, f])
  if ← eat ":" then return .pair key (← under (fun s => { s with allowIn := true }) g.assignment)
  match key with
  | .node (.name n) _ =>
    unless simple do unexpected
    if ← eat "=" then return .shortDefault n (← g.valueIn)
    else return .short n
  | _ => unexpected

/-- An object from its opening brace on. -/
def object (g : Grammar) : Parse Reading := do
  need "\x7b"
  let (ps, ended) ← separated "\x7d" (property g)
  return Property.asObject ps ended

/-- An array from its opening bracket on. -/
def array (g : Grammar) : Parse Reading := do
  need "["
  let element : Parse Reading := under (fun s => { s with allowIn := true }) g.assignment
  let (items, ended) ← loop (σ := List Item × Bool) (fun (seen, ended) => do
    if ← eat "]" then return .inr (seen.reverse, ended)
    if ← eat "," then return .inl (.hole :: seen, false)
    let item ← do if ← eat "..." then pure (Item.spread (← element)) else pure (Item.plain (← element))
    if ← isPunct "]" then return .inl (item :: seen, false)
    need ","
    return .inl (item :: seen, true)) ([], false)
  return Item.asArray items ended

/-! ## Classes -/

/-- A statement or class element with the comments before it. -/
def withComments (p : Parse Tree) : Parse Tree := do
  let comments := (← get).comments
  let t ← p
  return if comments.isEmpty then t else .commented comments t

def classElement (g : Grammar) : Parse Tree := do
  let isStatic ← do
    if ← modifies "static" (fun l => beginsKey l.token || l.token == .punct "*" || l.token == .punct "\x7b") then
      advance
      pure true
    else pure false
  if isStatic && (← isPunct "\x7b") then
    advance
    let inside (s : Setting) : Setting :=
      { s with allowIn := true, allowAwait := false, allowYield := false, allowReturn := false }
    return .node .staticBlock (← under inside (itemsUntil "\x7d" g.statement))
  let start ← memberStart
  let key ← propertyKey g
  if !start.isPlain || (← isPunct "(") then
    let f ← methodFunction g start.isAsync start.generator
    return .node (.method start.kind isStatic) [key, f]
  let type ← annotated g
  let inside (s : Setting) : Setting := { inFunction false false s with allowReturn := false }
  let value ← do if ← eat "=" then under inside g.value else pure .absent
  semicolon
  return .node (.field isStatic) [key, type, value]

/-- The elements of a class, in braces. -/
def classElements (g : Grammar) : Parse (List Tree) := do
  need "\x7b"
  loop (σ := List Tree) (fun seen => do
    if ← eat "\x7d" then return .inr seen.reverse
    if ← eat ";" then return .inl seen
    return .inl ((← withComments (classElement g)) :: seen)) []

/-- What a class extends: an operand without operators at its top. -/
def classParent (g : Grammar) : Parse Tree := do
  let r ← g.operand
  let t ← Parse.expression r
  let operation : Bool := match t.form with
    | .unary _ | .update .. | .await => !r.closed
    | _ => false
  if operation then unexpected
  return t

/-- A class. A declaration has a name unless it is exported as the default. -/
def classLike (g : Grammar) (declared needsName : Bool) : Parse Tree := do
  needWord "class"
  let name ← do
    if (← isWord "extends") then pure .absent
    else if ← atVariable then bindingName
    else pure .absent
  if needsName && name.form == .absent then unexpected
  let extended ← do if ← eatWord "extends" then classParent g else pure .absent
  return .node (.classDef declared) (name :: extended :: (← classElements g))

end Chainlift.Grammar
