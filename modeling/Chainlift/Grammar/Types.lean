import Chainlift.Grammar.Parse

/-!
# Types

The types that an annotation or an assertion can hold: words such as `any`, names with arguments, literals, arrays, tuples,
unions and intersections. A name in a type is a use of it, like a name in an expression.
-/

namespace Chainlift.Grammar

open Parse

/-- The words that are types of their own. -/
def typeWords : List String :=
  ["any", "unknown", "never", "number", "string", "boolean", "bigint", "symbol", "object", "void", "null", "undefined", "this"]

/-- A closing angle bracket, which may be the first character of a longer operator. -/
def closeAngle : Parse Unit := do
  let l ← get
  match l.token, l.start with
  | .punct _, '>' :: rest =>
    let next ← liftM (Lexeme.next false false rest)
    set next
  | t, _ => throw (.expected ">" t.describe)

/-- The arguments of a type, if there are any. -/
def typeArguments (g : Grammar) : Parse (List Tree) := do
  if ← eat "<" then
    let args ← listed g.type
    closeAngle
    return args
  else return []

/-- A name with qualifiers. -/
def typeName : Parse Tree := do
  let first ← variableName
  loop (fun t => do
    if ← eat "." then return .inl (.node (.typeQualified (← anyName)) [t]) else return .inr t) (Tree.reference first)

/-- A type without operators. -/
def simpleType (g : Grammar) : Parse Tree := do
  match ← token with
  | .word "typeof" false => advance; return .node .typeQuery [← typeName]
  | .word "true" false => advance; return .node .typeLiteral [.bool true]
  | .word "false" false => advance; return .node .typeLiteral [.bool false]
  | .word s false =>
    if typeWords.contains s then advance; return .node (.typeWord s) []
    else
      let name ← typeName
      return .node .typeReference (name :: (← typeArguments g))
  | .number n => advance; return .node .typeLiteral [.number n]
  | .bigint n => advance; return .node .typeLiteral [.node (.bigint n) []]
  | .string v _ => advance; return .node .typeLiteral [.string v]
  | .punct "(" => do
    advance
    let t ← g.type
    need ")"
    return t
  | .punct "[" => do
    advance
    return .node .typeTuple (← separated "]" g.type).1
  | _ => unexpected

/-- A type with brackets after it. -/
def arrayType (g : Grammar) : Parse Tree := do
  loop (fun t => do
    if (← isPunct "[") && !(← atNewline) then
      advance
      need "]"
      return .inl (.node .typeArray [t])
    else return .inr t) (← simpleType g)

/-- One or more types with an operator between them, which may also stand before the first. -/
def operatorType (symbol : String) (form : Form) (part : Parse Tree) : Parse Tree := do
  let _ ← eat symbol
  let ts ← loop (σ := List Tree) (fun seen => do
    let seen := (← part) :: seen
    if ← eat symbol then return .inl seen else return .inr seen.reverse) []
  match ts with
  | [t] => return t
  | ts => return .node form ts

def readType (g : Grammar) : Parse Tree :=
  operatorType "|" .typeUnion (operatorType "&" .typeIntersection (arrayType g))

/-- A colon and a type, where types may be written. -/
def annotated (g : Grammar) : Parse Tree := do
  if (← read).typescript && (← isPunct ":") then
    advance
    g.type
  else return .absent

end Chainlift.Grammar
