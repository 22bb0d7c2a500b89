import Chainlift.Grammar.Member
import Chainlift.Grammar.Row

/-!
# Expressions

From the operands outwards: primaries, then accesses and calls (`accesses`), operators in front (`operand`), rows of binary
operators (`row`), conditionals and assignments (`assignment`). An arrow function is found where its parameters end, so the
readers inside an expression hand it through untouched.

Accesses after a `?.` belong to one chain, which is closed where they end.
-/

namespace Chainlift.Grammar

open Parse

/-! ## Primaries -/

/-- A regular expression, where the current token is the slash that begins it. -/
def regexp : Parse Reading := do
  let l ← get
  let (t, rest) ← liftM (Lexer.regexpToken (l.start.drop 1))
  set { l with token := t, rest := rest }
  advance
  match t with
  | .regexp pattern flags => return .value (.node (.regexp pattern flags) [])
  | _ => unexpected

/-- An arrow stands here. -/
def atArrow : Parse Bool := do return (← isPunct "=>") && !(← atNewline)

/-- The arrow and the body after the given parameters. -/
def arrowWith (g : Grammar) (isAsync : Bool) (params : List Tree) (type : Tree) : Parse Reading := do
  need "=>"
  let body ← arrowBody g isAsync
  return .ofArrow (.node (.arrow isAsync false) [.node .parameters params, type, body])

/-- The items in parentheses, and whether a comma stands after the last one. -/
def items (g : Grammar) : Parse (List Item × Bool) := do
  need "("
  under (fun s => { s with allowIn := true }) <| separated ")" do
    if ← eat "..." then return Item.spread (← g.assignment) else return Item.plain (← g.assignment)

/-- The items as the parameters of an arrow. -/
def asParameters (items : List Item) (ended : Bool) : Parse (List Tree) := do
  let spreadEnd : Bool := match items.getLast? with
    | some (.spread _) => ended
    | _ => false
  match Item.eachLast Item.parameter items with
  | some ps => if spreadEnd then unexpected else return ps
  | none => unexpected

/-- The arguments of a call, in parentheses. -/
def arguments (g : Grammar) : Parse (List Tree) := do
  let (is, _) ← items g
  liftM (is.mapM Item.expr)

/-- Whether the parameters of an arrow with types seem to begin here. -/
def typedArrowAhead : Parse Bool := do
  let l ← get
  let tokens : Except SyntaxError (Token × Token) := do
    let a ← l.after
    let b ← a.after
    return (a.token, b.token)
  match tokens with
  | .ok (.word .., .punct s) => return s == ":" || s == "?" || s == ","
  | .ok (.punct s, .punct t) => return s == ")" && t == ":"
  | _ => return false

/-- The head of an arrow with types, up to its return type. -/
def typedArrowHead (g : Grammar) : Parse (List Tree × Tree) := do
  let ps ← parameters g
  let type ← annotated g
  unless ← atArrow do unexpected
  return (ps.parts, type)

/-- What stands in parentheses: the parameters of an arrow, if one follows, or an expression. -/
def parenthesis (g : Grammar) (arrowOk : Bool) : Parse Reading := do
  if arrowOk && (← read).typescript && (← typedArrowAhead) then
    if let some (ps, type) ← attempt (typedArrowHead g) then return ← arrowWith g false ps type
  let (is, ended) ← items g
  if arrowOk && (← atArrow) then
    return ← arrowWith g false (← asParameters is ended) .absent
  if ended then unexpected
  match is with
  | [.plain r] => return r.parenthesized
  | [] => unexpected
  | is =>
    let ts ← is.mapM fun i => match i with
      | .plain r => Parse.expression r
      | _ => unexpected
    return { Reading.value (.sequence ts) with closed := true }

/-- What begins with the word `async`: a function, an arrow, or a use of that name. -/
def asyncWord (g : Grammar) (arrowOk : Bool) : Parse Reading := do
  advance
  if (← isWord "function") && !(← atNewline) then return .value (← function g false true false)
  if arrowOk && !(← atNewline) then
    if ← atVariable then
      if let some l ← peek then
        if l.token == .punct "=>" && !l.newline then
          let p ← bindingName
          return ← arrowWith g true [.node (.parameter false) [p, .absent, .absent]] .absent
    if ← isPunct "(" then
      let (is, ended) ← items g
      if ← atArrow then return ← arrowWith g true (← asParameters is ended) .absent
      return .value (.call (.reference "async") (← liftM (is.mapM Item.expr)) false)
  return .ofName "async"

/-- `import(…)` and `import.meta` -/
def importWord (g : Grammar) : Parse Reading := do
  advance
  if ← eat "." then
    needWord "meta"
    return .value (.node .importMeta [])
  let args ← arguments g
  match args with
  | [] => unexpected
  | args => return .value (.node .importCall args)

/-! ## Accesses -/

/-- What has been read of a row of accesses, and whether a link is among them. -/
structure Accesses where
  reading : Reading
  linked : Bool

/-- The access by name after a point. -/
def namedAccess (object : Tree) (optional : Bool) : Parse Tree := do
  match ← token with
  | .privateName n => advance; return .privateMember object n optional
  | .word n _ => advance; return .member object n optional
  | _ => unexpected

/-- The access by a key in brackets. -/
def keyedAccess (g : Grammar) (object : Tree) (optional : Bool) : Parse Tree := do
  need "["
  let k ← g.expressionIn
  need "]"
  return .index object k optional

/-- An access, and what it leaves of the place that can be assigned to. -/
def Accesses.go (linked : Bool) (t : Tree) : Accesses :=
  ⟨if linked then .value t else .place t, linked⟩

/-- One more access, call or template after what has been read. Calls and links are left out after `new`. -/
def access (g : Grammar) (calls : Bool) (a : Accesses) : Parse (Accesses ⊕ Reading) := do
  let finished : Parse (Accesses ⊕ Reading) := do
    if a.linked then return .inr (.value (.chain (← Parse.expression a.reading))) else return .inr a.reading
  if a.reading.arrow then return .inr a.reading
  match ← token with
  | .punct "." => do
    advance
    return .inl (.go a.linked (← namedAccess (← Parse.expression a.reading) false))
  | .punct "[" => return .inl (.go a.linked (← keyedAccess g (← Parse.expression a.reading) false))
  | .punct "(" => do
    if !calls then return ← finished
    let f ← Parse.expression a.reading
    return .inl ⟨.value (.call f (← arguments g) false), a.linked⟩
  | .punct "?." => do
    if !calls then throw (.optionalChainMisused "the class of a new object")
    advance
    let o ← Parse.expression a.reading
    match ← token with
    | .punct "(" => return .inl ⟨.value (.call o (← arguments g) true), true⟩
    | .punct "[" => return .inl (.go true (← keyedAccess g o true))
    | .template .. => throw (.optionalChainMisused "the tag of a template")
    | _ => return .inl (.go true (← namedAccess o true))
  | .template .. => do
    if a.linked then throw (.optionalChainMisused "the tag of a template")
    let tag ← Parse.expression a.reading
    return .inl ⟨.value (.node .tagged [tag, ← template g true]), false⟩
  | .punct "!" => do
    if !(← read).typescript || (← atNewline) then return ← finished
    advance
    let t : Tree := .nonNull (← Parse.expression a.reading)
    return .inl ⟨if a.reading.asPlace.isSome && !a.linked then .place t else .value t, a.linked⟩
  | _ => finished

/-- The accesses and calls after a primary. -/
def accesses (g : Grammar) (calls : Bool) (r : Reading) : Parse Reading :=
  loop (access g calls) ⟨r, false⟩

/-- What stands after `new`: `.target`, or the class and the arguments. -/
def constructed (g : Grammar) (primary : Parse Reading) : Parse Reading := do
  if ← eat "." then
    needWord "target"
    return .value (.node .newTarget [])
  if ← isWord "import" then unexpected
  let r ← accesses g false (← primary)
  if r.arrow then unexpected
  let c ← Parse.expression r
  let args ← do if ← isPunct "(" then arguments g else pure []
  return .value (.node .construct (c :: args))

/-- An operand without operators and accesses. -/
def primary (g : Grammar) (arrowOk : Bool) : Parse Reading := do
  match ← token with
  | .number n => advance; return .value (.number n)
  | .bigint n => advance; return .value (.node (.bigint n) [])
  | .string v _ => advance; return .value (.string v)
  | .template .. => return .value (← template g false)
  | .privateName n => do
    advance
    unless (← isWord "in") && (← read).allowIn do unexpected
    return .value (.node (.privateName n) [])
  | .punct "(" => parenthesis g arrowOk
  | .punct "[" => array g
  | .punct "\x7b" => object g
  | .punct "/" | .punct "/=" => regexp
  | .word "null" false => advance; return .value .null
  | .word "true" false => advance; return .value (.bool true)
  | .word "false" false => advance; return .value (.bool false)
  | .word "this" false => advance; return .value .this
  | .word "function" false => return .value (← function g false false false)
  | .word "class" false => return .value (← classLike g false false)
  | .word "async" false => asyncWord g arrowOk
  | .word "import" false => importWord g
  | .word "new" false => advance; g.construct
  | .word "super" false => do
    advance
    unless (← isPunct ".") || (← isPunct "[") || (← isPunct "(") do unexpected
    return .value (.node .superObject [])
  | .word _ _ => return .ofName (← variableName)
  | _ => unexpected

/-- A primary and the accesses after it. -/
def leftHandSide (g : Grammar) (arrowOk : Bool) : Parse Reading := do accesses g true (← primary g arrowOk)

/-- What stands after `new`. -/
def readConstruct (g : Grammar) : Parse Reading :=
  constructed g (primary g false)

/-! ## Operators -/

/-- The operator in front of an operand that the token is. -/
def unaryOp? : Token → Option UnaryOp
  | .punct s => UnaryOp.all.find? fun op => !op.isWord && op.symbol == s
  | .word s false => UnaryOp.all.find? fun op => op.isWord && op.symbol == s
  | _ => none

/-- Whether the token is `++` or `--`, and which. -/
def updateOp? : Token → Option Bool
  | .punct "++" => some true
  | .punct "--" => some false
  | _ => none

/-- An operand with the operators in front of it and after it. -/
def readOperand (g : Grammar) (arrowOk : Bool) : Parse Reading := do
  let t ← token
  if let some op := unaryOp? t then
    advance
    return .value (.unary op (← Parse.expression (← g.operand)))
  if let some increment := updateOp? t then
    advance
    match (← g.operand).asPlace with
    | some place => return .value (.node (.update increment true) [place])
    | none => throw .invalidTarget
  if t == .word "await" false && (← read).allowAwait then
    advance
    return .value (.node .await [← Parse.expression (← g.operand)])
  let r ← leftHandSide g arrowOk
  if r.arrow || (← atNewline) then return r
  match updateOp? (← token) with
  | none => return r
  | some increment =>
    match r.asPlace with
    | some place => advance; return .value (.node (.update increment false) [place])
    | none => throw .invalidTarget

/-- The type assertion that the current token begins. -/
def assertion? : Parse (Option Form) := do
  if !(← read).typescript || (← atNewline) then return none
  if ← isWord "as" then return some .asType
  if ← isWord "satisfies" then return some .satisfiesType
  return none

/-- The operand of a row. -/
def rowOperand (r : Reading) : Parse Operand := do return ⟨← Parse.expression r, r.closed⟩

/-- One more operator of a row, or the end. -/
def joinStep (g : Grammar) (row : Row) : Parse (Row ⊕ Reading) := do
  if let some form ← assertion? then
    advance
    return .inl (← liftM (row.assertType form (← g.type)))
  match Joint.ofToken? (← read).allowIn (← token) with
  | none => return .inr (.value (← liftM row.finish))
  | some j =>
    advance
    let r ← g.operand
    return .inl (← liftM (row.push j (← rowOperand r)))

/-- A row of operands. A single operand keeps its readings; a place under a type assertion stays one. -/
def readRow (g : Grammar) : Parse Reading := do
  let first ← readOperand g true
  if first.arrow then return first
  let more := (← assertion?).isSome || (Joint.ofToken? (← read).allowIn (← token)).isSome
  match first.expr with
  | .ok (.node (.privateName n) _) => unless more do throw (.unexpected ("#" ++ n))
  | _ => pure ()
  if !more then return first
  let r ← loop (joinStep g) ⟨[], ← rowOperand first⟩
  match r.expr with
  | .ok t => match t.form with
    | .asType | .satisfiesType => return if first.asPlace.isSome && t.parts.head? == first.expr.toOption then .place t else r
    | _ => return r
  | .error _ => return r

def readConditional (g : Grammar) : Parse Reading := do
  let r ← readRow g
  if r.arrow then return r
  if ← eat "?" then
    let test ← Parse.expression r
    let yes ← g.valueIn
    need ":"
    return .value (.conditional test yes (← g.value))
  else return r

/-- The operand of `yield` is missing. -/
def noOperand : Parse Bool := do
  if ← atNewline then return true
  match ← token with
  | .finish => return true
  | .punct s => return [")", "]", "\x7d", ",", ";", ":"].contains s
  | .word s false => return s == "in" || s == "of"
  | _ => return false

def readYield (g : Grammar) : Parse Reading := do
  needWord "yield"
  if !(← atNewline) && (← eat "*") then return .value (.node (.yield true) [← g.value])
  if ← noOperand then return .value (.node (.yield false) [.absent])
  return .value (.node (.yield false) [← g.value])

def assignOp? : Token → Option AssignOp
  | .punct s => AssignOp.all.find? fun op => op.symbol == s
  | _ => none

/-- An arrow whose parameter is a single name begins here. -/
def nameArrow : Parse Bool := do
  if ← atVariable then
    match ← peek with
    | some l => return l.token == .punct "=>" && !l.newline
    | none => return false
  else return false

/-- An expression without a comma. -/
def readAssignment (g : Grammar) : Parse Reading := do
  if (← isWord "yield") && (← read).allowYield then return ← readYield g
  if ← nameArrow then
    let p ← bindingName
    return ← arrowWith g false [.node (.parameter false) [p, .absent, .absent]] .absent
  let r ← readConditional g
  if r.arrow then return r
  match assignOp? (← token) with
  | none => return r
  | some .plain =>
    match r.asTarget with
    | none => throw .invalidTarget
    | some t =>
      advance
      let v ← g.value
      return { expr := .ok (.assign .plain t v), target := some t, pattern := r.pattern, default := some v }
  | some op =>
    match r.asPlace with
    | none => throw .invalidTarget
    | some t =>
      advance
      return .value (.assign op t (← g.value))

end Chainlift.Grammar
