import Chainlift.Grammar.Reading
import Chainlift.Token.Lexer

/-!
# The steps of reading a program

A `Parse` reads some tokens from the current one on, under a `Setting` that says which words and operators are available
here. What can stand inside itself is reached through a `Grammar`, a record of the readers of the nested parts, which is
tied together by depth at the end, so that each reader is an ordinary definition. Lists are read by `loop`, whose number of
rounds is bounded by the length of the text.
-/

namespace Chainlift

structure Setting where
  /-- Types may be written. -/
  typescript : Bool
  /-- The operator `in` is available: not at the head of a `for`. -/
  allowIn : Bool := true
  allowAwait : Bool
  allowYield : Bool := false
  allowReturn : Bool := false
  /-- No list of the text has more parts. -/
  budget : Nat

abbrev Parse := ReaderT Setting (StateT Lexeme (Except SyntaxError))

namespace Parse

/-- The current token. -/
def token : Parse Token := do return (← get).token

def unexpected {α : Type} : Parse α := do throw (.unexpected (← token).describe)

/-- Go on to the next token. -/
def advance : Parse Unit := do
  let l ← (← get).after
  set l

/-- The token after the current one, if there is one. -/
def peek : Parse (Option Lexeme) := do return (← get).after.toOption

/-- A line break stands before the current token. -/
def atNewline : Parse Bool := do return (← get).newline

def isPunct (s : String) : Parse Bool := do return (← token) == .punct s

def isWord (s : String) : Parse Bool := do return (← token) == .word s false

/-- Take the operator or bracket if it is the current token. -/
def eat (s : String) : Parse Bool := do
  if ← isPunct s then advance; return true
  else return false

def need (s : String) : Parse Unit := do
  unless ← eat s do throw (.expected s (← token).describe)

def eatWord (s : String) : Parse Bool := do
  if ← isWord s then advance; return true
  else return false

def needWord (s : String) : Parse Unit := do
  unless ← eatWord s do throw (.expected s (← token).describe)

/-- The end of a statement: a semicolon, or a place where it may be left out. -/
def semicolon : Parse Unit := do
  if ← eat ";" then return
  if (← atNewline) || (← isPunct "\x7d") || (← token) == .finish then return
  throw (.expected ";" (← token).describe)

/-- Try to read; if that fails, nothing has been read. -/
def attempt {α : Type} (p : Parse α) : Parse (Option α) := fun setting l =>
  match p setting l with
  | .ok (a, l') => .ok (some a, l')
  | .error _ => .ok (none, l)

/-- Read with another setting. -/
def under {α : Type} (change : Setting → Setting) (p : Parse α) : Parse α := fun setting => p (change setting)

def iterate {σ α : Type} (step : σ → Parse (σ ⊕ α)) : Nat → σ → Parse α
  | 0, _ => throw .tooDeep
  | n + 1, s => do
    match ← step s with
    | .inl s => iterate step n s
    | .inr a => return a

/-- Repeat a step until it gives a result. -/
def loop {σ α : Type} (step : σ → Parse (σ ⊕ α)) (s : σ) : Parse α := do
  iterate step (← read).budget s

/-- The items up to the closing token. -/
def itemsUntil {α : Type} (close : String) (item : Parse α) : Parse (List α) :=
  loop (σ := List α) (fun seen => do
    if ← eat close then return .inr seen.reverse
    return .inl ((← item) :: seen)) []

/-- The items up to the closing token with commas between them, and whether a comma stands after the last one. -/
def separated {α : Type} (close : String) (item : Parse α) : Parse (List α × Bool) :=
  loop (σ := List α × Bool) (fun (seen, ended) => do
    if ← eat close then return .inr (seen.reverse, ended && !seen.isEmpty)
    unless ended do throw (.expected "," (← token).describe)
    let a ← item
    return .inl (a :: seen, ← eat ",")) ([], true)

/-- One or more items with commas between them. -/
def listed {α : Type} (item : Parse α) : Parse (List α) := do
  loop (σ := List α) (fun seen => do
    let seen := (← item) :: seen
    if ← eat "," then return .inl seen else return .inr seen.reverse) []

/-- An expression that is wanted as such. -/
def expression (r : Reading) : Parse Tree := liftM r.expr

end Parse

/-- The readers of what can stand inside other parts of a program. -/
structure Grammar where
  /-- An expression without a comma at its top. -/
  assignment : Parse Reading
  /-- An operand: an expression without binary operators at its top. -/
  operand : Parse Reading
  /-- What stands after `new`. -/
  construct : Parse Reading
  statement : Parse Tree
  /-- A pattern that binds names. -/
  pattern : Parse Tree
  type : Parse Tree

namespace Grammar

/-- The value of an expression without a comma. -/
def value (g : Grammar) : Parse Tree := do Parse.expression (← g.assignment)

/-- The value of an expression without a comma, where `in` is an operator. -/
def valueIn (g : Grammar) : Parse Tree := Parse.under (fun s => { s with allowIn := true }) g.value

/-- An expression that may be a sequence. -/
def sequence (g : Grammar) : Parse Reading := do
  let first ← g.assignment
  if ← Parse.isPunct "," then
    let ts ← Parse.loop (σ := List Tree) (fun seen => do
      if ← Parse.eat "," then return .inl ((← g.value) :: seen) else return .inr seen.reverse) [← Parse.expression first]
    return .value (.sequence ts)
  else return first

/-- The value of an expression that may be a sequence. -/
def expression (g : Grammar) : Parse Tree := do Parse.expression (← g.sequence)

/-- The value of an expression that may be a sequence, where `in` is an operator. -/
def expressionIn (g : Grammar) : Parse Tree := Parse.under (fun s => { s with allowIn := true }) g.expression

end Grammar

/-! ## Names -/

/-- The words that are never names of variables. -/
def reservedWords : List String :=
  ["break", "case", "catch", "class", "const", "continue", "debugger", "default", "delete", "do", "else", "enum", "export",
   "extends", "false", "finally", "for", "function", "if", "import", "in", "instanceof", "new", "null", "return", "super",
   "switch", "this", "throw", "true", "try", "typeof", "var", "void", "while", "with"]

namespace Parse

/-- Whether a word can name a variable here. -/
def isVariable (s : String) : Parse Bool := do
  let setting ← read
  return !reservedWords.contains s && !(s == "await" && setting.allowAwait) && !(s == "yield" && setting.allowYield)

/-- Whether the current token names a variable. -/
def atVariable : Parse Bool := do
  match ← token with
  | .word s _ => isVariable s
  | _ => return false

/-- A name of a variable. -/
def variableName : Parse String := do
  match ← token with
  | .word s _ =>
    unless ← isVariable s do unexpected
    advance
    return s
  | _ => unexpected

/-- Any word, as after a point. -/
def anyName : Parse String := do
  match ← token with
  | .word s _ => advance; return s
  | _ => unexpected

/-- A binding of a variable. -/
def bindingName : Parse Tree := do return .binding (← variableName)

end Parse

end Chainlift
