import Chainlift.Grammar.Module
import Chainlift.SourceType

/-!
# Reading a whole text

The readers of the nested parts are tied together by depth: `Grammar.ofDepth n` reads what is nested at most `n` deep. Each
step down takes at least one character of the text, so a depth that grows with its length is never used up.
-/

namespace Chainlift

namespace Grammar

/-- The readers for texts that are nested at most that deep. -/
def ofDepth : Nat → Grammar
  | 0 =>
    { assignment := throw .tooDeep, operand := throw .tooDeep, construct := throw .tooDeep, statement := throw .tooDeep
      pattern := throw .tooDeep, type := throw .tooDeep }
  | n + 1 =>
    { assignment := fun s l => readAssignment (ofDepth n) s l
      operand := fun s l => readOperand (ofDepth n) false s l
      construct := fun s l => readConstruct (ofDepth n) s l
      statement := fun s l => readStatement (ofDepth n) s l
      pattern := fun s l => readPattern (ofDepth n) s l
      type := fun s l => readType (ofDepth n) s l }

/-- The readers for a text of that length: between two characters at most four readers follow each other. -/
def ofLength (n : Nat) : Grammar := ofDepth (4 * n + 8)

/-- The setting at the top of a text. -/
def topSetting (type : SourceType) (length : Nat) : Setting :=
  { typescript := type.hasTypes, allowAwait := type.isModule, budget := length + 2 }

end Grammar

open Grammar

namespace Program

/-- The line after `#!` at the very start of a text, and the text after it. -/
def splitHashbang : List Char → Option String × List Char
  | '#' :: '!' :: cs =>
    (some (String.ofList (cs.takeWhile fun c => !Text.isLineBreak c)), cs.dropWhile fun c => !Text.isLineBreak c)
  | cs => (none, cs)

/-- Read a whole program. -/
def parse (type : SourceType) (text : String) : Except SyntaxError Program := do
  let (hashbang, cs) := splitHashbang text.toList
  let g := ofLength cs.length
  let first ← Lexeme.next true false cs
  let atEnd : Parse Bool := do return (← Parse.token) == .finish
  let ((directives, body), _) ←
    directivesAndStatements { g with statement := topStatement g } atEnd (topSetting type cs.length) first
  .ok { hashbang, directives, body }

end Program

/-- The expression that is the first statement of a program. -/
def Program.firstExpression? (p : Program) : Option Tree :=
  match p.body.head?.map Tree.uncommented with
  | some (.node .expressionStmt [t]) => some t
  | _ => none

/-- Read the expression at the start of a text, as in a module. What follows it is left alone, but has to begin with a
token. -/
def Tree.parseExpression (text : String) : Except SyntaxError Tree := do
  let cs := text.toList
  let first ← Lexeme.next true false cs
  let (t, _) ← (ofLength cs.length).expression (topSetting .esModule cs.length) first
  .ok t

end Chainlift
