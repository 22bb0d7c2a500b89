import Chainlift.Tree.Form

/-!
# Tokens

What the text of a program is cut into, and the ways in which it fails to be one. A token is read together with what stands
before it (line breaks and comments) and keeps the text from its first character on, because a slash or a closing brace can
turn out to begin a regular expression or to continue a template.
-/

namespace Chainlift

/-- Why a text is no program. -/
inductive SyntaxError where
  | unexpected (found : String)
  | expected (what found : String)
  | unterminated (what : String)
  | invalidCharacter (c : Char)
  | invalidEscape
  | invalidNumber
  | invalidTarget
  | mixedCoalesce
  | optionalChainMisused (what : String)
  | tooDeep
  deriving DecidableEq, Repr

def SyntaxError.message : SyntaxError → String
  | .unexpected found => "Unexpected token " ++ found
  | .expected what found => "Expected " ++ what ++ " but found " ++ found
  | .unterminated what => "Unterminated " ++ what
  | .invalidCharacter c => "Invalid character " ++ c.toString
  | .invalidEscape => "Invalid escape sequence"
  | .invalidNumber => "Invalid number"
  | .invalidTarget => "Cannot assign to this expression"
  | .mixedCoalesce => "Logical expressions and coalesce expressions cannot be mixed"
  | .optionalChainMisused what => "Optional chains cannot stand in " ++ what
  | .tooDeep => "Nesting is too deep"

inductive Token where
  /-- A name or a keyword; a keyword with an escape in it is only a name. -/
  | word (text : String) (escaped : Bool)
  | privateName (name : String)
  | punct (text : String)
  | number (value : Double)
  | bigint (value : Nat)
  /-- The value, and the text between the quotes. -/
  | string (value : Points) (raw : String)
  /-- A chunk of a template, whether it is the last one, and whether its escapes are all valid. -/
  | template (raw : String) (last valid : Bool)
  | regexp (pattern flags : String)
  | finish
  deriving DecidableEq, Repr

/-- How a message names the token. -/
def Token.describe : Token → String
  | .word text _ => text
  | .privateName name => "#" ++ name
  | .punct text => text
  | .number value => reprStr value
  | .bigint value => toString value ++ "n"
  | .string _ raw => raw
  | .template raw _ _ => raw
  | .regexp pattern flags => "/" ++ pattern ++ "/" ++ flags
  | .finish => "end of input"

/-- A token in its place. -/
structure Lexeme where
  token : Token
  /-- A line break stands before it. -/
  newline : Bool
  /-- The comments that belong to what begins here. -/
  comments : List Comment
  /-- The text from the token on. -/
  start : List Char
  /-- The text after the token. -/
  rest : List Char

end Chainlift
