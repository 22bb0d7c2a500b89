import Chainlift.Tree.Form

/-!
# String literals

Strings are written in double quotes. Control characters, the quote itself, the backslash, the no-break space and the line
separators are escaped, and so is a lone surrogate, which has no character of its own. The slash in a closing `script` tag is
escaped, so that the text can stand in a page.
-/

namespace Chainlift

namespace Points

def hexDigits (n : Nat) : List Char := Nat.toDigits 16 n

def isDigit (n : Nat) : Bool := 48 ≤ n && n ≤ 57

def isSurrogate (n : Nat) : Bool := 0xD800 ≤ n && n ≤ 0xDFFF

/-- The text of one code point before those that follow it. -/
def escapeOne (n : Nat) (next : Option Nat) : List Char :=
  if n == 0 then if (next.map isDigit).getD false then "\\x00".toList else "\\0".toList
  else if n == 7 then "\\x07".toList
  else if n == 8 then "\\b".toList
  else if n == 10 then "\\n".toList
  else if n == 11 then "\\v".toList
  else if n == 12 then "\\f".toList
  else if n == 13 then "\\r".toList
  else if n == 27 then "\\x1B".toList
  else if n == 34 then ['\\', '"']
  else if n == 92 then ['\\', '\\']
  else if n == 0xA0 then "\\xA0".toList
  else if n == 0x2028 then "\\u2028".toList
  else if n == 0x2029 then "\\u2029".toList
  else if isSurrogate n then "\\u".toList ++ hexDigits n
  else [Char.ofNat n]

/-- Whether a closing tag of a script follows a `<`. -/
def closesScript (ps : Points) : Bool :=
  (ps.take 7).map (fun n => (Char.ofNat n).toLower) == "/script".toList

/-- The text between the quotes. -/
def escape : Points → List Char
  | [] => []
  | n :: ps =>
    escapeOne n ps.head? ++ (if n == 60 && closesScript ps then ['\\'] else []) ++ escape ps

/-- The text of a string literal. -/
def quoted (ps : Points) : String := "\"" ++ String.ofList (escape ps) ++ "\""

end Points

/-- Whether a double quote stands in the raw text of a string without a backslash before it. -/
def holdsQuote : List Char → Bool
  | '\\' :: _ :: cs => holdsQuote cs
  | c :: cs => c == '"' || holdsQuote cs
  | [] => false

/-- A directive keeps its text; only its quotes may change. -/
def directiveText (raw : String) : String :=
  let quote := if holdsQuote raw.toList then "\x27" else "\""
  quote ++ raw ++ quote ++ ";"

end Chainlift
