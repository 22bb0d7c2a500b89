import Chainlift.Token.Basic

/-!
# Errors

Why a document or a run of the program fails.
-/

namespace Chainlift

inductive Error where
  | io (cause : String)
  | parse (causes : List String)
  | sourceType (path : String)
  | internal (cause : String)
  deriving DecidableEq, Repr

namespace Error

def message : Error → String
  | .io cause => "I/O error: " ++ cause
  | .parse causes => "Parse error: " ++ "; ".intercalate causes
  | .sourceType path => "Unsupported source type for " ++ path
  | .internal cause => "Internal error: " ++ cause

def ofSyntax (e : SyntaxError) : Error := .parse [e.message]

/-- An output in a directory needs the name of its input. -/
def noFileName (input : String) : Error := .internal ("Input has no file name: " ++ input)

end Error

end Chainlift
