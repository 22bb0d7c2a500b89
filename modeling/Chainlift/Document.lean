import Chainlift.Error
import Chainlift.Grammar.Program
import Chainlift.Print.Statement
import Chainlift.Sweep.Pass

/-!
# Documents

A document goes from text to text: it is read, lifted and written again.
-/

namespace Chainlift

/-- What has come of a text. -/
structure Document where
  code : String
  stats : Stats
  deriving DecidableEq, Repr

namespace Document

/-- The program that a text is. -/
def read (type : SourceType) (text : String) : Except Error Program :=
  (Program.parse type text).mapError .ofSyntax

/-- Lift the guards in a text. -/
def lift (o : Options) (type : SourceType) (text : String) : Except Error Document := do
  let p ← read type text
  let (p, stats) := p.lift o {}
  .ok ⟨p.text, stats⟩

end Document

/-- The source type that a path tells. -/
def SourceType.ofPath (path : String) : Except Error SourceType :=
  match ofPath? path with
  | some type => .ok type
  | none => .error (.sourceType path)

end Chainlift
