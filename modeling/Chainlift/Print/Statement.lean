import Chainlift.Print.Expression
import Chainlift.Text.Names

/-!
# The text of statements

A statement is written without the line break at its end. Below `if`, a loop or a label a block begins on the same line, and
so does any other statement after a space. A consequence that would take the `else` of its own `if` is put in a block.
-/

namespace Chainlift.Print

/-! ## Comments -/

/-- A comment; the lines of one that spans several are indented anew. -/
def comment (c : Comment) (depth : Nat) : String :=
  if c.isLine then c.text
  else String.join ((c.text.toList.splitOnP Text.isLineBreak).map fun line =>
    (if ['/', '*'].isPrefixOf line then "" else tabs depth)
      ++ String.ofList (line.dropWhile fun c => Text.isBlank c)
      ++ (if ['/', '*'].isPrefixOf line.reverse then "" else "\n"))

/-- The comments after the first one. -/
def furtherComments (depth : Nat) (cs : List Comment) : String :=
  String.join (cs.map fun c => (if c.ownLine then "\n" ++ tabs depth else "") ++ comment c depth)

/-- The comments before a statement, and the place that they leave to it. -/
def comments (cs : List Comment) (p : Place) : String × Place :=
  match cs with
  | [] => ("", p)
  | c :: more =>
    let start := if c.ownLine && p.slot == .inline then "\n" ++ p.lead else p.lead
    let broken := ((c :: more).getLast?.map fun c => c.isLine || c.lineAfter).getD false
    (start ++ comment c p.depth ++ furtherComments p.depth more ++ (if broken then "\n" else ""),
      if broken then p.line else p.inline)

/-! ## Lists of statements -/

/-- A string as the first statement would be a directive; it is put in parentheses. -/
def firstString? (directives : List String) (ps : Parts) : Option (Part × Parts) :=
  match directives, ps with
  | [], a :: more =>
    match a.tree.uncommented with
    | .node .expressionStmt [.node (.string v) _] => some (⟨.string v, fun _ => Points.quoted v⟩, more)
    | _ => none
  | _, _ => none

/-- Directives and statements, each with a line break after it. -/
def statements (directives : List String) (ps : Parts) (p : Place) : String :=
  let rest (ps : Parts) := String.join (ps.map fun a => a.text p.line ++ "\n")
  String.join (directives.map fun d => tabs p.depth ++ directiveText d ++ "\n")
    ++ match firstString? directives ps with
      | some (a, more) => "(" ++ a.text p ++ ");\n" ++ rest more
      | none => rest ps

def body (directives : List String) (ps : Parts) (p : Place) : String :=
  if directives.isEmpty && ps.isEmpty then "\x7b\x7d"
  else "\x7b\n" ++ statements directives ps p.deeper ++ tabs p.depth ++ "\x7d"

/-! ## Statements below others -/

/-- A statement below another one, on its line. -/
def nested (a : Part) (p : Place) : String :=
  match a.tree.uncommented.form with
  | .block => a.text { p.inline with quiet := true }
  | .emptyStmt => ";"
  | _ => a.text p.inline

/-- Whether an `else` after the statement would be taken by an `if` at its end. -/
def takesElse : Tree → Bool
  | .node .ifStmt [_, _, .node .absent _] => true
  | .node .ifStmt [_, _, no] => takesElse no
  | .node .forStmt [_, _, _, b] => takesElse b
  | .node .forInStmt [_, _, b] => takesElse b
  | .node (.forOfStmt _) [_, _, b] => takesElse b
  | .node .whileStmt [_, b] => takesElse b
  | .node .withStmt [_, b] => takesElse b
  | .node (.labeled _) [b] => takesElse b
  | .node (.commented _) [t] => takesElse t
  | _ => false

/-- An expression in the head of a statement. -/
def headText (a : Part) (p : Place) : String := a.text (p.inside Level.lowest)

/-- An `if` without what stands before it. -/
def conditionalText (test yes no : Part) (p : Place) : String :=
  let consequence :=
    if takesElse yes.tree then " " ++ Parts.braced [yes] p
    else nested yes p
  let inBraces := takesElse yes.tree || yes.tree.uncommented.form == .block
  "if (" ++ headText test p ++ ")" ++ consequence
    ++ if no.isAbsent then ""
      else (if inBraces then " " else "\n" ++ tabs p.depth) ++ "else" ++
        match no.tree.uncommented.form with
        | .ifStmt => " " ++ no.text { p.head with quiet := true }
        | _ => nested no p

def doWhile (body test : Part) (p : Place) : String :=
  let inner := match body.tree.uncommented.form with
    | .block => nested body p ++ " "
    | .emptyStmt => nested body p ++ "\n" ++ tabs p.depth
    | _ => "\n" ++ body.text p.deeper.line ++ "\n" ++ tabs p.depth
  "do" ++ inner ++ "while (" ++ headText test p ++ ");"

/-- What runs through the head of a loop, where the operator `in` must not appear. -/
def loopStart (a : Part) (p : Place) : String :=
  match a.tree.form with
  | .declaration _ => a.text { p.head with noIn := true }
  | _ => a.text { p.inside Level.lowest with noIn := true }

/-- The object of a loop over a sequence. -/
def sequenceText (a : Part) (p : Place) : String := a.text (p.inside Level.comma)

def forLoop (start test step body : Part) (p : Place) : String :=
  "for (" ++ loopStart start p ++ ";" ++ test.textIf " " (p.inside Level.lowest) ++ ";"
    ++ step.textIf " " (p.inside Level.lowest) ++ ")" ++ nested body p

/-- A case of a `switch`; a single statement stands on its line. -/
def switchCase (test : Part) (ps : Parts) (p : Place) : String :=
  let head := tabs p.depth ++ (if test.isAbsent then "default" else "case " ++ headText test p) ++ ":"
  match ps with
  | [a] => head ++ nested a p
  | ps => head ++ String.join (ps.map fun a => "\n" ++ a.text p.deeper.line)

def variableWords : VariableKind → String
  | .var => "var"
  | .letVar => "let"
  | .const => "const"
  | .using => "using"
  | .awaitUsing => "await using"

def declarator (ps : Parts) (p : Place) : String :=
  (ps.nth 0).text (p.inside Level.lowest) ++ (ps.nth 1).textIf ": " (p.inside Level.lowest)
    ++ (ps.nth 2).textIf " = " { p.inside Level.comma with noIn := p.noIn }

def catchClause (ps : Parts) (p : Place) : String :=
  let pattern := (ps.nth 0).textIf " (" (p.inside Level.lowest) ((ps.nth 1).textIf ": " (p.inside Level.lowest) ++ ")")
  "catch" ++ pattern ++ nested (ps.nth 2) p

def field (isStatic : Bool) (ps : Parts) (p : Place) : String :=
  p.lead ++ (if isStatic then "static " else "") ++ key (ps.nth 0) p ++ (ps.nth 1).textIf ": " (p.inside Level.lowest)
    ++ (ps.nth 2).textIf " = " (p.inside Level.comma) ++ ";"

/-! ## Modules -/

/-- Names in braces. -/
def nameList (ps : Parts) (p : Place) : String :=
  if ps.isEmpty then "\x7b\x7d" else "\x7b " ++ ps.joined ", " p ++ " \x7d"

/-- A name, and the other name if that differs. -/
def renamed (a b : Part) (p : Place) : String :=
  let first := a.text (p.inside Level.lowest)
  let second := b.text (p.inside Level.lowest)
  if first == second then first else first ++ " as " ++ second

def importText (source : Points) (effectOnly : Bool) (ps : Parts) (p : Place) : String :=
  let named := ps.filter fun a => a.tree.form == .importNamed
  let others := ps.filter fun a => a.tree.form != .importNamed
  let lists := others.map (fun a => a.text p) ++ (if named.isEmpty then [] else [nameList named p])
  let what := if lists.isEmpty then "\x7b\x7d" else ", ".intercalate lists
  if effectOnly then "import " ++ Points.quoted source ++ ";"
  else "import " ++ what ++ " from " ++ Points.quoted source ++ ";"

def exportDeclaration (a : Part) (p : Place) : String :=
  "export " ++ a.text p.head ++ match a.tree.form with
    | .declaration _ => ";"
    | _ => ""

def exportDefault (a : Part) (p : Place) : String :=
  "export default " ++ match a.tree.form with
    | .function true _ _ _ | .classDef true => a.text p.head
    | _ => a.text { p.inside Level.comma with opening := .defaultExport } ++ ";"

/-! ## All statements -/

/-- The text of a statement without what stands before it. -/
def statement? (f : Form) (ps : Parts) (p : Place) : Option String :=
  let a := ps.nth 0
  let b := ps.nth 1
  let c := ps.nth 2
  match f with
  | .expressionStmt => some (a.text { p.inside Level.lowest with opening := .statement } ++ ";")
  | .emptyStmt => some ";"
  | .block => some (ps.braced p)
  | .declaration kind => some (variableWords kind ++ " " ++ ps.joined ", " p ++ if p.slot == .head then "" else ";")
  | .ifStmt => some (conditionalText a b c p)
  | .forStmt => some (forLoop a b c (ps.nth 3) p)
  | .forInStmt => some ("for (" ++ loopStart a p ++ " in " ++ headText b p ++ ")" ++ nested c p)
  | .forOfStmt isAwait =>
    some ("for " ++ (if isAwait then "await " else "") ++ "(" ++ loopStart a p ++ " of " ++ sequenceText b p ++ ")" ++ nested c p)
  | .whileStmt => some ("while (" ++ headText a p ++ ")" ++ nested b p)
  | .doWhileStmt => some (doWhile a b p)
  | .returnStmt => some ("return" ++ a.textIf " " (p.inside Level.lowest) ++ ";")
  | .breakStmt label => some ("break" ++ ((label.map (" " ++ ·)).getD "") ++ ";")
  | .continueStmt label => some ("continue" ++ ((label.map (" " ++ ·)).getD "") ++ ";")
  | .throwStmt => some ("throw " ++ headText a p ++ ";")
  | .tryStmt =>
    some ("try" ++ nested a p ++ b.textIf " " (p.inside Level.lowest) ++
      if c.isAbsent then "" else " finally" ++ nested c p)
  | .switchStmt => some ("switch (" ++ headText a p ++ ") " ++ Parts.braced (ps.drop 1) p)
  | .labeled label => some (label ++ ":" ++ nested a p)
  | .debuggerStmt => some "debugger;"
  | .withStmt => some ("with(" ++ headText a p ++ ")" ++ nested b p)
  | .staticBlock => some ("static " ++ ps.braced p)
  | .importDecl source effectOnly => some (importText source effectOnly ps p)
  | .exportNames source =>
    some ("export " ++ nameList ps p ++ ((source.map fun s => " from " ++ Points.quoted s).getD "") ++ ";")
  | .exportDecl => some (exportDeclaration a p)
  | .exportDefault => some (exportDefault a p)
  | .exportAll source =>
    some ("export *" ++ a.textIf " as " (p.inside Level.lowest) ++ " from " ++ Points.quoted source ++ ";")
  | _ => none

/-- The text of a node from the texts of its parts. -/
def node (f : Form) (ps : Parts) (p : Place) : String :=
  match f with
  | .commented cs =>
    if p.quiet then (ps.nth 0).text p
    else
      let (text, p) := comments cs p
      text ++ (ps.nth 0).text p
  | .body directives => body directives ps p
  | .declarator => declarator ps p
  | .catchClause => catchClause ps p
  | .switchCase => switchCase (ps.nth 0) (ps.drop 1) p
  | .field isStatic => field isStatic ps p
  | .importDefault => (ps.nth 0).text p
  | .importNamespace => "* as " ++ (ps.nth 0).text p
  | .importNamed | .exportName => renamed (ps.nth 0) (ps.nth 1) p
  | f =>
    match statement? f ps p with
    | some text => p.lead ++ text
    | none => (expression? f ps p).getD ""

end Chainlift.Print

namespace Chainlift

namespace Tree

/-- The text of a tree at each place. -/
def textAt (t : Tree) (p : Place) : String :=
  t.foldWith (fun f ps => Print.node f (ps.map fun (tree, text) => ⟨tree, text⟩)) p

def part (t : Tree) : Part := ⟨t, t.textAt⟩

/-- The text of an expression by itself: that of a statement, without comments and the semicolons at its end. -/
def text (t : Tree) : String :=
  let line := Print.statements [] [part (.node .expressionStmt [t.bare])] { depth := 0 }
  String.ofList ((line.toList.reverse.dropWhile Char.isWhitespace).dropWhile (· == ';')).reverse

end Tree

namespace Program

/-- Statements as a program of their own, without comments. -/
def ofStatements (ss : List Tree) : Program := ⟨none, [], Tree.bareAll ss⟩

/-- The text of a program. -/
def text (p : Program) : String :=
  (match p.hashbang with
    | some line => "#!" ++ line ++ "\n"
    | none => "")
    ++ Print.statements p.directives (p.body.map Tree.part) { depth := 0 }

end Program

end Chainlift
