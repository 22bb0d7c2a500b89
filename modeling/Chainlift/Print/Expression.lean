import Chainlift.Print.Place
import Chainlift.Print.Literal
import Chainlift.Number.Shortest

/-!
# The text of expressions and patterns

Each function gives the text of one kind of node from the texts of its parts. Parentheses are written where an operand binds
less tightly than its place asks for, around a function or class with which a statement begins, around an object with which
a statement or an arrow's body begins, and around calls in the class of a `new`.
-/

namespace Chainlift.Print

/-! ## Names and literals -/

/-- An integer in plain digits, after which a point would be read as its fraction. -/
def isPlainInteger (text : String) : Bool := text.toList.all Char.isDigit

def template (chunks : List String) (ps : Parts) (p : Place) : String :=
  let rec go : List String → Parts → String
    | [], _ => ""
    | [c], _ => c
    | c :: cs, [] => c ++ go cs []
    | c :: cs, a :: ps => c ++ "$\x7b" ++ a.text (p.inside Level.lowest) ++ "\x7d" ++ go cs ps
  "\x60" ++ go chunks ps ++ "\x60"

/-! ## Objects and arrays -/

/-- A key: a name, a literal, or an expression in brackets. -/
def key (k : Part) (p : Place) : String := k.text (p.inside Level.lowest)

/-- Parts with commas between them, on one line or, when there are more than `most`, each on a line of its own. -/
def listing (most : Nat) (space finish : String) (ps : Parts) (p : Place) : String :=
  if ps.isEmpty then ""
  else if ps.length ≤ most then space ++ ps.joined ", " (p.inside Level.comma) ++ finish ++ space
  else
    let indent := "\n" ++ tabs (p.depth + 1)
    indent ++ ps.joined ("," ++ indent) (p.deeper.inside Level.comma) ++ finish ++ "\n" ++ tabs p.depth

/-- A hole stands at the end. -/
def endHole (ps : Parts) : Bool := (ps.getLast?.map Part.isAbsent).getD false

/-- An array; a comma follows a hole at its end. -/
def array (ps : Parts) (p : Place) : String :=
  "[" ++ listing 2 "" (if endHole ps then "," else "") ps p ++ "]"

def object (ps : Parts) (p : Place) : String :=
  p.wrap (p.opening == .statement || p.opening == .arrowBody) fun p => "\x7b" ++ listing 1 " " "" ps p ++ "\x7d"

/-- Whether the key alone says all: it names the variable that is the value. -/
def sayingBoth (short : Bool) (key value : Tree) : Bool :=
  match key, value with
  | .node (.name k) _, .node (.reference n) _ => if k == "__proto__" then short else k == n
  | _, _ => false

def property (short : Bool) (k v : Part) (p : Place) : String :=
  let value := v.text (p.inside Level.comma)
  if sayingBoth short k.tree v.tree then value else key k p ++ ": " ++ value

/-- What stands before the key of a function in an object or a class. -/
def methodWords (kind : MethodKind) (isStatic : Bool) (f : Form) : String :=
  let kindWord := match kind with
    | .method => ""
    | .getter => "get "
    | .setter => "set "
  let functionWord := match f with
    | .function _ isAsync generator _ => (if isAsync then "async " else "") ++ (if generator then "*" else "")
    | _ => ""
  (if isStatic then "static " else "") ++ kindWord ++ functionWord

/-! ## Functions -/

def parameter (optional : Bool) (ps : Parts) (p : Place) : String :=
  (ps.nth 0).text p ++ (if optional then "?" else "") ++ (ps.nth 1).textIf ": " p
    ++ (ps.nth 2).textIf " = " (p.inside Level.comma)

/-- Parameters, return type and body. -/
def functionParts (parameters type body : Part) (p : Place) : String :=
  "(" ++ parameters.text (p.inside Level.lowest) ++ ")" ++ type.textIf ": " (p.inside Level.lowest)
    ++ body.textIf " " (p.inside Level.lowest)

def functionText (isAsync generator : Bool) (ps : Parts) (p : Place) : String :=
  (if isAsync then "async " else "") ++ "function" ++ (if generator then "*" else "")
    ++ (ps.nth 0).textIf " " p ++ functionParts (ps.nth 1) (ps.nth 2) (ps.nth 3) p

/-- A function that is a value in an object or a class, without its first word. -/
def method (kind : MethodKind) (isStatic : Bool) (k f : Part) (p : Place) : String :=
  p.lead ++ methodWords kind isStatic f.tree.form ++ key k p ++ f.text { p.inside Level.lowest with slot := .head }

def arrow (isAsync parenthesized : Bool) (ps : Parts) (p : Place) : String :=
  p.wrap (parenthesized || Level.assign ≤ p.level) fun p =>
    (if isAsync then "async " else "") ++ "(" ++ (ps.nth 0).text (p.inside Level.lowest) ++ ")"
      ++ (ps.nth 1).textIf ": " (p.inside Level.lowest) ++ " => "
      ++ (ps.nth 2).text { p.operand Level.comma with opening := .arrowBody, noCall := false }

def classText (ps : Parts) (p : Place) : String :=
  "class" ++ (ps.nth 0).textIf " " p ++ (ps.nth 1).textIf " extends " (p.inside Level.call) ++ " "
    ++ Parts.braced (ps.drop 2) p

/-- A function or class that is no declaration must not begin a statement. -/
def guarded (parenthesized : Bool) (p : Place) (text : Place → String) : String :=
  p.wrap (parenthesized || p.opening == .statement || p.opening == .defaultExport) text

/-! ## Accesses and calls -/

/-- The place of an object, a tag or a callee. -/
def holder (p : Place) : Place := { depth := p.depth, level := Level.after, opening := p.opening, noCall := p.noCall }

def member (name : String) (optional : Bool) (o : Part) (p : Place) : String :=
  let object := o.text (holder p)
  let point := if optional then "?." else if isPlainInteger object then " ." else "."
  object ++ point ++ name

def index (optional : Bool) (o k : Part) (p : Place) : String :=
  o.text (holder p) ++ (if optional then "?.[" else "[") ++ k.text (p.inside Level.lowest) ++ "]"

/-- The arguments of a call. -/
def arguments (ps : Parts) (p : Place) : String := "(" ++ ps.joined ", " (p.inside Level.comma) ++ ")"

def call (optional : Bool) (f : Part) (args : Parts) (p : Place) : String :=
  p.wrap (Level.new ≤ p.level || p.noCall) fun p =>
    f.text { holder p with noCall := false } ++ (if optional then "?." else "") ++ arguments args p

def construct (c : Part) (args : Parts) (p : Place) : String :=
  p.wrap (Level.new ≤ p.level) fun p =>
    "new " ++ c.text { p.inside Level.new with noCall := true } ++ arguments args p

def tagged (tag text : Part) (p : Place) : String :=
  tag.text { holder p with noCall := false } ++ text.text (p.inside Level.lowest)

def chain (t : Part) (p : Place) : String := p.wrap (Level.after ≤ p.level) t.text

/-! ## Operators -/

/-- Whether an operator and the operand after it would be read as another operator. -/
def joins (symbol operand : String) : Bool :=
  (symbol == "+" || symbol == "-") && operand.startsWith symbol

def unary (op : UnaryOp) (t : Part) (p : Place) : String :=
  p.wrap (Level.before ≤ p.level) fun p =>
    let operand := t.text (p.operand Level.power)
    op.symbol ++ (if op.isWord || joins op.symbol operand then " " else "") ++ operand

def update (increment before : Bool) (t : Part) (p : Place) : String :=
  let symbol := if increment then "++" else "--"
  if before then p.wrap (Level.before ≤ p.level) fun p => symbol ++ t.text (p.operand Level.before)
  else p.wrap (Level.after ≤ p.level) fun p => t.text (p.first Level.after) ++ symbol

/-- The level at which the left operand of an operator stands. -/
def leftLevel (j : Joint) (left : Form) : Level :=
  match j, left with
  | .binary .pow, .unary _ | .binary .pow, .await => Level.call
  | .binary .pow, _ => Level.ofJoint j
  | .logical .coalesce, .logical .and | .logical .coalesce, .logical .or => Level.before
  | _, _ => Level.ofJoint j - 1

/-- The level at which the right operand of an operator stands. Logical operators of one kind group either way. -/
def rightLevel (j : Joint) (right : Form) : Level :=
  match j, right with
  | .binary .pow, _ => Level.ofJoint j - 1
  | .logical .coalesce, .logical .and | .logical .coalesce, .logical .or => Level.before
  | .logical op, .logical op' => if op == op' then Level.ofJoint j - 1 else Level.ofJoint j
  | _, _ => Level.ofJoint j

def joined (j : Joint) (a b : Part) (p : Place) : String :=
  p.group (Level.ofJoint j ≤ p.level || (j == .binary .isIn && p.noIn)) fun p =>
    a.text (p.first (leftLevel j a.tree.form)) ++ " " ++ j.symbol ++ " " ++ b.text (p.operand (rightLevel j b.tree.form))

def privateIn (name : String) (t : Part) (p : Place) : String :=
  p.wrap (Level.compare ≤ p.level || p.noIn) fun p => "#" ++ name ++ " in " ++ t.text (p.operand Level.equals)

def conditional (test yes no : Part) (p : Place) : String :=
  p.group (Level.conditional ≤ p.level) fun p =>
    test.text { p.first Level.conditional with noCall := false } ++ " ? "
      ++ yes.text { p.operand Level.yield with noCall := false } ++ " : "
      ++ no.text { p.operand Level.yield with noCall := false }

def assign (op : AssignOp) (target value : Part) (p : Place) : String :=
  let opensBrace := (p.opening == .statement || p.opening == .arrowBody) && target.tree.form == .objectTarget
  p.wrap (opensBrace || Level.assign ≤ p.level) fun p =>
    target.text (p.first Level.comma) ++ " " ++ op.symbol ++ " " ++ value.text (p.operand Level.comma)

def sequence (ps : Parts) (p : Place) : String :=
  p.wrap (Level.comma ≤ p.level) fun p =>
    match ps with
    | [] => ""
    | a :: ps =>
      ", ".intercalate (a.text { p.first Level.lowest with noCall := false }
        :: ps.map fun a => a.text { p.operand Level.lowest with noCall := false })

def yield (delegate : Bool) (t : Part) (p : Place) : String :=
  p.wrap (Level.assign ≤ p.level) fun p =>
    "yield" ++ (if delegate then "*" else "") ++ t.textIf " " (p.operand Level.yield)

def await (t : Part) (p : Place) : String :=
  p.wrap (Level.before ≤ p.level) fun p => "await " ++ t.text (p.operand Level.power)

/-! ## Patterns -/

/-- A part that takes what is left comes without the comma of its own. -/
def splitRest (ps : Parts) : Parts × Option Part :=
  match ps.getLast? with
  | some a => if a.tree.form == .rest then (ps.dropLast, some a) else (ps, none)
  | none => (ps, none)

def listPattern (isBinding : Bool) (ps : Parts) (p : Place) : String :=
  let (elements, rest) := splitRest ps
  let p := p.inside Level.comma
  let comma := if !elements.isEmpty && (endHole elements || rest.isSome) then "," else ""
  let space := if isBinding || !elements.isEmpty then " " else ""
  "[" ++ elements.joined ", " p ++ comma ++ ((rest.map fun a => space ++ a.text p).getD "") ++ "]"

def objectPattern (ps : Parts) (p : Place) : String :=
  let (properties, rest) := splitRest ps
  let p := p.inside Level.comma
  if ps.isEmpty then "\x7b\x7d"
  else
    let comma := if !properties.isEmpty && rest.isSome then "," else ""
    "\x7b " ++ properties.joined ", " p ++ comma ++ ((rest.map fun a => a.text p).getD "") ++ " \x7d"

def objectTarget (ps : Parts) (p : Place) : String := "\x7b" ++ ps.joined ", " (p.inside Level.comma) ++ "\x7d"

/-- The variable that a pattern binds, apart from a default value. -/
def boundName? : Tree → Option String
  | .node (.binding n) _ => some n
  | .node .withDefault (.node (.binding n) _ :: _) => some n
  | _ => none

def patternProperty (k v : Part) (p : Place) : String :=
  let value := v.text (p.inside Level.comma)
  match k.tree with
  | .node (.name n) _ => if boundName? v.tree == some n then value else key k p ++ ": " ++ value
  | _ => key k p ++ ": " ++ value

/-! ## Types -/

/-- Unions and intersections are grouped by parentheses inside other types. -/
def typeOperand (a : Part) (p : Place) : String :=
  match a.tree.form with
  | .typeUnion | .typeIntersection => "(" ++ a.text p ++ ")"
  | _ => a.text p

def typeReference (ps : Parts) (p : Place) : String :=
  match ps with
  | [] => ""
  | [name] => name.text p
  | name :: args => name.text p ++ "<" ++ Parts.joined args ", " p ++ ">"

/-! ## All expressions -/

/-- The text of an expression, a pattern, a type or a part of one; `none` for statements. -/
def expression? (f : Form) (ps : Parts) (p : Place) : Option String :=
  let a := ps.nth 0
  let b := ps.nth 1
  match f with
  | .absent => some ""
  | .reference n | .binding n | .name n => some n
  | .privateName n => some ("#" ++ n)
  | .computed => some ("[" ++ a.text (p.inside Level.comma) ++ "]")
  | .null => some "null"
  | .bool v => some (if v then "true" else "false")
  | .number v => some v.text
  | .bigint v => some (toString v ++ "n")
  | .string v => some (Points.quoted v)
  | .regexp pattern flags => some ("/" ++ pattern ++ "/" ++ flags)
  | .template chunks => some (template chunks ps p)
  | .this => some "this"
  | .superObject => some "super"
  | .newTarget => some "new.target"
  | .importMeta => some "import.meta"
  | .array => some (array ps p)
  | .object => some (object ps p)
  | .property short => some (property short a b p)
  | .method kind isStatic => some (method kind isStatic a b p)
  | .spread => some ("..." ++ a.text (p.inside Level.comma))
  | .function declared isAsync generator parenthesized =>
    if declared then some (p.lead ++ functionText isAsync generator ps p)
    else if p.slot == .head then some (functionParts (ps.nth 1) (ps.nth 2) (ps.nth 3) p)
    else some (guarded parenthesized p (functionText isAsync generator ps))
  | .arrow isAsync parenthesized => some (arrow isAsync parenthesized ps p)
  | .parameters => some (ps.joined ", " p)
  | .parameter optional => some (parameter optional ps p)
  | .classDef declared =>
    if declared then some (p.lead ++ classText ps p) else some (guarded false p (classText ps))
  | .member name optional => some (member name optional a p)
  | .index optional => some (index optional a b p)
  | .privateMember name optional => some (member ("#" ++ name) optional a p)
  | .call optional => some (call optional a (ps.drop 1) p)
  | .construct => some (construct a (ps.drop 1) p)
  | .importCall => some (p.wrap (Level.new ≤ p.level || p.noCall) fun p => "import" ++ arguments ps p)
  | .tagged => some (tagged a b p)
  | .unary op => some (unary op a p)
  | .update increment before => some (update increment before a p)
  | .binary op => some (joined (.binary op) a b p)
  | .logical op => some (joined (.logical op) a b p)
  | .conditional => some (conditional a b (ps.nth 2) p)
  | .assign op => some (assign op a b p)
  | .sequence => some (sequence ps p)
  | .yield delegate => some (yield delegate a p)
  | .await => some (await a p)
  | .chain => some (chain a p)
  | .privateIn name => some (privateIn name a p)
  | .nonNull => some (a.text (holder p) ++ "!")
  | .asType =>
    some (p.wrap (Level.shift ≤ p.level) fun p =>
      a.text (p.first Level.power) ++ " as " ++ b.text (p.inside Level.lowest))
  | .satisfiesType =>
    some (p.wrap true fun p => a.text (p.inside p.level) ++ " satisfies " ++ b.text (p.inside Level.lowest))
  | .arrayPattern => some (listPattern true ps p)
  | .objectPattern => some (objectPattern ps p)
  | .patternProperty _ => some (patternProperty a b p)
  | .withDefault => some (a.text p ++ " = " ++ b.text (p.inside Level.comma))
  | .rest => some ("..." ++ a.text (p.inside Level.comma) ++ b.textIf ": " (p.inside Level.lowest))
  | .arrayTarget => some (listPattern false ps p)
  | .objectTarget => some (objectTarget ps p)
  | .targetName => some (a.text p ++ b.textIf " = " (p.inside Level.comma))
  | .targetProperty => some (key a p ++ ": " ++ b.text (p.inside Level.comma))
  | .typeWord word => some word
  | .typeReference => some (typeReference ps p)
  | .typeQualified name => some (a.text p ++ "." ++ name)
  | .typeArray => some (typeOperand a p ++ "[]")
  | .typeUnion => some (" | ".intercalate (ps.map fun a => a.text p))
  | .typeIntersection => some (" & ".intercalate (ps.map fun a => typeOperand a p))
  | .typeLiteral => some (a.text (p.inside Level.lowest))
  | .typeTuple => some ("[" ++ ps.joined ", " p ++ "]")
  | .typeQuery => some ("typeof " ++ a.text p)
  | _ => none

end Chainlift.Print
