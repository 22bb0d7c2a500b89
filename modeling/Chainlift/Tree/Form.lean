import Chainlift.Number.Double

/-!
# Forms: what a node of a syntax tree is

A JavaScript program is a tree whose nodes carry a form and whose parts are trees again. A form holds what is written at its
node itself: names, literal values, operators, flags. What stands below it, in source order, are its parts; a part that may
be missing has the form `absent`. The comment at each form lists its parts.

A name occurs in three forms that must not be confused. A `reference` reads or writes a variable, a `binding` introduces
one, and a `name` (a property, a label, an exported name) does neither.

Parentheses leave nothing behind, except directly around a function: there they announce that it is called at once, so the
form of the function holds the fact.
-/

namespace Chainlift

inductive UnaryOp where
  | plus | minus | not | bitNot | typeOf | void | delete
  deriving DecidableEq, Repr

inductive BinaryOp where
  | eq | ne | strictEq | strictNe | lt | le | gt | ge
  | shiftLeft | shiftRight | shiftRightZero
  | add | sub | mul | div | rem | pow
  | bitOr | bitXor | bitAnd
  | isIn | instanceOf
  deriving DecidableEq, Repr

inductive LogicalOp where
  | and | or | coalesce
  deriving DecidableEq, Repr

/-- `=`, or an operator that reads the target first: `+=` and its kind, and `&&=`, `||=`, `??=`. -/
inductive AssignOp where
  | plain
  | arith (op : BinaryOp)
  | logic (op : LogicalOp)
  deriving DecidableEq, Repr

inductive VariableKind where
  | var | letVar | const | using | awaitUsing
  deriving DecidableEq, Repr

/-- What a function in a class body or an object literal is for. -/
inductive MethodKind where
  | method | getter | setter
  deriving DecidableEq, Repr

/-- A comment with its delimiters, whether it begins its line, and whether a line break follows it. -/
structure Comment where
  text : String
  isLine : Bool
  ownLine : Bool
  lineAfter : Bool
  deriving DecidableEq, Repr

/-- The value of a string literal: its code points. A lone surrogate is one of them, so they are numbers. -/
abbrev Points := List Nat

inductive Form where
  /-- The place of a part that is not there, and the hole of an array. -/
  | absent
  -- names
  | reference (name : String)
  | binding (name : String)
  | name (name : String)
  | privateName (name : String)
  /-- A property key in brackets: the expression. -/
  | computed
  -- literals
  | null
  | bool (value : Bool)
  | number (value : Double)
  | bigint (value : Nat)
  | string (value : Points)
  | regexp (pattern flags : String)
  /-- The raw chunks around the substitutions: the substitutions. -/
  | template (chunks : List String)
  -- expressions
  | this
  | superObject
  | newTarget
  | importMeta
  /-- The elements, spreads and holes. -/
  | array
  /-- The properties, methods and spreads. -/
  | object
  /-- Key and value; the flag says that the key alone was written. -/
  | property (short : Bool)
  /-- Key and function. -/
  | method (kind : MethodKind) (isStatic : Bool)
  /-- What is spread. -/
  | spread
  /-- Name or `absent`, parameters, return type or `absent`, body. -/
  | function (declared isAsync generator parenthesized : Bool)
  /-- Parameters, return type or `absent`, body: a `body` or an expression. -/
  | arrow (isAsync parenthesized : Bool)
  /-- The parameters; the last one may be a `rest`. -/
  | parameters
  /-- Pattern, type or `absent`, default value or `absent`. -/
  | parameter (optional : Bool)
  /-- The statements after the directives. -/
  | body (directives : List String)
  /-- Name or `absent`, parent or `absent`, then the elements. -/
  | classDef (declared : Bool)
  /-- Key, type or `absent`, value or `absent`. -/
  | field (isStatic : Bool)
  /-- The statements. -/
  | staticBlock
  /-- The object. -/
  | member (name : String) (optional : Bool)
  /-- The object and the key. -/
  | index (optional : Bool)
  /-- The object. -/
  | privateMember (name : String) (optional : Bool)
  /-- The callee, then the arguments. -/
  | call (optional : Bool)
  /-- The callee, then the arguments. -/
  | construct
  /-- The arguments. -/
  | importCall
  /-- The tag and the template. -/
  | tagged
  /-- The operand. -/
  | unary (op : UnaryOp)
  /-- The target. -/
  | update (increment before : Bool)
  /-- Left and right operand. -/
  | binary (op : BinaryOp)
  /-- Left and right operand. -/
  | logical (op : LogicalOp)
  /-- Test, value if it holds, value if not. -/
  | conditional
  /-- Target and value. -/
  | assign (op : AssignOp)
  /-- The expressions, two or more. -/
  | sequence
  /-- The operand or `absent`. -/
  | yield (delegate : Bool)
  /-- The operand. -/
  | await
  /-- The member access, call or `nonNull` whose spine holds the links: a closed optional chain. -/
  | chain
  /-- The object in which the private name is looked for. -/
  | privateIn (name : String)
  /-- The expression asserted not to be nullish. -/
  | nonNull
  /-- The expression and the type. -/
  | asType
  /-- The expression and the type. -/
  | satisfiesType
  -- patterns
  /-- The elements, holes and a `rest`. -/
  | arrayPattern
  /-- The `patternProperty` parts and a `rest`. -/
  | objectPattern
  /-- Key and pattern. -/
  | patternProperty (short : Bool)
  /-- Pattern and default value, both when binding and when assigning. -/
  | withDefault
  /-- The pattern that takes what is left, and its type or `absent`. -/
  | rest
  /-- The targets, holes and a `rest`. -/
  | arrayTarget
  /-- The `targetName` and `targetProperty` parts and a `rest`. -/
  | objectTarget
  /-- The variable, which is also the key, and a default value or `absent`. -/
  | targetName
  /-- Key and target. -/
  | targetProperty
  -- statements
  /-- A statement and the comments before it. -/
  | commented (comments : List Comment)
  | expressionStmt
  | emptyStmt
  | block
  /-- The declarators. -/
  | declaration (kind : VariableKind)
  /-- Pattern, type or `absent`, value or `absent`. -/
  | declarator
  /-- Test, consequence, alternative or `absent`. -/
  | ifStmt
  /-- Start, test, step (each may be `absent`), body. -/
  | forStmt
  /-- Variable or target, object, body. -/
  | forInStmt
  /-- Variable or target, sequence, body. -/
  | forOfStmt (isAwait : Bool)
  /-- Test, body. -/
  | whileStmt
  /-- Body, test. -/
  | doWhileStmt
  /-- The value or `absent`. -/
  | returnStmt
  | breakStmt (label : Option String)
  | continueStmt (label : Option String)
  | throwStmt
  /-- Block, `catchClause` or `absent`, last block or `absent`. -/
  | tryStmt
  /-- Pattern or `absent`, type or `absent`, block. -/
  | catchClause
  /-- The value, then the cases. -/
  | switchStmt
  /-- Test, `absent` for the default, then the statements. -/
  | switchCase
  /-- The statement. -/
  | labeled (label : String)
  | debuggerStmt
  /-- Object, body. -/
  | withStmt
  -- modules
  /-- The imports; the flag says that no list of imports was written. -/
  | importDecl (source : Points) (effectOnly : Bool)
  /-- The variable. -/
  | importDefault
  /-- The variable. -/
  | importNamespace
  /-- The exported name and the variable. -/
  | importNamed
  /-- The `exportName` parts. -/
  | exportNames (source : Option Points)
  /-- The variable, or the name in the other module, and the exported name. -/
  | exportName
  /-- The declaration. -/
  | exportDecl
  /-- The function, class or expression. -/
  | exportDefault
  /-- The name of the namespace or `absent`. -/
  | exportAll (source : Points)
  -- types
  | typeWord (word : String)
  /-- The name, then the arguments. -/
  | typeReference
  /-- The qualifier. -/
  | typeQualified (name : String)
  | typeArray
  | typeUnion
  | typeIntersection
  /-- The literal. -/
  | typeLiteral
  | typeTuple
  /-- The variable whose type is meant. -/
  | typeQuery
  deriving DecidableEq, Repr

/-- Functions and arrows: their bodies run later, and they bind names of their own. -/
def Form.isFunction : Form → Bool
  | .function .. | .arrow .. => true
  | _ => false

end Chainlift
