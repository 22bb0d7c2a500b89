import Chainlift.Tree.Form

/-!
# Syntax trees

A tree is a form over its parts. The shapes that the rewriting of expressions looks at have constructors of their own,
which can be matched on (`Tree.conditional`, `Tree.member`, …); everything else is reached through its form. Combinations
that no program has, such as a literal with parts, can be written down; no function here gives them a meaning, and what
counts or collects over a tree treats them like any other node.

Two trees that differ in comments alone are the same program (`Tree.same`).
-/

namespace Chainlift

inductive Tree where
  | node (form : Form) (parts : List Tree)
  deriving Repr

namespace Tree

def form : Tree → Form
  | .node f _ => f

def parts : Tree → List Tree
  | .node _ ps => ps

/-- Induction over trees: a property that a node has when its parts have it holds everywhere. -/
@[elab_as_elim, induction_eliminator]
theorem induct {motive : Tree → Prop}
    (node : ∀ f ps, (∀ p ∈ ps, motive p) → motive (.node f ps)) : ∀ t, motive t
  | .node f ps => node f ps (fun p _ => induct node p)

/-! ## Shapes -/

@[match_pattern] abbrev absent : Tree := .node .absent []
@[match_pattern] abbrev reference (name : String) : Tree := .node (.reference name) []
@[match_pattern] abbrev binding (name : String) : Tree := .node (.binding name) []
@[match_pattern] abbrev null : Tree := .node .null []
@[match_pattern] abbrev bool (value : Bool) : Tree := .node (.bool value) []
@[match_pattern] abbrev number (value : Double) : Tree := .node (.number value) []
@[match_pattern] abbrev string (value : Points) : Tree := .node (.string value) []
@[match_pattern] abbrev this : Tree := .node .this []
@[match_pattern] abbrev array (elements : List Tree) : Tree := .node .array elements
@[match_pattern] abbrev spread (t : Tree) : Tree := .node .spread [t]
@[match_pattern] abbrev member (object : Tree) (name : String) (optional : Bool) : Tree :=
  .node (.member name optional) [object]
@[match_pattern] abbrev index (object key : Tree) (optional : Bool) : Tree := .node (.index optional) [object, key]
@[match_pattern] abbrev privateMember (object : Tree) (name : String) (optional : Bool) : Tree :=
  .node (.privateMember name optional) [object]
@[match_pattern] abbrev call (callee : Tree) (args : List Tree) (optional : Bool) : Tree :=
  .node (.call optional) (callee :: args)
@[match_pattern] abbrev unary (op : UnaryOp) (t : Tree) : Tree := .node (.unary op) [t]
@[match_pattern] abbrev binary (op : BinaryOp) (left right : Tree) : Tree := .node (.binary op) [left, right]
@[match_pattern] abbrev logical (op : LogicalOp) (left right : Tree) : Tree := .node (.logical op) [left, right]
@[match_pattern] abbrev conditional (test yes no : Tree) : Tree := .node .conditional [test, yes, no]
@[match_pattern] abbrev assign (op : AssignOp) (target value : Tree) : Tree := .node (.assign op) [target, value]
@[match_pattern] abbrev sequence (ts : List Tree) : Tree := .node .sequence ts
@[match_pattern] abbrev chain (t : Tree) : Tree := .node .chain [t]
@[match_pattern] abbrev nonNull (t : Tree) : Tree := .node .nonNull [t]
@[match_pattern] abbrev commented (comments : List Comment) (t : Tree) : Tree := .node (.commented comments) [t]

/-! ## Equality -/

mutual

/-- Trees are equal when their forms and their parts are. -/
def decEq : (a b : Tree) → Decidable (a = b)
  | .node f ps, .node g qs =>
    if hf : f = g then
      match decEqList ps qs with
      | isTrue h => isTrue (by rw [hf, h])
      | isFalse h => isFalse (fun e => h (Tree.node.inj e).2)
    else isFalse (fun e => hf (Tree.node.inj e).1)

def decEqList : (ps qs : List Tree) → Decidable (ps = qs)
  | [], [] => isTrue rfl
  | [], _ :: _ => isFalse (fun e => nomatch e)
  | _ :: _, [] => isFalse (fun e => nomatch e)
  | p :: ps, q :: qs =>
    match decEq p q with
    | isTrue h =>
      match decEqList ps qs with
      | isTrue hs => isTrue (by rw [h, hs])
      | isFalse hs => isFalse (fun e => hs (List.cons.inj e).2)
    | isFalse h => isFalse (fun e => h (List.cons.inj e).1)

end

instance : DecidableEq Tree := decEq

mutual

/-- The tree without its comments. -/
def bare : Tree → Tree
  | .node (.commented _) [t] => t.bare
  | .node f ps => .node f (bareAll ps)

def bareAll : List Tree → List Tree
  | [] => []
  | t :: ts => t.bare :: bareAll ts

end

/-- Whether two trees are the same program text up to comments. -/
def same (a b : Tree) : Bool := a.bare = b.bare

/-! ## Counting and collecting -/

mutual

/-- All nodes, each before its parts and the parts in order. -/
def nodes : Tree → List Tree
  | .node f ps => .node f ps :: nodesAll ps

def nodesAll : List Tree → List Tree
  | [] => []
  | t :: ts => t.nodes ++ nodesAll ts

end

mutual

/-- How many nodes there are. -/
def size : Tree → Nat
  | .node _ ps => sizeAll ps + 1

def sizeAll : List Tree → Nat
  | [] => 0
  | t :: ts => t.size + sizeAll ts

end

/-! ## Folding -/

mutual

/-- A value for each node, made from its form, its parts and their values. -/
def foldWith {α : Type} (f : Form → List (Tree × α) → α) : Tree → α
  | .node form ps => f form (foldAllWith f ps)

def foldAllWith {α : Type} (f : Form → List (Tree × α) → α) : List Tree → List (Tree × α)
  | [] => []
  | t :: ts => (t, t.foldWith f) :: foldAllWith f ts

end

/-- A statement without the comments before it. -/
def uncommented : Tree → Tree
  | .node (.commented _) [t] => t.uncommented
  | t => t

end Tree

/-- A whole program: the line after `#!`, the directives as they are written, and the statements. -/
structure Program where
  hashbang : Option String
  directives : List String
  body : List Tree
  deriving DecidableEq, Repr

end Chainlift
