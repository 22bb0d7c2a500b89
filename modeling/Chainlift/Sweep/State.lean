import Chainlift.Guard.Coalesce
import Chainlift.Scope.Clean

/-!
# The state of a sweep

A sweep goes through a program once. It keeps a frame for each scope that it is in: the names that belong to the scope, a
tally of the uses in it, and the temporaries that rewrites have left behind. A rewrite is accepted only if every variable that
it assigns less often than before belongs to one of these scopes, is used nowhere else in it, and is not read any more.
-/

namespace Chainlift

/-- A scope that the sweep is in. -/
structure Frame where
  owned : List String
  tally : Tally
  /-- Temporaries that accepted rewrites may have left dead. -/
  consumed : List String
  deriving DecidableEq, Repr

def Frame.ofScope (s : Scope) : Frame := ⟨s.owned, s.tally, []⟩

structure Sweep where
  /-- The innermost scope first. -/
  frames : List Frame
  chains : Nat
  coalescings : Nat
  removed : Nat
  deriving DecidableEq, Repr

inductive RewriteKind where
  | chain | coalescing
  deriving DecidableEq, Repr

namespace Sweep

def start : Sweep := ⟨[], 0, 0, 0⟩

def rewrites (s : Sweep) : Nat := s.chains + s.coalescings

/-- The innermost scope to which the name belongs. -/
def owner? (s : Sweep) (name : String) : Option Frame := s.frames.find? fun f => f.owned.contains name

/-- Nothing is lost with the assignments to a variable that the replacement does not make. -/
def dropsSafely (s : Sweep) (old replacement : Tree) (name : String) : Bool :=
  let kept := replacement.assignmentCount name
  if old.assignmentCount name ≤ kept then true
  else if kept < replacement.uses name then false
  else match s.owner? name with
    | some f => f.tally.get name == old.uses name
    | none => false

/-- Nothing is lost with any assignment that the replacement does not make. -/
def isLocal (s : Sweep) (old replacement : Tree) : Bool :=
  old.assigned.all (s.dropsSafely old replacement)

/-- The uses of variables that go when the replacement is made. -/
def lostUses (old : Tree) (r : Replacement) : List (String × Nat) :=
  (old.assigned ++ r.consumed).eraseDups.map fun name => (name, old.uses name - r.expr.uses name)

/-- Add temporaries to those that the innermost scope has left behind. -/
def leaveBehind (s : Sweep) (names : List String) : Sweep :=
  match s.frames with
  | [] => s
  | f :: fs => { s with frames := { f with consumed := f.consumed ++ names } :: fs }

def count (s : Sweep) : RewriteKind → Sweep
  | .chain => { s with chains := s.chains + 1 }
  | .coalescing => { s with coalescings := s.coalescings + 1 }

/-- Make a replacement, if nothing is lost with it. -/
def accept (s : Sweep) (old : Tree) (r : Replacement) (kind : RewriteKind) : Option (Tree × Sweep) :=
  if s.isLocal old r.expr then
    let lost := lostUses old r
    let frames := s.frames.map fun f => { f with tally := f.tally.subtractAll lost }
    some (r.expr, (({ s with frames }).leaveBehind r.consumed).count kind)
  else none

/-- Rewrite an expression as `??`, or else as a chain. -/
def tryRewrite (o : Options) (t : Tree) (s : Sweep) : Option (Tree × Sweep) :=
  let coalesced := if o.coalescing then t.coalesce.bind fun r => s.accept t r .coalescing else none
  coalesced.or (if t.isBranching then (t.reconstruct o).bind fun r => s.accept t r .chain else none)

/-! ## Entering and leaving scopes -/

/-- Enter the scope that a node opens, if it opens one. -/
def enter (s : Sweep) (f : Form) (ps : List Tree) : Sweep :=
  match Scope.of? f ps with
  | some scope => { s with frames := .ofScope scope :: s.frames }
  | none => s

/-- What cleaning has come to: the statements, how many declarators went, and the names that the scope does not declare. -/
structure Cleaned where
  statements : List Tree
  removed : Nat
  escaped : List String

/-- Remove one more name. -/
def Cleaned.add (parameters : Option Tree) (c : Cleaned) (name : String) : Cleaned :=
  match Scope.removeUnused ⟨parameters, c.statements⟩ name with
  | (.removed n, statements) => { c with statements, removed := c.removed + n }
  | (.retained, _) => c
  | (.unbound, _) => { c with escaped := c.escaped ++ [name] }

/-- Remove each of the names from a scope, if nothing uses it. -/
def clean (scope : Scope) (names : List String) : Cleaned :=
  names.eraseDups.foldl (Cleaned.add scope.parameters) ⟨scope.statements, 0, []⟩

/-- Leave a scope: the temporaries left behind in it are removed, and those it does not declare are left to the scope around
it. -/
def leaveScope (s : Sweep) (scope : Scope) : List Tree × Sweep :=
  match s.frames with
  | [] => (scope.statements, s)
  | f :: fs =>
    let c := clean scope f.consumed
    (c.statements, ({ s with frames := fs, removed := s.removed + c.removed }).leaveBehind c.escaped)

/-- Leave the scope that a node opens, if it opens one. -/
def leave (s : Sweep) (f : Form) (ps : List Tree) : Tree × Sweep :=
  match Scope.of? f ps with
  | some scope =>
    let (statements, s) := s.leaveScope scope
    (.node f (Scope.put f ps statements), s)
  | none => (.node f ps, s)

end Sweep

end Chainlift
