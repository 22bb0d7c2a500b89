import Chainlift.Spine.Call
import Chainlift.Tree.Names

/-!
# Folding temporaries

A temporary that only passes a value on can go. `(n = v).m.call(n, x)` is `v.m(x)`, and `(n = v)` is `v` when every use of `n`
in the expression is the target of such an assignment. Nested functions are left alone, but their uses count.
-/

namespace Chainlift.Tree

/-- A call of a method of `(name = v)` with that variable as its receiver becomes a call on `v`. -/
def foldCall (name : String) (t : Tree) : Tree :=
  match t with
  | .call (.member function word linked) args optional =>
    let folded : Option Tree := do
      let object ← function.object?
      let (assigned, value) ← object.assignment?
      let method ← Method.ofName? word
      let (receiver, rest) ← ReceiverCall.splitReceiver? args
      let direct ← method.directArguments rest
      if assigned == name && receiver.asVariable? == some name then
        some (.call (function.onObject value function.isLink) direct (optional || linked))
      else none
    folded.getD t
  | t => t

mutual

/-- Fold every call on the variable's value, outside nested functions. -/
def foldCalls (name : String) : Tree → Tree
  | .node f ps => if f.isFunction then .node f ps else foldCall name (.node f (foldCallsAll name ps))

def foldCallsAll (name : String) : List Tree → List Tree
  | [] => []
  | t :: ts => t.foldCalls name :: foldCallsAll name ts

end

/-- The value that `name = value` assigns. -/
def unwrapOne (name : String) (t : Tree) : Tree :=
  match t.assignment? with
  | some (assigned, value) => if assigned == name then value else t
  | none => t

mutual

/-- Put the value in the place of every assignment to the variable, outside nested functions. -/
def unwrap (name : String) : Tree → Tree
  | .node f ps => if f.isFunction then .node f ps else unwrapOne name (.node f (unwrapAll name ps))

def unwrapAll (name : String) : List Tree → List Tree
  | [] => []
  | t :: ts => t.unwrap name :: unwrapAll name ts

end

/-- Fold a temporary into the expressions it is assigned. -/
def fold (t : Tree) (name : String) : Tree :=
  let folded := t.foldCalls name
  if folded.uses name == folded.assignmentCount name then folded.unwrap name else folded

/-- Fold each of the variables that has no use left afterwards. -/
def foldEach (t : Tree) : List String → Tree × List String
  | [] => (t, [])
  | name :: names =>
    let candidate := t.fold name
    if candidate.uses name == 0 then
      let (t, folded) := candidate.foldEach names
      (t, name :: folded)
    else t.foldEach names

/-- Fold every variable that is assigned in the expression and not read in it. -/
def foldAssigned (t : Tree) : Tree × List String := t.foldEach t.assigned

end Chainlift.Tree
