import Chainlift.Tree.Shape

/-!
# Explicit receivers

A method that was stored in a variable is called with an explicit receiver: `f.call(o, x)`, `f.apply(o, list)`,
`f.bind(o)`. Here are the parts of such a call, and the arguments of the direct call that does the same.
-/

namespace Chainlift

/-- The functions that take the receiver as their first argument. -/
inductive Method where
  | call | apply | bind
  deriving DecidableEq, Repr

namespace Method

def ofName? : String → Option Method
  | "call" => some .call
  | "apply" => some .apply
  | "bind" => some .bind
  | _ => none

/-- The arguments of the direct call that `f.apply(receiver, ...)` stands for. A hole in the list, a spread list or more
than one list have no direct form. -/
def appliedArguments : List Tree → Option (List Tree)
  | [] => some []
  | [.array elements] => if elements.all (fun e => e.form != .absent) then some elements else none
  | [.spread _] => none
  | [list] => some [.spread list]
  | _ => none

/-- The arguments of the direct call that a call by `call` or `apply` stands for. -/
def directArguments (m : Method) (rest : List Tree) : Option (List Tree) :=
  match m with
  | .call => some rest
  | .apply => appliedArguments rest
  | .bind => none

end Method

/-- A call with an explicit receiver. -/
structure ReceiverCall where
  function : Tree
  method : Method
  receiver : Tree
  rest : List Tree

namespace ReceiverCall

/-- The first argument, unless it is spread. -/
def splitReceiver? : List Tree → Option (Tree × List Tree)
  | .spread _ :: _ => none
  | receiver :: rest => some (receiver, rest)
  | [] => none

/-- The function and the method's name in `f.call`, where the method is not reached by a link. -/
def splitMethod? : Tree → Option (Tree × Method)
  | .member function name false => (Method.ofName? name).map fun m => (function, m)
  | _ => none

/-- The call with an explicit receiver that a callee and arguments are. -/
def of? (callee : Tree) (args : List Tree) : Option ReceiverCall := do
  let (function, method) ← splitMethod? callee
  let (receiver, rest) ← splitReceiver? args
  some { function, method, receiver, rest }

/-- The receiver is what a method call on the object would pass. Only names and `this` qualify: anything else is evaluated
again by the explicit call. -/
def isReceiverOf (receiver object : Tree) : Bool :=
  match receiver, object with
  | .this, .this => true
  | .reference name, .reference name' => name == name'
  | .reference name, object => object.assignment?.any fun (name', _) => name == name'
  | _, _ => false

end ReceiverCall

/-- `(0, t)`: the value of a member access, called without its object. -/
def Tree.unbound (t : Tree) : Tree := .sequence [.number .zero, t]

end Chainlift
