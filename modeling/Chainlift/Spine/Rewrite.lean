import Chainlift.Spine.Call

/-!
# Putting a link on the spine

What a guard protects reads the guarded value through a token, as `t` in `t.b.c(1)`. `Tree.rewrite` looks for the first
access made on the token and turns it into a link on the target, the value that the token stands for. Only the spine is
searched (member objects, callees, the operand of `delete` and `void`, the target of an assignment), because a chain that ends
early skips nothing else.
-/

namespace Chainlift

/-- What is looked for, and what takes its place. Without a target the token stays. -/
structure Substitution where
  token : Tree
  target : Option Tree

/-- An expression, and whether the token was found in it. -/
structure Rewritten where
  expr : Tree
  matched : Bool
  deriving DecidableEq, Repr

namespace Substitution

def isToken (s : Substitution) (t : Tree) : Bool := t.same s.token

def replacement (s : Substitution) : Tree := s.target.getD s.token

/-- The callee when the token itself is called. It was called without a receiver, so a member access is unbound. -/
def unboundCallee (s : Substitution) : Tree :=
  let r := s.replacement
  let isMember := match r with
    | .chain t => t.isAccess
    | t => t.isAccess
  if isMember && !s.isToken r then r.unbound else r

/-! ## Calls with an explicit receiver -/

/-- What becomes of a call. -/
inductive Outcome where
  | rewritten (t : Tree)
  /-- The call has a known form without a direct equivalent, and is left as it is. -/
  | refused
  /-- The call has no known form. -/
  | other

/-- A direct call by a link, if there are arguments for it. -/
def Outcome.ofArguments (callee : Tree) : Option (List Tree) → Outcome
  | some args => .rewritten (.call callee args true)
  | none => .refused

/-- `(0, t)(…)` -/
def unboundCall (s : Substitution) (items args : List Tree) : Outcome :=
  match items with
  | [zero, inner] =>
    if zero.isZero && s.isToken inner then .rewritten (.call s.replacement.unbound args true) else .other
  | _ => .other

/-- `t.m.call(t, …)`: the receiver is the token itself. -/
def methodOfToken (s : Substitution) (c : ReceiverCall) : Outcome :=
  let function := c.function.onObject s.replacement.opened true
  match c.method with
  | .bind => .rewritten (.call (.member function "bind" true) (c.receiver :: c.rest) false)
  | m => .ofArguments function (m.directArguments c.rest)

/-- `t.call(o, …)`: the token holds a method of `o`. -/
def storedMethod (s : Substitution) (c : ReceiverCall) : Outcome :=
  match c.method, s.target with
  | .bind, _ | _, none => .other
  | m, some target =>
    match target.object? with
    | none => .other
    | some object =>
      if s.isToken c.function && ReceiverCall.isReceiverOf c.receiver object then
        .ofArguments target (m.directArguments c.rest)
      else .other

/-- The call is made with an explicit receiver, and function and receiver both are the token's. -/
def isMethodOfToken (s : Substitution) (c : ReceiverCall) : Bool :=
  (c.function.object?.any s.isToken) && s.isToken c.receiver

/-- What becomes of a call that has a known form. -/
def knownCall (s : Substitution) (callee : Tree) (args : List Tree) : Outcome :=
  match callee with
  | .sequence items => s.unboundCall items args
  | callee =>
    match ReceiverCall.of? callee args with
    | none => .other
    | some c => if s.isMethodOfToken c then s.methodOfToken c else s.storedMethod c

/-! ## The spine -/

/-- The expression at the left of an assignment is the token. -/
def isTokenTarget (s : Substitution) (target : Tree) : Bool :=
  (target.asVariable?.isSome || target.isAccess) && s.isToken target

/-- An assignment whose target is the token. -/
def onAssignment (s : Substitution) (op : AssignOp) (target value : Tree) : Rewritten :=
  let unchanged : Rewritten := ⟨.assign op target value, false⟩
  if s.isTokenTarget target && s.replacement.isAssignable then
    match s.replacement.asTarget? with
    | some target => ⟨.assign op target value, true⟩
    | none => unchanged
  else unchanged

/-- Search the spine of an open expression. -/
def onSpine (s : Substitution) : Tree → Rewritten
  | .call callee args optional =>
    match s.knownCall callee args with
    | .rewritten t => ⟨t, true⟩
    | .refused => ⟨.call callee args optional, false⟩
    | .other =>
      if s.isToken callee then ⟨.call s.unboundCallee args true, true⟩
      else
        let r := s.onSpine callee
        ⟨.call r.expr args optional, r.matched⟩
  | .member object name optional =>
    if s.isToken object then ⟨.member s.replacement.opened name true, true⟩
    else
      let r := s.onSpine object
      ⟨.member r.expr name optional, r.matched⟩
  | .index object key optional =>
    if s.isToken object then ⟨.index s.replacement.opened key true, true⟩
    else
      let r := s.onSpine object
      ⟨.index r.expr key optional, r.matched⟩
  | .privateMember object name optional =>
    if s.isToken object then ⟨.privateMember s.replacement.opened name true, true⟩
    else
      let r := s.onSpine object
      ⟨.privateMember r.expr name optional, r.matched⟩
  | .unary op t =>
    if op == .delete || op == .void then
      let r : Rewritten := match t with
        | .chain (.nonNull u) => ⟨.chain (.nonNull u), false⟩
        | .chain u => s.onSpine u
        | t => s.onSpine t
      ⟨.unary op r.expr.closed, r.matched⟩
    else ⟨.unary op t, false⟩
  | .assign op target value => s.onAssignment op target value
  | t => ⟨t, false⟩

end Substitution

/-- Put the target in the place of the first token on the spine, and make that access a link. -/
def Tree.rewrite (t token : Tree) (target : Option Tree) : Rewritten :=
  let r := Substitution.onSpine ⟨token, target⟩ t.opened
  ⟨r.expr.closed, r.matched⟩

end Chainlift
