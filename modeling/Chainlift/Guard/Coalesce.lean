import Chainlift.Guard.Construct

/-!
# Restoring `??`

`r?.a?.b ?? fallback` is expanded to

    null !== (t = null == r || null === (n = r.a) || void 0 === n ? void 0 : n.b) && void 0 !== t ? t : fallback

Only this form is taken back, with loose comparisons or strict pairs, and with any value in the place of the inner
conditional. The inner one is read as a row of guards: checks of a root variable and of temporaries, each of which holds a
member of the root or of an earlier temporary.
-/

namespace Chainlift

/-- A temporary that holds a member of another variable. -/
structure TemporaryBinding where
  name : String
  parent : String
  access : Tree
  deriving DecidableEq, Repr

/-- What has been learned from guards so far. -/
structure Survey where
  root : Option String := none
  /-- In the order in which they are assigned. -/
  bindings : List TemporaryBinding := []
  /-- The variables whose checks cover both `null` and `undefined`, or seem to. -/
  checked : List String := []

namespace Survey

def isBound (s : Survey) (name : String) : Bool := s.bindings.any fun b => b.name == name

/-- The variable is the root or a temporary. -/
def knows (s : Survey) (name : String) : Bool := s.root == some name || s.isBound name

/-- One more guard that checks a variable. -/
def addVariable (s : Survey) (name : String) : Option Survey :=
  if s.root.isNone && s.bindings.isEmpty then some { s with root := some name, checked := name :: s.checked }
  else if s.knows name then some { s with checked := name :: s.checked }
  else none

/-- One more guard that assigns a temporary. -/
def addBinding (s : Survey) (c : NullCheck) : Option Survey := do
  let (name, source) ← c.operand.assignment?
  let object ← source.object?
  let parent ← object.asVariable?
  if source.isLink || !s.knows parent || s.knows name then none
  else
    some { s with
      bindings := s.bindings ++ [⟨name, parent, source⟩]
      checked := if c.compared == .null || !c.strict then name :: s.checked else s.checked }

/-- One more guard. -/
def addGuard (s : Survey) (guard : Tree) : Option Survey := do
  let c ← NullCheck.of? guard
  if c.negated then none
  else match c.operand.asVariable? with
    | some name => s.addVariable name
    | none => s.addBinding c

/-- The accesses that lead from the root to a variable, each with the variable it is made on. The bindings are given latest
first. -/
def climb (root : String) : List TemporaryBinding → String → Option (List (String × Tree))
  | bs, current =>
    if current == root then some []
    else match bs with
      | [] => none
      | b :: bs =>
        if b.name == current then do
          let before ← climb root bs b.parent
          some (before ++ [(b.parent, b.access)])
        else climb root bs current

end Survey

/-- The operands of a row of `||`. -/
def Tree.alternatives : Tree → List Tree
  | .logical .or a b => a.alternatives ++ b.alternatives
  | t => [t]

/-- The chain that a conditional over a row of guards stands for, and its temporaries. -/
def Tree.guardedChain (value : Tree) : Option Replacement :=
  match value with
  | .conditional test yes no => do
    let object ← no.object?
    if !yes.isUndefined then none
    else
      let s ← test.alternatives.foldlM Survey.addGuard {}
      let root ← s.root
      let last ← object.asVariable?
      let accesses ← Survey.climb root s.bindings.reverse last
      let chain := (accesses ++ [(last, no)]).foldl
        (fun chain (on, access) => access.onObject chain (s.checked.contains on)) (.reference root)
      some ⟨chain.closed, s.bindings.map (·.name)⟩
  | _ => none

/-! ## The outer conditional -/

/-- The two halves of a strict check that a value is neither `null` nor `undefined`. -/
def NullCheck.isStrictPair (a b : NullCheck) : Bool :=
  a.negated && b.negated && a.strict && b.strict && a.compared != b.compared

/-- The checks that a test makes: a strict pair, or a loose check alone. -/
def Tree.notNullChecks (test : Tree) : Option (NullCheck × Option NullCheck) :=
  match test with
  | .logical .and p q => do
    let a ← NullCheck.of? p
    let b ← NullCheck.of? q
    if a.isStrictPair b then some (a, some b) else none
  | t => do
    let c ← NullCheck.of? t
    if c.negated && !c.strict then some (c, none) else none

/-- The second half of a pair, if there is one, checks the variable. -/
def NullCheck.agrees (name : String) (second : Option NullCheck) : Bool :=
  second.all fun b => b.operand.asVariable? == some name

/-- The temporary and its value in `null != (t = v) ? t : …` and its strict form. -/
def Tree.assignedGuard (test yes : Tree) : Option (String × Tree) := do
  let name ← yes.asVariable?
  let (first, second) ← test.notNullChecks
  let (assigned, value) ← first.operand.assignment?
  if assigned == name && NullCheck.agrees name second then some (name, value) else none

/-- `null != x ? x : …` and its strict form. -/
def Tree.isVariableGuard (test yes : Tree) : Bool :=
  match yes.asVariable?, test.notNullChecks with
  | some name, some (first, second) => first.operand.asVariable? == some name && NullCheck.agrees name second
  | _, _ => false

/-- Put an expanded `??` back. -/
def Tree.coalesce (t : Tree) : Option Replacement :=
  match t with
  | .conditional test yes no =>
    match Tree.assignedGuard test yes with
    | some (name, value) =>
      let left := (value.guardedChain).getD ⟨value, []⟩
      let consumed := name :: left.consumed
      if consumed.any (fun n => 0 < no.uses n) then none
      else some ⟨.logical .coalesce left.expr no, consumed⟩
    | none =>
      if Tree.isVariableGuard test yes then some ⟨.logical .coalesce yes no, []⟩ else none
  | _ => none

end Chainlift
