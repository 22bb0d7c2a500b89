import Chainlift.Guard.NullCheck
import Mathlib.Control.Lawful

/-!
# Evaluating expressions

An expression is evaluated to a referent: a value, or a property that has not been read yet, as the operand of `delete` and the
callee of a method call need it. A chain that ends early has no referent. What reading and writing properties, calling functions
and iterating do is up to a machine; each is an action on the variables and on a world that nothing is known about, and each
is entered in a trace. Expressions of other forms are left to the machine as a whole.

A link ends the evaluation of all that stands above it on the spine, up to the chain around it. An open expression is evaluated
as if it were closed, so `Tree.opened` and `Tree.closed` change no value (`Machine.eval_opened`, `Machine.eval_closed`).
-/

namespace Chainlift

/-- A value. What no literal stands for (an object, a function, a symbol, another number) is known by a number only. -/
inductive Value where
  | undefined | null
  | bool (value : Bool)
  | number (value : Double)
  | bigint (value : Nat)
  | string (value : Points)
  | other (id : Nat)
  deriving DecidableEq, Repr

/-- `null` and `undefined`. -/
def Value.isNullish : Value → Bool
  | .undefined | .null => true
  | _ => false

/-- What a property is reached by. -/
inductive Key where
  | name (name : String)
  | computed (value : Value)
  | privateName (name : String)
  deriving DecidableEq, Repr

/-- Something that can be noticed from outside. -/
inductive Event where
  | read (object : Value) (key : Key)
  | write (object : Value) (key : Key) (value : Value)
  | remove (object : Value) (key : Key)
  | call (function receiver : Value) (args : List Value)
  | iterate (value : Value)
  | compare (left right : Value)
  deriving DecidableEq, Repr

/-- The variables, of which some have no value, and everything else. -/
structure Store (W : Type) where
  vars : String → Option Value
  world : W

/-- What an operation of a machine does: it has a result or throws a value. -/
abbrev Action (W α : Type) := Store W → Except Value α × Store W

/-- The store, and what has been noticed so far. -/
structure State (W : Type) where
  store : Store W
  trace : List Event

/-- An evaluation. What was done before a value is thrown stays done. -/
abbrev Eval (W α : Type) := ExceptT Value (StateM (State W)) α

namespace Eval

variable {σ : Type}

theorem bind_ok {α β : Type} {x : ExceptT Value (StateM σ) α} {s s' : σ} {a : α} (h : x s = (.ok a, s'))
    (f : α → ExceptT Value (StateM σ) β) : (x >>= f) s = f a s' := by
  show (ExceptT.bind x f) s = f a s'
  simp only [ExceptT.bind, ExceptT.mk, bind, StateT.bind]
  rw [h]
  rfl

theorem bind_error {α β : Type} {x : ExceptT Value (StateM σ) α} {s s' : σ} {e : Value} (h : x s = (.error e, s'))
    (f : α → ExceptT Value (StateM σ) β) : (x >>= f) s = (.error e, s') := by
  show (ExceptT.bind x f) s = (.error e, s')
  simp only [ExceptT.bind, ExceptT.mk, bind, StateT.bind]
  rw [h]
  rfl

theorem of_bind_ok {α β : Type} {x : ExceptT Value (StateM σ) α} {f : α → ExceptT Value (StateM σ) β} {s s' : σ} {b : β}
    (h : (x >>= f) s = (.ok b, s')) : ∃ a m, x s = (.ok a, m) ∧ f a m = (.ok b, s') := by
  rcases hx : x s with ⟨e | a, m⟩
  · rw [bind_error hx] at h
    exact absurd (Prod.mk.inj h).1 (by simp)
  · exact ⟨a, m, rfl, by rwa [bind_ok hx] at h⟩

/-- Only what happens from the one state counts. -/
theorem bind_congr_at {α β : Type} {x y : ExceptT Value (StateM σ) α} {s : σ} (h : x s = y s)
    (f : α → ExceptT Value (StateM σ) β) : (x >>= f) s = (y >>= f) s := by
  rcases hx : x s with ⟨_ | a, s'⟩
  · rw [bind_error hx, bind_error (h ▸ hx)]
  · rw [bind_ok hx, bind_ok (h ▸ hx)]

end Eval

/-- A value, or a property of a value. -/
inductive Referent where
  | value (v : Value)
  | property (object : Value) (key : Key)
  deriving DecidableEq, Repr

/-- The `this` of a call whose callee is the referent. -/
def Referent.receiver : Referent → Value
  | .value _ => .undefined
  | .property object _ => object

/-- The meaning of everything that is not the business of `?.` and `??`. -/
structure Machine (W : Type) where
  this : Value
  /-- Which values that no literal stands for are truthy. -/
  truthyOther : Nat → Bool
  read : Value → Key → Action W Value
  write : Value → Key → Value → Action W Unit
  remove : Value → Key → Action W Bool
  call : Value → Value → List Value → Action W Value
  iterate : Value → Action W (List Value)
  /-- Whether two values are `==`, none of which is nullish. -/
  looselyEqual : Value → Value → Action W Bool
  /-- Whether two values are `===`, none of which is nullish. -/
  strictlyEqual : Value → Value → Bool
  /-- What is thrown when a property of a nullish value is used. -/
  noObject : Value
  /-- What is thrown when a variable without a value is read. -/
  noVariable : String → Value
  /-- The value of an expression of a form that is not opened here. -/
  other : Tree → Eval W Value

/-- The value of a literal. -/
def Tree.literal? (t : Tree) : Option Value :=
  match t.form with
  | .null => some .null
  | .bool b => some (.bool b)
  | .number v => some (.number v)
  | .bigint n => some (.bigint n)
  | .string s => some (.string s)
  | _ => none

namespace Machine

variable {W : Type} (M : Machine W)

/-! ## Operations -/

def truthy : Value → Bool
  | .undefined | .null => false
  | .bool b => b
  | .number v => v != .zero
  | .bigint n => n != 0
  | .string s => !s.isEmpty
  | .other id => M.truthyOther id

/-- Do something that is entered in the trace. -/
def perform {α : Type} (e : Event) (a : Action W α) : Eval W α :=
  fun s =>
    let (r, store) := a s.store
    (r, { store, trace := s.trace ++ [e] })

def readVariable (name : String) : Eval W Value :=
  fun s => match s.store.vars name with
    | some v => (.ok v, s)
    | none => (.error (M.noVariable name), s)

def setVariable (name : String) (v : Value) : Eval W Unit :=
  fun s => (.ok (), { s with store.vars := fun n => if n = name then some v else s.store.vars n })

/-- The value of a referent. -/
def get : Referent → Eval W Value
  | .value v => pure v
  | .property object key =>
    if object.isNullish then throw M.noObject else perform (.read object key) (M.read object key)

def set (v : Value) : Referent → Eval W Unit
  | .value _ => throw M.noObject
  | .property object key =>
    if object.isNullish then throw M.noObject else perform (.write object key v) (M.write object key v)

def delete : Referent → Eval W Value
  | .value _ => pure (.bool true)
  | .property object key => do
    if object.isNullish then throw M.noObject
    else
      let b ← perform (.remove object key) (M.remove object key)
      pure (.bool b)

/-- Compare two values; with `null` and `undefined` it is known how. -/
def compare (strict : Bool) (a b : Value) : Eval W Bool :=
  if a.isNullish || b.isNullish then pure (if strict then a == b else a.isNullish && b.isNullish)
  else if strict then pure (M.strictlyEqual a b)
  else perform (.compare a b) (M.looselyEqual a b)

/-- The value at the end of a chain: `undefined` if it ended early. -/
def value : Option Referent → Eval W Value
  | some p => M.get p
  | none => pure .undefined

/-- Go on with the value of a referent, unless the chain has ended. A link ends it at a nullish value. -/
def step (link : Bool) (go : Referent → Value → Eval W (Option Referent)) : Option Referent → Eval W (Option Referent)
  | none => pure none
  | some p => do
    let v ← M.get p
    if link && v.isNullish then pure none else go p v

/-! ## Expressions -/

mutual

/-- The referent of an expression; there is none if a chain that is open in it ends early. -/
def refer : Tree → Eval W (Option Referent)
  | .reference name => do
    if name == "undefined" then pure (some (.value .undefined))
    else
      let v ← M.readVariable name
      pure (some (.value v))
  | .this => pure (some (.value M.this))
  | .member object name link => do
    let p ← refer object
    M.step link (fun _ v => pure (some (.property v (.name name)))) p
  | .privateMember object name link => do
    let p ← refer object
    M.step link (fun _ v => pure (some (.property v (.privateName name)))) p
  | .index object key link => do
    let p ← refer object
    M.step link (fun _ v => do
      let k ← refer key
      let k ← M.value k
      pure (some (.property v (.computed k)))) p
  | .call callee args link => do
    let p ← refer callee
    M.step link (fun p f => do
      let vs ← valuesOf args
      let r ← perform (.call f p.receiver vs) (M.call f p.receiver vs)
      pure (some (.value r))) p
  | .chain t => do
    let p ← refer t
    pure (some (p.getD (.value .undefined)))
  | .nonNull t => refer t
  | .unary .delete t => do
    let p ← refer t
    let v ← M.delete (p.getD (.value .undefined))
    pure (some (.value v))
  | .unary .void t => do
    let p ← refer t
    let _ ← M.value p
    pure (some (.value .undefined))
  | .unary .not t => do
    let p ← refer t
    let v ← M.value p
    pure (some (.value (.bool (!M.truthy v))))
  | .binary op a b =>
    match NullCheck.kind? op with
    | some (strict, negated) => do
      let pa ← refer a
      let va ← M.value pa
      let pb ← refer b
      let vb ← M.value pb
      let r ← M.compare strict va vb
      pure (some (.value (.bool (r != negated))))
    | none => do
      let v ← M.other (.binary op a b)
      pure (some (.value v))
  | .logical op a b => do
    let p ← refer a
    let v ← M.value p
    let goOn := match op with
      | .and => M.truthy v
      | .or => !M.truthy v
      | .coalesce => v.isNullish
    if goOn then
      let q ← refer b
      let w ← M.value q
      pure (some (.value w))
    else pure (some (.value v))
  | .conditional c yes no => do
    let p ← refer c
    let v ← M.value p
    let q ← if M.truthy v then refer yes else refer no
    let w ← M.value q
    pure (some (.value w))
  | .assign .plain (.reference name) t => do
    let p ← refer t
    let v ← M.value p
    setVariable name v
    pure (some (.value v))
  | .assign .plain target t =>
    if target.isAccess then do
      let q ← refer target
      let p ← refer t
      let v ← M.value p
      M.set v (q.getD (.value .undefined))
      pure (some (.value v))
    else do
      let v ← M.other (.assign .plain target t)
      pure (some (.value v))
  | .sequence ts => do
    let vs ← valuesOf ts
    pure (some (.value (vs.getLast?.getD .undefined)))
  | t => do
    match t.literal? with
    | some v => pure (some (.value v))
    | none =>
      let v ← M.other t
      pure (some (.value v))

/-- The values of a list of expressions, some of which may be spread. -/
def valuesOf : List Tree → Eval W (List Value)
  | [] => pure []
  | .spread t :: ts => do
    let p ← refer t
    let v ← M.value p
    let vs ← perform (.iterate v) (M.iterate v)
    let ws ← valuesOf ts
    pure (vs ++ ws)
  | t :: ts => do
    let p ← refer t
    let v ← M.value p
    let ws ← valuesOf ts
    pure (v :: ws)

end

/-- The value of an expression. -/
def eval (t : Tree) : Eval W Value := do
  let p ← M.refer t
  M.value p

/-! ## The values of some forms -/

attribute [local simp] refer

theorem value_value (v : Value) : M.value (some (.value v)) = pure v := rfl

theorem eval_conditional (c yes no : Tree) : M.eval (.conditional c yes no) = (do
    let v ← M.eval c
    if M.truthy v then M.eval yes else M.eval no) := by
  simp only [eval, refer, bind_assoc]
  refine bind_congr fun p => bind_congr fun v => ?_
  split <;> simp only [bind_assoc, pure_bind, value_value, bind_pure]

theorem eval_and (a b : Tree) : M.eval (.logical .and a b) = (do
    let v ← M.eval a
    if M.truthy v then M.eval b else pure v) := by
  simp only [eval, refer, bind_assoc]
  refine bind_congr fun p => bind_congr fun v => ?_
  split <;> simp only [bind_assoc, pure_bind, value_value, bind_pure]

theorem eval_or (a b : Tree) : M.eval (.logical .or a b) = (do
    let v ← M.eval a
    if M.truthy v then pure v else M.eval b) := by
  simp only [eval, refer, bind_assoc]
  refine bind_congr fun p => bind_congr fun v => ?_
  cases M.truthy v <;> simp [value_value]

theorem eval_coalesce (a b : Tree) : M.eval (.logical .coalesce a b) = (do
    let v ← M.eval a
    if v.isNullish then M.eval b else pure v) := by
  simp only [eval, refer, bind_assoc]
  refine bind_congr fun p => bind_congr fun v => ?_
  cases v.isNullish <;> simp [value_value]

theorem eval_not (t : Tree) : M.eval (.not t) = (do
    let v ← M.eval t
    pure (.bool (!M.truthy v))) := by
  simp only [Tree.not, eval, refer, bind_assoc, pure_bind, value_value]

theorem eval_reference {name : String} (h : name ≠ "undefined") : M.eval (.reference name) = M.readVariable name := by
  simp only [eval, refer, beq_iff_eq, h, if_false, bind_assoc, pure_bind, value_value, bind_pure]

theorem eval_this : M.eval .this = pure M.this := by
  simp only [eval, refer, pure_bind, value_value]

theorem eval_assign (name : String) (t : Tree) : M.eval (.assign .plain (.reference name) t) = (do
    let v ← M.eval t
    setVariable name v
    pure v) := by
  simp only [eval, refer, bind_assoc, pure_bind, value_value]

theorem refer_isLiteral {t : Tree} (h : t.isLiteral = true) : ∃ v, M.refer t = pure (some (.value v)) := by
  obtain ⟨f, ps⟩ := t
  cases f <;> simp only [Tree.isLiteral, Tree.form, Bool.false_eq_true] at h
  · exact ⟨.null, by simp [refer, Tree.literal?, Tree.form]⟩
  · exact ⟨.bool _, by simp [refer, Tree.literal?, Tree.form]; rfl⟩
  · exact ⟨.number _, by simp [refer, Tree.literal?, Tree.form]; rfl⟩
  · exact ⟨.bigint _, by simp [refer, Tree.literal?, Tree.form]; rfl⟩
  · exact ⟨.string _, by simp [refer, Tree.literal?, Tree.form]; rfl⟩

theorem eval_isNull {t : Tree} (h : t.isNull = true) : M.eval t = pure .null := by
  unfold Tree.isNull at h
  split at h
  · simp [eval, refer, Tree.literal?, Tree.form, value_value]
  · exact absurd h (by simp)

theorem eval_isUndefined {t : Tree} (h : t.isUndefined = true) : M.eval t = pure .undefined := by
  unfold Tree.isUndefined at h
  split at h
  · rename_i t
    obtain ⟨v, hv⟩ := M.refer_isLiteral h
    simp only [eval, refer, hv, pure_bind, value_value]
  · rename_i name
    simp only [eval, refer, h, if_true, pure_bind, value_value]
  · exact absurd h (by simp)

theorem refer_comparison {op : BinaryOp} {strict negated : Bool} (h : NullCheck.kind? op = some (strict, negated))
    (a b : Tree) : M.refer (.binary op a b) = (do
      let v ← M.eval a
      let w ← M.eval b
      let r ← M.compare strict v w
      pure (some (.value (.bool (r != negated))))) := by
  simp only [eval, refer, h, bind_assoc]

theorem eval_comparison {op : BinaryOp} {strict negated : Bool} (h : NullCheck.kind? op = some (strict, negated))
    (a b : Tree) : M.eval (.binary op a b) = (do
      let v ← M.eval a
      let w ← M.eval b
      let r ← M.compare strict v w
      pure (.bool (r != negated))) := by
  rw [eval, refer_comparison M h]
  simp only [bind_assoc, pure_bind, value_value]

/-! ## Open and closed chains -/

theorem value_getD (p : Option Referent) : M.value (some (p.getD (.value .undefined))) = M.value p := by
  cases p <;> rfl

theorem eval_chain (t : Tree) : M.eval (.chain t) = M.eval t := by
  simp only [eval, refer, bind_assoc, pure_bind, value_getD]

/-- An open expression has the value of the chain that it is a part of. -/
theorem eval_opened (t : Tree) : M.eval t.opened = M.eval t := by
  unfold Tree.opened
  split
  · rfl
  · exact (M.eval_chain _).symm
  · rfl

theorem eval_closed (t : Tree) : M.eval t.closed = M.eval t := by
  unfold Tree.closed
  split
  · exact M.eval_chain t
  · rfl

/-! ## A simple machine -/

/-- A machine in which every property and the result of every call is the same value. -/
def constant (v : Value) : Machine Unit where
  this := v
  truthyOther _ := true
  read _ _ s := (.ok v, s)
  write _ _ _ s := (.ok (), s)
  remove _ _ s := (.ok true, s)
  call _ _ _ s := (.ok v, s)
  iterate _ s := (.ok [], s)
  looselyEqual _ _ s := (.ok false, s)
  strictlyEqual a b := a == b
  noObject := .other 1
  noVariable _ := .other 2
  other _ := pure v

end Machine

/-- Every variable has a value that is not missing, and nothing has happened. -/
def State.initial : State Unit := ⟨⟨fun _ => some (.other 0), ()⟩, []⟩

end Chainlift
