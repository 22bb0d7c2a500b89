import Chainlift.Proofs.Agreement
import Chainlift.Proofs.Layers

/-!
# Evaluating expressions on a host

Here an expression is evaluated for the effects that it has: calls, assignments, writes, deletions, and what a host enters for
`new`, `await`, `yield`, updates and the like. Reading properties and comparing values are no effects; they may depend on the
store, but leave it as it is.

The evaluation of a node is made of the evaluations of its parts (`Host.perform`). For most forms it is known what is done with
them; the others are operations of the host, which is given the parts in the way that the form takes them: some forms take the
place that their first part is, all others take values. Functions, classes, patterns, types and statements are left to the host as a
whole.
-/

namespace Chainlift

/-- What must not be done more or less often, or in another order. -/
inductive Effect where
  | call (function receiver : Value) (args : List Value)
  | iterate (value : Value)
  | assign (name : String) (value : Value)
  | write (object : Value) (key : Key) (value : Value)
  | remove (object : Value) (key : Key)
  /-- An operation of the host, such as `new`, by its form. -/
  | operation (form : Form) (operands : List Value)
  deriving DecidableEq, Repr

/-- The store, and the effects so far. -/
structure Scene (W : Type) where
  store : Store W
  effects : List Effect

/-- An evaluation for its effects. What was done before a value is thrown stays done. -/
abbrev Run (W α : Type) := ExceptT Value (StateM (Scene W)) α

/-! ## Forms -/

namespace Form

/-- Nothing is known about how the parts are evaluated. -/
def isWhole : Form → Bool
  | .absent | .reference _ | .name _ | .privateName _ | .computed => false
  | .null | .bool _ | .number _ | .bigint _ | .string _ | .regexp .. | .template _ => false
  | .this | .superObject | .newTarget | .importMeta => false
  | .array | .object | .property _ | .method .. | .spread => false
  | .member .. | .index _ | .privateMember .. | .call _ | .construct | .importCall | .tagged => false
  | .unary _ | .update .. | .binary _ | .logical _ | .conditional | .assign _ | .sequence => false
  | .yield _ | .await | .chain | .privateIn _ | .nonNull | .commented _ => false
  | _ => true

/-- The first part is taken as the place that it is, not as a value. -/
def takesPlace : Form → Bool
  | .call _ | .tagged | .unary .delete | .unary .typeOf | .update .. | .assign _ | .chain | .nonNull | .commented _ => true
  | _ => false

/-- A variable or a property, which can be assigned to. -/
def isTarget : Form → Bool
  | .reference _ | .member .. | .index _ | .privateMember .. => true
  | _ => false

/-- What takes the value of a part sees that the part has such a form. -/
def isMark : Form → Bool
  | .absent | .spread => true
  | _ => false

/-- A property by the name of `call`, `apply` or `bind`. -/
def isMethod : Form → Bool
  | .member word _ => (Method.ofName? word).isSome
  | _ => false

end Form

namespace Tree

/-- The expression is left to the host as a whole: it has a form of that kind, or it assigns to a pattern. -/
def isWhole : Tree → Bool
  | .assign .plain target _ => !target.uncommented.form.isTarget
  | .node f _ => f.isWhole

end Tree

/-! ## Hosts -/

/-- A part of an expression, as it is given to the whole. What takes a value sees the form of the part only if it is a mark. -/
structure Piece (W : Type) where
  form : Option Form
  run : Run W (Option Referent)

/-- The meaning of everything that is not the business of `?.`. -/
structure Host (W : Type) where
  this : Value
  /-- Which values that no literal stands for are truthy. -/
  truthyOther : Nat → Bool
  read : Value → Key → Store W → Except Value Value
  write : Value → Key → Value → Action W Unit
  remove : Value → Key → Action W Bool
  call : Value → Value → List Value → Action W Value
  iterate : Value → Action W (List Value)
  /-- Whether two values are `==`, none of which is nullish. -/
  looselyEqual : Value → Value → Store W → Except Value Bool
  /-- Whether two values are `===`, none of which is nullish. -/
  strictlyEqual : Value → Value → Bool
  /-- What is thrown when a property of a nullish value is used. -/
  noObject : Value
  /-- What is thrown when a variable without a value is read. -/
  noVariable : String → Value
  /-- The value of an expression of a form that is not opened here. -/
  operate : Form → List (Piece W) → Run W Value
  whole : Tree → Run W Value

namespace Host

variable {W : Type} (H : Host W)

/-! ## Operations -/

def truthy : Value → Bool
  | .undefined | .null => false
  | .bool b => b
  | .number v => v != .zero
  | .bigint n => n != 0
  | .string s => !s.isEmpty
  | .other id => H.truthyOther id

/-- Find something out about the store. -/
def look {α : Type} (f : Store W → Except Value α) : Run W α := fun s => (f s.store, s)

/-- Do something that is entered among the effects. -/
def enact {α : Type} (e : Effect) (a : Action W α) : Run W α :=
  fun s =>
    let (r, store) := a s.store
    (r, { store, effects := s.effects ++ [e] })

def readVariable (name : String) : Run W Value :=
  look fun store => match store.vars name with
    | some v => .ok v
    | none => .error (H.noVariable name)

def assign (name : String) (v : Value) : Run W Unit :=
  enact (.assign name v) fun store => (.ok (), { store with vars := fun n => if n = name then some v else store.vars n })

/-- The value of a referent. -/
def get : Referent → Run W Value
  | .value v => pure v
  | .property object key => if object.isNullish then throw H.noObject else look (H.read object key)

def set (v : Value) : Referent → Run W Unit
  | .value _ => throw H.noObject
  | .property object key =>
    if object.isNullish then throw H.noObject else enact (.write object key v) (H.write object key v)

def delete : Referent → Run W Value
  | .value _ => pure (.bool true)
  | .property object key => do
    if object.isNullish then throw H.noObject
    else
      let b ← enact (.remove object key) (H.remove object key)
      pure (.bool b)

/-- Compare two values; with `null` and `undefined` it is known how. -/
def compare (strict : Bool) (a b : Value) : Run W Bool :=
  if a.isNullish || b.isNullish then pure (if strict then a == b else a.isNullish && b.isNullish)
  else if strict then pure (H.strictlyEqual a b)
  else look (H.looselyEqual a b)

/-- The value at the end of a chain, unless it ended early. -/
def fetch : Option Referent → Run W (Option Value)
  | none => pure none
  | some p => do
    let v ← H.get p
    pure (some v)

/-- Go on with a value. A link ends the chain at a nullish value. -/
def onto (link : Bool) (go : Value → Run W (Option Referent)) : Option Value → Run W (Option Referent)
  | none => pure none
  | some v => if link && v.isNullish then pure none else go v

/-- A value is the end of a chain. -/
def settle (x : Run W Value) : Run W (Option Referent) := do
  let v ← x
  pure (some (.value v))

/-! ## Parts -/

/-- The value of a part, unless it is a chain that ends early. -/
def reach (p : Piece W) : Run W (Option Value) := do
  let r ← p.run
  H.fetch r

/-- The value of a part. -/
def valueOf (p : Piece W) : Run W Value := do
  let v ← H.reach p
  pure (v.getD .undefined)

/-- The values that a value is, or those of which it consists if it is spread. -/
def expand (spread : Bool) (v : Value) : Run W (List Value) := if spread then enact (.iterate v) (H.iterate v) else pure [v]

/-- The values of a list of parts, some of which may be spread. -/
def valuesOf : List (Piece W) → Run W (List Value)
  | [] => pure []
  | p :: ps => do
    let v ← H.valueOf p
    let vs ← H.expand (p.form == some .spread) v
    let ws ← valuesOf ps
    pure (vs ++ ws)

/-- A part whose value is taken. -/
def settled (p : Piece W) : Piece W := ⟨p.form.filter Form.isMark, settle (H.valueOf p)⟩

/-- The parts in the way that a form takes them. -/
def handed (f : Form) : List (Piece W) → List (Piece W)
  | [] => []
  | p :: ps => (if f.takesPlace then p else H.settled p) :: ps.map H.settled

/-- An operation of the host. -/
def operation (f : Form) (ps : List (Piece W)) : Run W (Option Referent) := settle (H.operate f (H.handed f ps))

/-- An expression of a form with one part. No program has another number of parts there. -/
def ofOne (f : Form) (ps : List (Piece W)) (go : Piece W → Run W (Option Referent)) : Run W (Option Referent) :=
  match ps with
  | [p] => go p
  | ps => H.operation f ps

/-- An expression of a form with two parts. -/
def ofTwo (f : Form) (ps : List (Piece W)) (go : Piece W → Piece W → Run W (Option Referent)) : Run W (Option Referent) :=
  match ps with
  | [p, q] => go p q
  | ps => H.operation f ps

/-- Evaluate an expression of the given form. If the value of an assignment to a variable is a chain that ends early and is open,
which no program has, the chain goes on to end. -/
def perform (f : Form) (ps : List (Piece W)) : Run W (Option Referent) :=
  match f with
  | .reference name => settle (if name == "undefined" then pure .undefined else H.readVariable name)
  | .this => settle (pure H.this)
  | .null => settle (pure .null)
  | .bool b => settle (pure (.bool b))
  | .number v => settle (pure (.number v))
  | .bigint n => settle (pure (.bigint n))
  | .string s => settle (pure (.string s))
  | .member name link => H.ofOne f ps fun o => do
    let v ← H.reach o
    onto link (fun v => pure (some (.property v (.name name)))) v
  | .privateMember name link => H.ofOne f ps fun o => do
    let v ← H.reach o
    onto link (fun v => pure (some (.property v (.privateName name)))) v
  | .index link => H.ofTwo f ps fun o k => do
    let v ← H.reach o
    onto link (fun v => do
      let k ← H.valueOf k
      pure (some (.property v (.computed k)))) v
  | .call link => match ps with
    | callee :: args => do
      let r ← callee.run
      let v ← H.fetch r
      onto link (fun f => settle do
        let vs ← H.valuesOf args
        let receiver := (r.map (·.receiver)).getD .undefined
        enact (.call f receiver vs) (H.call f receiver vs)) v
    | [] => H.operation f []
  | .chain => H.ofOne f ps fun p => do
    let r ← p.run
    pure (some (r.getD (.value .undefined)))
  | .nonNull | .commented _ => H.ofOne f ps fun p => p.run
  | .spread => H.ofOne f ps fun p => settle (H.valueOf p)
  | .unary .delete => H.ofOne f ps fun p => settle do
    let r ← p.run
    H.delete (r.getD (.value .undefined))
  | .unary .void => H.ofOne f ps fun p => settle do
    let _ ← H.valueOf p
    pure .undefined
  | .unary .not => H.ofOne f ps fun p => settle do
    let v ← H.valueOf p
    pure (.bool (!H.truthy v))
  | .binary op => match NullCheck.kind? op with
    | some (strict, negated) => H.ofTwo f ps fun a b => settle do
      let v ← H.valueOf a
      let w ← H.valueOf b
      let r ← H.compare strict v w
      pure (.bool (r != negated))
    | none => H.operation f ps
  | .logical op => H.ofTwo f ps fun a b => settle do
    let v ← H.valueOf a
    let goOn := match op with
      | .and => H.truthy v
      | .or => !H.truthy v
      | .coalesce => v.isNullish
    if goOn then H.valueOf b else pure v
  | .conditional => match ps with
    | [c, yes, no] => settle do
      let v ← H.valueOf c
      if H.truthy v then H.valueOf yes else H.valueOf no
    | ps => H.operation f ps
  | .assign .plain => H.ofTwo f ps fun target t =>
    match target.form with
    | some (.reference name) => do
      let v ← H.reach t
      assign name (v.getD .undefined)
      pure (v.map .value)
    | _ => settle do
      let r ← target.run
      let v ← H.valueOf t
      H.set v (r.getD (.value .undefined))
      pure v
  | .sequence => settle do
    let vs ← H.valuesOf ps
    pure (vs.getLast?.getD .undefined)
  | f => H.operation f ps

/-! ## Expressions -/

mutual

/-- The referent of an expression; there is none if a chain that is open in it ends early. -/
def refer : Tree → Run W (Option Referent)
  | .node f ps => if (Tree.node f ps).isWhole then settle (H.whole (.node f ps)) else H.perform f (piecesOf ps)

/-- The parts of an expression. -/
def piecesOf : List Tree → List (Piece W)
  | [] => []
  | t :: ts => ⟨some t.uncommented.form, refer t⟩ :: piecesOf ts

end

/-- An expression as a part of another one. -/
def piece (t : Tree) : Piece W := ⟨some t.uncommented.form, H.refer t⟩

/-- The value of an expression. -/
def eval (t : Tree) : Run W Value := H.valueOf (H.piece t)

theorem piecesOf_eq_map (ts : List Tree) : H.piecesOf ts = ts.map H.piece := by
  induction ts with
  | nil => rfl
  | cons t ts ih => rw [piecesOf, ih, List.map_cons, piece]

theorem refer_of_isWhole {t : Tree} (h : t.isWhole = true) : H.refer t = settle (H.whole t) := by
  obtain ⟨f, ps⟩ := t
  rw [refer, if_pos h]

theorem refer_node {f : Form} {ps : List Tree} (h : (Tree.node f ps).isWhole = false) :
    H.refer (.node f ps) = H.perform f (ps.map H.piece) := by
  rw [refer, if_neg (by simp [h]), piecesOf_eq_map]

/-- The referent of an expression in a closed chain. -/
def ended (t : Tree) : Run W Referent := do
  let r ← H.refer t
  pure (r.getD (.value .undefined))

theorem eval_eq_ended (t : Tree) : H.eval t = (do
    let r ← H.ended t
    H.get r) := by
  simp only [eval, valueOf, reach, ended, piece, bind_assoc, pure_bind]
  refine bind_congr fun r => ?_
  cases r with
  | none => rfl
  | some p => simp only [fetch, bind_assoc, pure_bind, Option.getD_some, bind_pure]

theorem refer_chain (t : Tree) : H.refer (.chain t) = (do
    let r ← H.ended t
    pure (some r)) := by
  rw [H.refer_node rfl]
  simp only [List.map_cons, List.map_nil, perform, ofOne, ended, bind_assoc, pure_bind]
  rfl

theorem ended_chain (t : Tree) : H.ended (.chain t) = H.ended t := by
  rw [ended, refer_chain]
  simp only [bind_assoc, pure_bind, Option.getD_some, bind_pure]

theorem ended_opened (t : Tree) : H.ended t.opened = H.ended t := by
  unfold Tree.opened
  split
  · rfl
  · exact (H.ended_chain _).symm
  · rfl

theorem ended_closed (t : Tree) : H.ended t.closed = H.ended t := by
  unfold Tree.closed
  split
  · exact H.ended_chain t
  · rfl

theorem refer_delete (t : Tree) : H.refer (.unary .delete t) = settle (do
    let r ← H.ended t
    H.delete r) := by
  rw [H.refer_node rfl]
  simp only [List.map_cons, List.map_nil, perform, ofOne, ended, bind_assoc, pure_bind]
  rfl

theorem refer_void (t : Tree) : H.refer (.unary .void t) = settle (do
    let _ ← H.eval t
    pure .undefined) := by
  rw [H.refer_node rfl]
  rfl

/-- What a layer does with the referent and the value of what is below. -/
def apply : Layer → Option Referent → Value → Run W (Option Referent)
  | .member name, _, v => pure (some (.property v (.name name)))
  | .privateMember name, _, v => pure (some (.property v (.privateName name)))
  | .index key, _, v => do
    let k ← H.eval key
    pure (some (.property v (.computed k)))
  | .call args, r, f => settle do
    let vs ← H.valuesOf (args.map H.piece)
    let receiver := (r.map (·.receiver)).getD .undefined
    enact (.call f receiver vs) (H.call f receiver vs)

theorem refer_onto (l : Layer) (link : Bool) (t : Tree) : H.refer (l.onto link t) = (do
    let r ← H.refer t
    let v ← H.fetch r
    Host.onto link (H.apply l r) v) := by
  cases l <;> rw [Layer.onto, H.refer_node rfl] <;>
    simp only [List.map_cons, List.map_nil, perform, ofOne, ofTwo, reach, bind_assoc] <;> rfl

end Host

end Chainlift
