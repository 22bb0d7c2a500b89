import Chainlift.Proofs.Marks

/-!
# Negated conditions and decisions

A condition is made of atoms by `!`, comparisons for equality, `&&`, `||`, `??` and `?:`. Its negation evaluates the same atoms in
the same order and holds exactly when the condition does not (`Conditions.truth_negated`). A negated decision therefore goes
the way of the decision through exchanged branches, and ends at the same leaf (`Conditions.reach_negated`). What the atoms do is
left open, as in a choice: they are computations in any monad.

The leaf is the same, mark and all, but the value of the condition above it is not: the mark goes on referring to the condition
as it was before.
-/

namespace Chainlift

theorem BinaryOp.kind?_opposite? {op op' : BinaryOp} (h : op.opposite? = some op') :
    ∃ strict negated, NullCheck.kind? op = some (strict, negated) ∧ NullCheck.kind? op' = some (strict, !negated) := by
  cases op <;> simp only [BinaryOp.opposite?, reduceCtorEq] at h <;> obtain rfl := Option.some.inj h <;> exact ⟨_, _, rfl, rfl⟩

/-- What conditions are about: values, some of which are truth values, and atoms that have them. -/
structure Conditions (m : Type → Type) (α : Type) where
  truthy : α → Bool
  ofBool : Bool → α
  truthy_ofBool : ∀ b, truthy (ofBool b) = b
  isNullish : α → Bool
  /-- Whether two values are `==`, or `===` if that is asked for. -/
  equal : (strict : Bool) → α → α → m Bool
  atom : Tree → m α

namespace Conditions

variable {m : Type → Type} [Monad m] {α : Type} (C : Conditions m α)

/-- The value of a condition. -/
def value : Tree → m α
  | .conditional c yes no => do
    let v ← value c
    if C.truthy v then value yes else value no
  | .logical op a b => do
    let v ← value a
    let goOn := match op with
      | .and => C.truthy v
      | .or => !C.truthy v
      | .coalesce => C.isNullish v
    if goOn then value b else pure v
  | .unary .not t => do
    let v ← value t
    pure (C.ofBool (!C.truthy v))
  | .binary op a b =>
    match NullCheck.kind? op with
    | some (strict, negated) => do
      let v ← value a
      let w ← value b
      let r ← C.equal strict v w
      pure (C.ofBool (r != negated))
    | none => C.atom (.binary op a b)
  | t => C.atom t

/-- Whether a condition holds. -/
def truth (t : Tree) : m Bool := do
  let v ← C.value t
  pure (C.truthy v)

/-- The leaf to which a decision leads, with its mark. -/
def reach : Decision → m (Tree × Option Stop)
  | .leaf value stop => pure (value, stop)
  | .test condition yes no => do
    let holds ← C.truth condition
    if holds then reach yes else reach no

/-- As far as conditionals, `&&` and `||` go, a condition is an expression like any other. -/
theorem meaning_value (t : Tree) : t.meaning C.truthy C.value = C.value t := by
  induction t using Tree.meaning.induct with
  | case1 c yes no ihc ihy ihn => rw [Tree.meaning, ihc, ihy, ihn, value]
  | case2 a b iha ihb => rw [Tree.meaning, iha, ihb, value]
  | case3 a b iha ihb =>
    rw [Tree.meaning, iha, ihb, value]
    refine bind_congr fun v => ?_
    cases C.truthy v <;> rfl
  | case4 t hc ha ho => rw [Tree.meaning.eq_4 _ _ t hc ha ho]

variable [LawfulMonad m]

/-! ## Truth -/

theorem bind_truth {β : Type} (t : Tree) (k : Bool → m β) : (C.value t >>= fun v => k (C.truthy v)) = C.truth t >>= k := by
  simp only [truth, bind_assoc, pure_bind]

theorem truth_not (t : Tree) : C.truth (.not t) = (do
    let p ← C.truth t
    pure (!p)) := by
  simp only [truth, Tree.not, value, bind_assoc, pure_bind, C.truthy_ofBool]

theorem truth_equality {op : BinaryOp} {strict negated : Bool} (h : NullCheck.kind? op = some (strict, negated)) (a b : Tree) :
    C.truth (.binary op a b) = (do
      let v ← C.value a
      let w ← C.value b
      let r ← C.equal strict v w
      pure (r != negated)) := by
  simp only [truth, value, h, bind_assoc, pure_bind, C.truthy_ofBool]

theorem truth_and (a b : Tree) : C.truth (.logical .and a b) = (do
    let p ← C.truth a
    if p then C.truth b else pure false) := by
  simp only [truth, value, bind_assoc, pure_bind]
  refine bind_congr fun v => ?_
  by_cases hv : C.truthy v = true
  · simp only [hv, if_true]
  · simp only [hv, Bool.false_eq_true, if_false, pure_bind]

theorem truth_or (a b : Tree) : C.truth (.logical .or a b) = (do
    let p ← C.truth a
    if p then pure true else C.truth b) := by
  simp only [truth, value, bind_assoc, pure_bind]
  refine bind_congr fun v => ?_
  by_cases hv : C.truthy v = true
  · simp only [hv, Bool.not_true, Bool.false_eq_true, if_true, if_false, pure_bind]
  · simp only [hv, Bool.not_false, Bool.false_eq_true, if_true, if_false]

/-! ## Negation -/

/-- The negation of a condition does what the condition does, and holds when that does not. -/
theorem truth_negated (t : Tree) : C.truth t.negated = (do
    let p ← C.truth t
    pure (!p)) := by
  refine Tree.negated_induct (motive := fun t u => C.truth u = (do
    let p ← C.truth t
    pure (!p))) ?turned ?put ?taken ?and ?or t
  case turned =>
    intro op op' a b h
    obtain ⟨strict, negated, hk, hk'⟩ := BinaryOp.kind?_opposite? h
    simp only [C.truth_equality hk, C.truth_equality hk', bind_assoc, pure_bind]
    refine bind_congr fun v => bind_congr fun w => bind_congr fun r => ?_
    cases r <;> cases negated <;> rfl
  case put => exact C.truth_not
  case taken =>
    intro t
    simp only [truth_not, bind_assoc, pure_bind, Bool.not_not, bind_pure]
  case and =>
    intro a b iha ihb
    rw [truth_or, truth_and, iha, ihb]
    simp only [bind_assoc, pure_bind]
    refine bind_congr fun p => ?_
    cases p <;> simp
  case or =>
    intro a b iha ihb
    rw [truth_and, truth_or, iha, ihb]
    simp only [bind_assoc, pure_bind]
    refine bind_congr fun p => ?_
    cases p <;> simp

/-- A negated decision leads to the leaf to which the decision leads. -/
theorem reach_negated (d : Decision) : C.reach d.negated = C.reach d := by
  induction d with
  | leaf value stop => rfl
  | test condition yes no ihy ihn =>
    rw [Decision.negated, reach, reach, ihy, ihn, truth_negated]
    simp only [bind_assoc, pure_bind]
    refine bind_congr fun p => ?_
    cases p <;> rfl

end Conditions

/-! ## Runs -/

/-- An interpretation of atoms whose values can be compared and are truth values among other things. -/
structure OperatorInterpretation (σ ε α : Type) extends Interpretation σ ε α where
  ofBool : Bool → α
  truthy_ofBool : ∀ b, truthy (ofBool b) = b
  isNullish : α → Bool
  /-- A comparison may change the state too, and it may fail. -/
  equal : (strict : Bool) → α → α → σ → Except ε Bool × σ

namespace OperatorInterpretation

variable {σ ε α : Type} (I : OperatorInterpretation σ ε α)

def conditions : Conditions (ExceptT ε (StateM (σ × List Tree))) α where
  truthy := I.truthy
  ofBool := I.ofBool
  truthy_ofBool := I.truthy_ofBool
  isNullish := I.isNullish
  equal strict v w := fun (s, evaluated) =>
    let (r, s') := I.equal strict v w s
    (r, s', evaluated)
  atom := I.atom

/-- Whether a condition holds, the state in the end, and the atomic expressions evaluated. -/
def holds (t : Tree) (s : σ) : Except ε Bool × σ × List Tree := I.conditions.truth t (s, [])

/-- The leaf to which a decision leads, the state there, and the atomic expressions evaluated on the way. -/
def leafOf (d : Decision) (s : σ) : Except ε (Tree × Option Stop) × σ × List Tree := I.conditions.reach d (s, [])

end OperatorInterpretation

/-- Negation keeps what is evaluated. A negated decision leads to the same leaf, with the same mark, in the same state, past the
same atomic expressions; and the negation of a condition holds when the condition does not, with the same state and the same
atomic expressions. -/
theorem Decision.negated_leafOf {σ ε α : Type} (I : OperatorInterpretation σ ε α) (s : σ) :
    (∀ d : Decision, I.leafOf d.negated s = I.leafOf d s) ∧
    ∀ c : Tree, I.holds c.negated s = ((I.holds c s).1.map (!·), (I.holds c s).2) := by
  refine ⟨fun d => ?_, fun c => ?_⟩
  · unfold OperatorInterpretation.leafOf
    rw [Conditions.reach_negated]
  · unfold OperatorInterpretation.holds
    rw [Conditions.truth_negated]
    show (ExceptT.bind (I.conditions.truth c) fun p => pure (!p)) (s, []) = _
    simp only [ExceptT.bind, ExceptT.mk, bind, StateT.bind]
    rcases I.conditions.truth c (s, []) with ⟨_ | p, s'⟩ <;> rfl

end Chainlift
