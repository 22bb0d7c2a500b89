import Chainlift.Guard.Decision
import Mathlib.Control.Lawful

/-!
# What a choice evaluates

A conditional, `&&` or `||` evaluates some of its atomic parts, one after the other, and yields the value of the last one. What
an atomic part does is left open: it is a computation in any monad, so it may change a state, fail, or leave a trace.

A decision tree evaluates the condition at each inner node once, goes on with the branch that the value chooses, and at a leaf
evaluates what is written there; a leaf with a mark yields the value that the condition above it has just had. The main
statement, `Decision.of?_evaluate`, says that the decision tree of an expression evaluates the same atoms in the same order as
the expression, with the same value and the same state in the end.
-/

namespace Chainlift

section

variable {m : Type → Type} [Monad m] {α : Type} (truthy : α → Bool) (atom : Tree → m α)

/-- The value of an expression, whose parts other than conditionals, `&&` and `||` are evaluated by `atom`. -/
def Tree.meaning : Tree → m α
  | .conditional c yes no => do
    let v ← c.meaning
    if truthy v then yes.meaning else no.meaning
  | .logical .and p q => do
    let v ← p.meaning
    if truthy v then q.meaning else pure v
  | .logical .or p q => do
    let v ← p.meaning
    if truthy v then pure v else q.meaning
  | t => atom t

/-- The value of a decision below a condition that was just found to have the value `tested`; there is none at the root. -/
def Decision.meaning : Decision → (tested : Option α) → m α
  | .leaf _ (some _), some v => pure v
  | .leaf value _, _ => value.meaning truthy atom
  | .test condition yes no, _ => do
    let v ← condition.meaning truthy atom
    if truthy v then yes.meaning (some v) else no.meaning (some v)

namespace Decision

/-- What stands for a missing branch yields the value just tested. -/
def meaningOr (branch : Option Decision) (v : α) : m α :=
  match branch with
  | some d => d.meaning truthy atom (some v)
  | none => pure v

theorem meaning_getD (branch : Option Decision) (c : Tree) (stop : Stop) (v : α) :
    (branch.getD (.leaf c (some stop))).meaning truthy atom (some v) = meaningOr truthy atom branch v := by
  cases branch with
  | none => rfl
  | some d => rfl

theorem meaning_test (c : Tree) (yes no : Decision) (v : Option α) :
    (test c yes no).meaning truthy atom v = (do
      let w ← c.meaning truthy atom
      if truthy w then yes.meaning truthy atom (some w) else no.meaning truthy atom (some w)) := by
  cases v <;> rfl

variable [LawfulMonad m]

/-- A choice evaluates its condition once and goes on with one of the branches, whatever the condition is made of. The
induction is on the condition; it is the branches, present or missing, that have to be general, because `&&` and `||` nest
one choice in the branch of another. -/
theorem meaning_choose (condition : Tree) (yes no : Option Decision) (v : Option α) :
    (choose condition yes no).meaning truthy atom v = (do
      let w ← condition.meaning truthy atom
      if truthy w then meaningOr truthy atom yes w else meaningOr truthy atom no w) := by
  fun_induction choose condition yes no generalizing v with
  | case1 yes no p q ihq ihp =>
    rw [ihp, Tree.meaning]
    simp only [bind_assoc]
    refine bind_congr fun w => ?_
    by_cases hw : truthy w
    · simp only [hw, if_true, meaningOr, ihq]
    · simp only [hw, Bool.false_eq_true, if_false, pure_bind]
  | case2 yes no p q ihq ihp =>
    rw [ihp, Tree.meaning]
    simp only [bind_assoc]
    refine bind_congr fun w => ?_
    by_cases hw : truthy w
    · simp only [hw, if_true, pure_bind]
    · simp only [hw, Bool.false_eq_true, if_false, meaningOr, ihq]
  | case3 c yes no =>
    rw [meaning_test]
    simp only [meaning_getD]

/-- The decision for the value of an expression yields that value. A decision made for a value has no marked leaf at its
root, so the value tested before does not matter. -/
theorem meaning_ofValue (t : Tree) (v : Option α) :
    (ofValue t).meaning truthy atom v = t.meaning truthy atom := by
  fun_induction ofValue t generalizing v with
  | case1 c yes no ihy ihn =>
    rw [meaning_choose, Tree.meaning]
    simp only [meaningOr, ihy, ihn]
  | case2 p q ih =>
    rw [meaning_choose, Tree.meaning]
    simp only [meaningOr, ih]
  | case3 p q ih =>
    rw [meaning_choose, Tree.meaning]
    simp only [meaningOr, ih]
  | case4 t h1 h2 h3 => cases v <;> rfl

end Decision

end

/-! ## Runs -/

/-- What atomic expressions do: each changes a state and either has a value or fails. -/
structure Interpretation (σ ε α : Type) where
  run : Tree → σ → Except ε α × σ
  truthy : α → Bool

namespace Interpretation

variable {σ ε α : Type} (I : Interpretation σ ε α)

/-- Run an atomic expression and add it to the list of those evaluated. -/
def atom (t : Tree) : ExceptT ε (StateM (σ × List Tree)) α :=
  fun (s, evaluated) =>
    let (value, s') := I.run t s
    (value, s', evaluated ++ [t])

/-- The value of an expression or its failure, the state in the end, and the atomic expressions evaluated. -/
def evaluate (t : Tree) (s : σ) : Except ε α × σ × List Tree := t.meaning I.truthy I.atom (s, [])

/-- The same for a decision. -/
def evaluateDecision (d : Decision) (s : σ) : Except ε α × σ × List Tree := d.meaning I.truthy I.atom none (s, [])

end Interpretation

/-- The decision tree of a conditional, `&&` or `||` does what the expression does: it has the same value, leaves the same
state, and evaluates the same atomic expressions in the same order. Other expressions have no decision tree. -/
theorem Decision.of?_evaluate {σ ε α : Type} (I : Interpretation σ ε α) (t : Tree) (s : σ) :
    (Decision.of? t).map (fun d => I.evaluateDecision d s) = if t.isBranching then some (I.evaluate t s) else none := by
  unfold of?
  by_cases h : t.isBranching
  · simp only [h, if_true, Option.map_some, Interpretation.evaluateDecision, Interpretation.evaluate]
    rw [meaning_ofValue]
  · simp only [h, Bool.false_eq_true, if_false, Option.map_none]

end Chainlift
