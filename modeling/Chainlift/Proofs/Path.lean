import Chainlift.Guard.Construct

/-!
# The guards of a decision

Along its failing conditions a decision has, after some alternatives, a row of guards and then the value that they protect.
`Decision.construct` reads them and puts the result together at once; here the reading (`Decision.guards`,
`Decision.alternatives`) and the putting together (`Constructed.ofGuards`) are two functions. `Tree.reconstruct_eq` says that
what is reconstructed is what they give.
-/

namespace Chainlift

namespace Decision

/-- The checks that begin a guard, read along the failing conditions. Of a strict pair it is the first half; the second half
is due when the pair is `halved`. -/
def guardsFrom : Decision → (halved : Bool) → List NullCheck
  | .leaf .., _ => []
  | .test _ _ no, true => no.guardsFrom false
  | .test condition _ no, false =>
    match (NullCheck.of? condition).filter NullCheck.begins with
    | some c => c :: no.guardsFrom c.strict
    | none => no.guardsFrom false

/-- The conditions before the first guard. -/
def alternativesFrom : Decision → (halved : Bool) → List Tree
  | .leaf .., _ => []
  | .test _ _ no, true => no.alternativesFrom false
  | .test condition _ no, false =>
    match (NullCheck.of? condition).filter NullCheck.begins with
    | some _ => []
    | none => condition :: no.alternativesFrom false

def guards (d : Decision) : List NullCheck := d.guardsFrom false

def alternatives (d : Decision) : List Tree := d.alternativesFrom false

/-- What is evaluated when every condition fails. -/
def guarded (d : Decision) : Tree := d.lastLeaf.1

end Decision

/-- The decision that a reconstruction reads. -/
def Tree.decision (t : Tree) : Decision := (Decision.ofValue t).oriented

/-- The expression with the link of a guard in it. The assignment of a temporary stays if the value is still read. -/
def NullCheck.relink (c : NullCheck) (t : Tree) : Tree :=
  let linked := t.rewrite c.token (some c.target)
  let stillRead := c.temporary?.any fun name => 0 < linked.expr.uses name
  (if stillRead then t.rewrite c.token (some c.operand) else linked).expr

/-- A null check is a comparison for equality with a literal on one of its sides. -/
theorem NullCheck.sides_of_check {t : Tree} {c : NullCheck} (h : of? t = some c) : ∃ op literal,
    kind? op = some (c.strict, c.negated) ∧ literal.isNullish = true ∧
      c.compared = (if literal.isNull then .null else .undefined) ∧
      (t = .binary op c.operand literal ∨ t = .binary op literal c.operand) ∧ isCheckable c.operand = true := by
  unfold of? at h
  split at h
  · rename_i op a b
    simp only [Option.bind_eq_bind, Option.bind_eq_some_iff] at h
    obtain ⟨⟨strict, negated⟩, hk, ⟨operand, literal⟩, hs, h⟩ := h
    split at h
    · rename_i hcheck
      obtain rfl := Option.some.inj h
      unfold sides? at hs
      split at hs
      · rename_i hb
        obtain ⟨rfl, rfl⟩ := Prod.mk.inj (Option.some.inj hs)
        exact ⟨op, b, hk, hb, rfl, .inl rfl, hcheck⟩
      · split at hs
        · rename_i ha
          obtain ⟨rfl, rfl⟩ := Prod.mk.inj (Option.some.inj hs)
          exact ⟨op, a, hk, ha, rfl, .inr rfl, hcheck⟩
        · exact absurd hs (by simp)
    · exact absurd h (by simp)
  · exact absurd h (by simp)

/-- What is checked is one of the sides of a comparison. -/
theorem NullCheck.operand_mem {t : Tree} {c : NullCheck} (h : of? t = some c) :
    ∃ op a b, t = .binary op a b ∧ (c.operand = a ∨ c.operand = b) ∧ isCheckable c.operand = true := by
  obtain ⟨op, literal, -, -, -, rfl | rfl, hcheck⟩ := sides_of_check h
  · exact ⟨op, _, literal, rfl, .inl rfl, hcheck⟩
  · exact ⟨op, literal, _, rfl, .inr rfl, hcheck⟩

namespace Constructed

/-- Make a link for each guard, the last one first. -/
def ofGuards : List NullCheck → Tree → Option Constructed
  | [], value => some (ofLeaf value)
  | c :: cs, value => (ofGuards cs value).bind (addGuard c)

/-- Put alternatives in front, the first one outermost. -/
def withAlternatives (conditions : List Tree) (x : Constructed) : Constructed :=
  { x with expr := conditions.foldr (.logical .or) x.expr }

theorem withAlternatives_cons (t : Tree) (ts : List Tree) (x : Constructed) :
    x.withAlternatives (t :: ts) = addAlternative t (x.withAlternatives ts) := rfl

/-- No link can be put into an expression with alternatives. -/
theorem addGuard_withAlternatives_cons (c : NullCheck) (t : Tree) (ts : List Tree) (x : Constructed) :
    addGuard c (x.withAlternatives (t :: ts)) = none := by
  have h : ((x.withAlternatives (t :: ts)).expr.rewrite c.token (some c.target)).matched = false := rfl
  unfold addGuard
  simp only [h, Bool.false_eq_true, if_false]

/-- A guard adds its link if the token is found, and folds what has no use any more. -/
theorem addGuard_eq_some {c : NullCheck} {rest x : Constructed} : addGuard c rest = some x ↔
    (rest.expr.rewrite c.token (some c.target)).matched = true ∧
      x = ⟨(c.relink rest.expr).foldAssigned.1, true,
        rest.consumed ++ c.temporary?.toList ++ (c.relink rest.expr).foldAssigned.2⟩ := by
  simp only [addGuard, NullCheck.relink]
  by_cases hm : (rest.expr.rewrite c.token (some c.target)).matched = true
  · simp only [hm, if_true, Option.some.injEq, true_and, eq_comm]
  · simp only [hm, Bool.false_eq_true, if_false, reduceCtorEq, false_and]

end Constructed

open Constructed

namespace Decision

theorem isSome_awaited (c : NullCheck) : (if c.strict = true then some c.token else none).isSome = c.strict := by
  cases c.strict <;> rfl

/-- A check that begins a guard. -/
theorem construct_begins {a : Acceptance} {yes no : Decision} (ha : a.accepts yes = true) {condition : Tree} {c : NullCheck}
    (h : NullCheck.of? condition = some c) (hc : c.begins = true) : (Decision.test condition yes no).construct a none =
      (no.construct a (if c.strict then some c.token else none)).bind (Constructed.addGuard c) := by
  rw [construct, h, Option.filter_some, if_pos hc]
  simp only [ha, if_true]
  rfl

/-- The second half of a strict pair. -/
theorem construct_completes {a : Acceptance} {yes no : Decision} (ha : a.accepts yes = true) {condition : Tree} {c : NullCheck}
    (h : NullCheck.of? condition = some c) {token : Tree} (hc : c.completes token = true) :
    (Decision.test condition yes no).construct a (some token) = no.construct a none := by
  rw [construct, h]
  simp only [Option.bind_eq_bind, Option.bind_some, hc, ha, Bool.and_self, if_true]

/-- Nothing that follows a guard is an alternative, since that guard would not become a link. -/
theorem alternativesFrom_of_addGuard {d : Decision} {halved : Bool} {k : NullCheck} {c x : Constructed}
    (h : addGuard k (x.withAlternatives (d.alternativesFrom halved)) = some c) : d.alternativesFrom halved = [] := by
  cases ha : d.alternativesFrom halved with
  | nil => rfl
  | cons t ts =>
    rw [ha, addGuard_withAlternatives_cons] at h
    exact absurd h (by simp)

/-- What is constructed from a decision is what its guards make of the guarded value, behind the
alternatives. -/
theorem construct_eq {a : Acceptance} {d : Decision} {awaited : Option Tree} {c : Constructed}
    (h : d.construct a awaited = some c) :
    ∃ x, ofGuards (d.guardsFrom awaited.isSome) d.guarded = some x ∧ c = x.withAlternatives (d.alternativesFrom awaited.isSome) := by
  fun_induction construct a d awaited generalizing c with
  | case1 value stop => exact ⟨_, rfl, (Option.some.inj h).symm⟩
  | case2 => exact absurd h (by simp)
  | case3 condition yes no token ih =>
    obtain ⟨k, hk, h⟩ := Option.bind_eq_some_iff.1 h
    split at h
    · exact ih h
    · exact absurd h (by simp)
  | case4 condition yes no k hk hyes ih =>
    obtain ⟨rest, hrest, h⟩ := Option.bind_eq_some_iff.1 h
    obtain ⟨x, hx, hc⟩ := ih hrest
    rw [isSome_awaited] at hx hc
    have hnone := alternativesFrom_of_addGuard (hc ▸ h)
    have hrest : rest = x := by rw [hc, hnone]; rfl
    refine ⟨c, ?_, ?_⟩
    · simp only [guardsFrom, Option.isSome_none, hk, ofGuards]
      show (ofGuards (no.guardsFrom k.strict) no.guarded).bind (addGuard k) = some c
      rw [hx, ← hrest]
      exact h
    · simp only [alternativesFrom, Option.isSome_none, hk]
      rfl
  | case5 => exact absurd h (by simp)
  | case6 condition yes no hk hyes ih =>
    obtain ⟨rest, hrest, h⟩ := Option.bind_eq_some_iff.1 h
    obtain ⟨x, hx, hc⟩ := ih hrest
    refine ⟨x, ?_, ?_⟩
    · simp only [guardsFrom, Option.isSome_none, hk]
      exact hx
    · rw [← Option.some.inj h, hc]
      simp only [alternativesFrom, Option.isSome_none, hk, withAlternatives_cons]
  | case7 => exact absurd h (by simp)

end Decision

/-- What is reconstructed from an expression is what the guards of its decision make of the guarded value, behind the
alternatives; there is at least one guard. -/
theorem Tree.reconstruct_eq {t : Tree} {o : Options} {r : Replacement} (h : t.reconstruct o = some r) :
    t.isBranching = true ∧ ∃ c x, t.decision.build o = some c ∧ c = x.withAlternatives t.decision.alternatives ∧
      ofGuards t.decision.guards t.decision.guarded = some x ∧ x.matched = true ∧
      r = ⟨(x.withAlternatives t.decision.alternatives).expr, x.consumed⟩ := by
  unfold reconstruct Decision.of? at h
  by_cases hb : t.isBranching = true
  · simp only [hb, if_true, Option.bind_eq_bind, Option.bind_some] at h
    obtain ⟨c, hc, h⟩ := Option.bind_eq_some_iff.1 h
    obtain ⟨x, hx, hcx⟩ := Decision.construct_eq hc
    split at h
    · rename_i hm
      rw [Bool.and_eq_true] at hm
      refine ⟨hb, c, x, hc, hcx, hx, ?_, ?_⟩
      · rw [← hm.1, hcx]
        rfl
      · rw [← Option.some.inj h, hcx]
        rfl
    · exact absurd h (by simp)
  · simp [hb] at h

end Chainlift
