import Chainlift.Proofs.Machine
import Chainlift.Proofs.Negation

/-!
# Running guards

What a row of guards does: each evaluates its operand, and unless that is `null` or `undefined` evaluation goes on. With strict
leaves, an expression whose decision can be read does what its alternatives and then its guards do, and what they protect in
the end (`Machine.eval_eq_run`). The two halves of a strict pair make one guard, because the token has the value that the
operand had just before; that is so for `this`, for variables and for temporaries that are assigned.
-/

namespace Chainlift

namespace Machine

variable {W : Type} (M : Machine W)

/-- Go on, unless the value of the operand is missing. -/
def guard (operand : Tree) (rest : Eval W Value) : Eval W Value := do
  let v ← M.eval operand
  if v.isNullish then pure .undefined else rest

def runGuards : List NullCheck → Eval W Value → Eval W Value
  | [], rest => rest
  | c :: cs, rest => M.guard c.operand (runGuards cs rest)

/-- Go on past a row of conditions, unless one of them holds. -/
def runAlternatives : List Tree → Eval W Value → Eval W Value
  | [], rest => rest
  | t :: ts, rest => do
    let v ← M.eval t
    if M.truthy v then pure v else runAlternatives ts rest

theorem eval_alternatives (conditions : List Tree) (t : Tree) :
    M.eval (conditions.foldr (.logical .or) t) = M.runAlternatives conditions (M.eval t) := by
  induction conditions with
  | nil => rfl
  | cons c cs ih => rw [List.foldr_cons, eval_or, ih, runAlternatives]

/-! ## Evaluating choices and checks -/

/-- Evaluation as a reading of conditions. -/
def conditions : Conditions (Eval W) Value where
  truthy := M.truthy
  ofBool := .bool
  truthy_ofBool _ := rfl
  isNullish := Value.isNullish
  equal := M.compare
  atom := M.eval

theorem value_conditions : M.conditions.value = M.eval := by
  funext t
  induction t using Conditions.value.induct with
  | case1 c yes no hc hy hn => rw [Conditions.value, eval_conditional, hc, hy, hn]; rfl
  | case2 op a b ha hb =>
    rw [Conditions.value, ha, hb]
    cases op with
    | and => rw [eval_and]; rfl
    | or =>
      rw [eval_or]
      refine bind_congr fun v => ?_
      cases h : M.truthy v <;> simp [conditions, h]
    | coalesce => rw [eval_coalesce]; rfl
  | case3 t ih => rw [Conditions.value, ih]; exact (M.eval_not t).symm
  | case4 op a b strict negated h ha hb => simp only [Conditions.value, h, M.eval_comparison h, ha, hb]; rfl
  | case5 op a b h => simp only [Conditions.value, h]; rfl
  | case6 t hc hl hn hb => rw [Conditions.value.eq_5 _ t hc hl hn hb]; rfl

/-- Evaluating an expression is evaluating its atoms as its conditionals, `&&` and `||` say. -/
theorem meaning_eval (t : Tree) : t.meaning M.truthy M.eval = M.eval t := by
  rw [← value_conditions]
  exact M.conditions.meaning_value t

end Machine

/-- What a null check compares with. -/
def Missing.value : Missing → Value
  | .null => .null
  | .undefined => .undefined

/-- Whether a value is found missing by a comparison. -/
def NullCheck.finds (c : NullCheck) (v : Value) : Bool := if c.strict then v == c.compared.value else v.isNullish

/-- If it is not `null`, a comparison with `undefined` finds whether it is missing. -/
theorem NullCheck.finds_undefined {c : NullCheck} (h : c.compared = .undefined) {v : Value} (hv : v ≠ .null) :
    c.finds v = v.isNullish := by
  have hmissing : (v == .undefined) = v.isNullish := by
    cases v with
    | null => exact absurd rfl hv
    | _ => rfl
  rw [finds, h, Missing.value, hmissing, ite_self]

namespace Machine

variable {W : Type} (M : Machine W)

theorem compare_missing (strict : Bool) (v : Value) (m : Missing) :
    M.compare strict v m.value = pure (if strict then v == m.value else v.isNullish) := by
  cases m <;> simp [compare, Missing.value, Value.isNullish]

theorem missing_compare (strict : Bool) (v : Value) (m : Missing) :
    M.compare strict m.value v = pure (if strict then v == m.value else v.isNullish) := by
  cases m <;> simp [compare, Missing.value, Value.isNullish, BEq.comm (b := v)]

/-- The literal side of a null check. -/
theorem eval_isNullish {t : Tree} (h : t.isNullish = true) :
    M.eval t = pure (Missing.value (if t.isNull then .null else .undefined)) := by
  by_cases hn : t.isNull = true
  · rw [if_pos hn]
    exact M.eval_isNull hn
  · rw [if_neg hn]
    apply M.eval_isUndefined
    simpa [Tree.isNullish, hn] using h

/-- A null check evaluates its operand and looks whether it is missing. -/
theorem eval_check {t : Tree} {c : NullCheck} (h : NullCheck.of? t = some c) : M.eval t = (do
    let v ← M.eval c.operand
    pure (.bool (c.finds v != c.negated))) := by
  obtain ⟨op, literal, hk, hl, hc, rfl | rfl, -⟩ := NullCheck.sides_of_check h
  · simp only [M.eval_comparison hk, M.eval_isNullish hl, ← hc, pure_bind, compare_missing, NullCheck.finds]
  · simp only [M.eval_comparison hk, M.eval_isNullish hl, ← hc, pure_bind, missing_compare, NullCheck.finds]

/-! ## Negated decisions -/

theorem truthy_bool (b : Bool) : M.truthy (.bool b) = b := rfl

/-- What depends on whether a condition holds. -/
theorem bind_truthy {β : Type} (t : Tree) (k : Bool → Eval W β) :
    (M.eval t >>= fun v => k (M.truthy v)) = M.conditions.truth t >>= k := by
  rw [← value_conditions]
  exact M.conditions.bind_truth t k

/-- What a disjunction decides depends on whether its operands hold alone. -/
theorem eval_or_truthy {β : Type} (a b : Tree) (k : Bool → Eval W β) :
    (M.eval (.logical .or a b) >>= fun v => k (M.truthy v)) =
      (M.eval a >>= fun v => if M.truthy v then k true else M.eval b >>= fun w => k (M.truthy w)) := by
  rw [bind_truthy, bind_truthy, M.bind_truthy a fun p => if p then k true else M.conditions.truth b >>= k, Conditions.truth_or,
    bind_assoc]
  refine bind_congr fun p => ?_
  cases p <;> simp

theorem eval_and_truthy {β : Type} (a b : Tree) (k : Bool → Eval W β) :
    (M.eval (.logical .and a b) >>= fun v => k (M.truthy v)) =
      (M.eval a >>= fun v => if M.truthy v then M.eval b >>= fun w => k (M.truthy w) else k false) := by
  rw [bind_truthy, bind_truthy, M.bind_truthy a fun p => if p then M.conditions.truth b >>= k else k false, Conditions.truth_and,
    bind_assoc]
  refine bind_congr fun p => ?_
  cases p <;> simp

/-- The negation of a condition holds when the condition does not. -/
theorem eval_negated {β : Type} (t : Tree) (k : Bool → Eval W β) :
    (M.eval t.negated >>= fun v => k (M.truthy v)) = (M.eval t >>= fun v => k (!M.truthy v)) := by
  rw [bind_truthy, M.bind_truthy t fun p => k (!p), Conditions.truth_negated, bind_assoc]
  simp only [pure_bind]

end Machine

namespace Decision

theorem isUnmarked_negated (d : Decision) : d.negated.isUnmarked = d.isUnmarked := by
  induction d with
  | leaf => rfl
  | test condition yes no ihy ihn => rw [negated, isUnmarked, isUnmarked, ihy, ihn, Bool.and_comm]

/-- Without marks the value tested before does not matter. -/
theorem meaning_isUnmarked {m : Type → Type} [Monad m] {α : Type} (truthy : α → Bool) (atom : Tree → m α) {d : Decision}
    (h : d.isUnmarked = true) (v w : Option α) : d.meaning truthy atom v = d.meaning truthy atom w := by
  cases d with
  | leaf value stop =>
    obtain rfl : stop = none := Option.isNone_iff_eq_none.1 h
    cases v <;> cases w <;> rfl
  | test condition yes no => rw [meaning_test, meaning_test]

/-- Negating the conditions and exchanging the branches of a decision changes nothing, as long as no leaf refers to a
condition. -/
theorem meaning_negated {W : Type} (M : Machine W) {d : Decision} (h : d.isUnmarked = true) (v w : Option Value) :
    d.negated.meaning M.truthy M.eval v = d.meaning M.truthy M.eval w := by
  induction d generalizing v w with
  | leaf value stop => exact meaning_isUnmarked _ _ h v w
  | test condition yes no ihy ihn =>
    simp only [isUnmarked, Bool.and_eq_true] at h
    let k (holds : Bool) : Eval W Value :=
      if holds then no.meaning M.truthy M.eval none else yes.meaning M.truthy M.eval none
    rw [negated, meaning_test, meaning_test, M.meaning_eval, M.meaning_eval]
    calc _ = M.eval condition.negated >>= fun u => k (M.truthy u) := by
          refine bind_congr fun u => ?_
          rw [ihy h.1 (some u) none, ihn h.2 (some u) none]
      _ = M.eval condition >>= fun u => k (!M.truthy u) := M.eval_negated condition k
      _ = _ := by
          refine bind_congr fun u => ?_
          rw [meaning_isUnmarked _ _ h.1 (some u) none, meaning_isUnmarked _ _ h.2 (some u) none]
          cases M.truthy u <;> rfl

/-- The second half of each strict pair checks just the token. -/
def IsPaired : Decision → (awaited : Option Tree) → Prop
  | .leaf .., _ => True
  | .test condition _ no, some token =>
    (∀ c, NullCheck.of? condition = some c → c.token.same token = true → c.operand = token) ∧ no.IsPaired none
  | .test condition _ no, none =>
    match (NullCheck.of? condition).filter NullCheck.begins with
    | some c => no.IsPaired (if c.strict then some c.token else none)
    | none => no.IsPaired none

end Decision

namespace Machine

variable {W : Type} (M : Machine W)

/-- After the operand has been evaluated, the token has its value. -/
def Settles (c : NullCheck) : Prop :=
  ∀ s v s', M.eval c.operand s = (.ok v, s') → M.eval c.token s' = (.ok v, s')

theorem settles_reference {c : NullCheck} {name : String} (h : c.operand = .reference name) (hn : name ≠ "undefined") :
    M.Settles c := by
  intro s v s' hs
  have ht : c.token = c.operand := by simp only [NullCheck.token, h, Tree.assignment?]
  rw [h, eval_reference M hn] at hs
  rw [ht, h, eval_reference M hn]
  unfold readVariable at hs ⊢
  split at hs
  · rename_i w hw
    obtain rfl := (Prod.mk.inj hs).2
    rw [hw]
    exact hs
  · exact absurd (Prod.mk.inj hs).1 (by simp)

theorem settles_assign {c : NullCheck} {name : String} {t : Tree} (h : c.operand = .assign .plain (.reference name) t)
    (hn : name ≠ "undefined") : M.Settles c := by
  intro s v s' hs
  have ht : c.token = .reference name := by simp only [NullCheck.token, h, Tree.assignment?]
  rw [h, eval_assign] at hs
  rw [ht, eval_reference M hn]
  rcases hr : M.eval t s with ⟨_ | w, s₁⟩
  · rw [Eval.bind_error hr] at hs
    exact absurd (Prod.mk.inj hs).1 (by simp)
  · rw [Eval.bind_ok hr] at hs
    obtain ⟨hv, hs⟩ := Prod.mk.inj hs
    have hv := Except.ok.inj hv
    rw [← hs, ← hv]
    simp [readVariable]

/-- After the operand it makes no difference whether the token is evaluated or its value known. -/
theorem bind_settled {β : Type} {c : NullCheck} (h : M.Settles c) {f g : Value → Eval W β}
    (hfg : ∀ v s, M.eval c.token s = (.ok v, s) → f v s = g v s) : (M.eval c.operand >>= f) = (M.eval c.operand >>= g) := by
  funext s
  rcases hr : M.eval c.operand s with ⟨_ | v, s'⟩
  · rw [Eval.bind_error hr, Eval.bind_error hr]
  · rw [Eval.bind_ok hr, Eval.bind_ok hr]
    exact hfg v s' (h s v s' hr)

theorem eval_settled {c : NullCheck} (h : M.Settles c) (p : Value → Bool) (a : Eval W Value)
    (k : Value → Value → Eval W Value) :
    (do
      let v ← M.eval c.operand
      if p v then a
      else
        let w ← M.eval c.token
        k v w) = (do
      let v ← M.eval c.operand
      if p v then a else k v v) := by
  refine M.bind_settled h fun v s hv => ?_
  split
  · rfl
  · rw [Eval.bind_ok hv]

theorem meaning_leaf {stop : Option Stop} (h : stop = none) (value : Tree) (v : Option Value) :
    (Decision.leaf value stop).meaning M.truthy M.eval v = M.eval value := by
  subst h
  rw [← M.meaning_eval value]
  cases v <;> rfl

/-- What the branch taken at a missing value yields with strict leaves. -/
theorem meaning_accepts {a : Acceptance} (hl : a.loose = false) (hy : a.yields = .undefined) {d : Decision}
    (h : a.accepts d = true) (v : Option Value) : d.meaning M.truthy M.eval v = pure .undefined := by
  cases d with
  | test => exact absurd h (by simp [Acceptance.accepts])
  | leaf value stop =>
    cases stop with
    | some stop => cases stop <;> simp [Acceptance.accepts, hl, hy] at h
    | none =>
      have hu : value.isUndefined = true := by simpa [Acceptance.accepts, hl, hy] using h
      rw [M.meaning_leaf rfl, M.eval_isUndefined hu]

theorem meaning_isStopAt {condition : Tree} {d : Decision} (h : d.isStopAt condition = true) (v : Value) :
    d.meaning M.truthy M.eval (some v) = pure v := by
  unfold Decision.isStopAt at h
  split at h
  · rfl
  · exact absurd h (by simp)

/-- The second half of a strict pair, for a value that is not `null`. -/
def completion (awaited : Option Tree) (f : Value → Bool) (rest : Eval W Value) : Eval W Value :=
  match awaited with
  | none => rest
  | some token => do
    let w ← M.eval token
    if f w then pure .undefined else rest

/-- A test that begins a guard, and what completes it, do what the guard does. A loose check needs no completion. -/
theorem meaning_guard {a : Acceptance} (hl : a.loose = false) (hy : a.yields = .undefined) {condition : Tree}
    {c : NullCheck} (hc : NullCheck.of? condition = some c) (hb : c.begins = true) {yes no : Decision}
    (hyes : a.accepts yes = true) (hs : M.Settles c) {f : Value → Bool} (hf : ∀ v, v ≠ .null → f v = v.isNullish)
    {rest : Eval W Value}
    (hno : ∀ v, no.meaning M.truthy M.eval v = M.completion (if c.strict = true then some c.token else none) f rest)
    (v : Option Value) : (Decision.test condition yes no).meaning M.truthy M.eval v = M.guard c.operand rest := by
  simp only [NullCheck.begins, Bool.and_eq_true, Bool.not_eq_true', Bool.or_eq_true, beq_iff_eq] at hb
  rw [Decision.meaning_test, M.meaning_eval, M.eval_check hc]
  simp only [bind_assoc, pure_bind, truthy_bool, hb.1, Bool.bne_false, M.meaning_accepts hl hy hyes, hno, guard]
  cases hstrict : c.strict with
  | false =>
    refine bind_congr fun v => ?_
    simp only [NullCheck.finds, hstrict, Bool.false_eq_true, if_false, completion]
  | true =>
    have hnull : c.compared = .null := by simpa [hstrict] using hb.2
    have hfinds : ∀ v, c.finds v = (v == .null) := fun v => by
      simp only [NullCheck.finds, hstrict, if_true, hnull, Missing.value]
    simp only [hfinds, if_true, completion]
    rw [M.eval_settled hs (· == .null) _ fun v w => if f w then pure .undefined else rest]
    refine bind_congr fun v => ?_
    by_cases hv : v = .null
    · simp [hv, Value.isNullish]
    · simp [hv, hf v hv]

/-- With strict leaves, a decision that can be read does what its alternatives and guards do. In the middle of a strict pair
there is its second half to be run, which finds `undefined`, and may or may not find `null`. -/
theorem meaning_of_construct {a : Acceptance} (hl : a.loose = false) (hy : a.yields = .undefined) {d : Decision}
    {awaited : Option Tree} {c : Constructed} (h : d.construct a awaited = some c) (hlast : d.lastLeaf.2 = none)
    (hp : d.IsPaired awaited) (hs : ∀ g ∈ d.guardsFrom awaited.isSome, M.Settles g) :
    ∃ f : Value → Bool, (∀ v, v ≠ .null → f v = v.isNullish) ∧ ∀ v, d.meaning M.truthy M.eval v =
      M.completion awaited f (M.runAlternatives (d.alternativesFrom awaited.isSome)
        (M.runGuards (d.guardsFrom awaited.isSome) (M.eval d.guarded))) := by
  fun_induction Decision.construct a d awaited generalizing c with
  | case1 value stop =>
    exact ⟨Value.isNullish, fun _ _ => rfl, fun v => M.meaning_leaf hlast value v⟩
  | case2 => exact absurd h (by simp)
  | case3 condition yes no token ih =>
    obtain ⟨k, hk, h⟩ := Option.bind_eq_some_iff.1 h
    split at h
    · rename_i hc
      rw [Bool.and_eq_true] at hc
      obtain ⟨_, _, hrun⟩ := ih h hlast hp.2 hs
      have hcomp := hc.1
      simp only [NullCheck.completes, Bool.and_eq_true, Bool.not_eq_true', beq_iff_eq] at hcomp
      refine ⟨k.finds, fun v hv => NullCheck.finds_undefined hcomp.1.2 hv, fun v => ?_⟩
      rw [Decision.meaning_test, M.meaning_eval, M.eval_check hk, hp.1 k hk hcomp.2]
      simp only [completion, bind_assoc, pure_bind, truthy_bool, hcomp.1.1, Bool.bne_false]
      refine bind_congr fun w => ?_
      rw [M.meaning_accepts hl hy hc.2, hrun]
      rfl
    · exact absurd h (by simp)
  | case4 condition yes no k hk hyes ih =>
    obtain ⟨rest, hrest, h⟩ := Option.bind_eq_some_iff.1 h
    obtain ⟨x, _, hx⟩ := Decision.construct_eq hrest
    rw [Decision.isSome_awaited] at hx
    have hnil := Decision.alternativesFrom_of_addGuard (hx ▸ h)
    obtain ⟨hof, hb⟩ := Option.filter_eq_some_iff.1 hk
    simp only [Decision.IsPaired, hk] at hp
    simp only [Decision.guardsFrom, Option.isSome_none, hk, List.mem_cons, forall_eq_or_imp] at hs
    obtain ⟨f, hf, hrun⟩ := ih hrest hlast hp (by rw [Decision.isSome_awaited]; exact hs.2)
    rw [Decision.isSome_awaited, hnil] at hrun
    refine ⟨Value.isNullish, fun _ _ => rfl, fun v => ?_⟩
    simp only [Decision.guardsFrom, Decision.alternativesFrom, Option.isSome_none, hk, completion, runAlternatives, runGuards]
    exact M.meaning_guard hl hy hof hb hyes hs.1 hf hrun v
  | case5 => exact absurd h (by simp)
  | case6 condition yes no hk hyes ih =>
    obtain ⟨rest, hrest, h⟩ := Option.bind_eq_some_iff.1 h
    simp only [Decision.IsPaired, hk] at hp
    simp only [Decision.guardsFrom, Option.isSome_none, hk] at hs
    obtain ⟨_, _, hrun⟩ := ih hrest hlast hp hs
    refine ⟨Value.isNullish, fun _ _ => rfl, fun v => ?_⟩
    simp only [Decision.guardsFrom, Decision.alternativesFrom, Option.isSome_none, hk, completion, runAlternatives]
    rw [Decision.meaning_test, M.meaning_eval]
    refine bind_congr fun w => ?_
    rw [M.meaning_isStopAt hyes, hrun]
    rfl
  | case7 => exact absurd h (by simp)

/-- A choice of which a chain is made with strict leaves does what its alternatives and guards do. -/
theorem eval_eq_run {t : Tree} {o : Options} {c x : Constructed} (hl : o.looseLeaves = false)
    (hy : (Acceptance.ofDecision t.decision o).yields = .undefined) (hc : t.decision.build o = some c)
    (hx : Constructed.ofGuards t.decision.guards t.decision.guarded = some x) (hg : t.decision.guards ≠ [])
    (hp : t.decision.IsPaired none) (hs : ∀ g ∈ t.decision.guards, M.Settles g) :
    M.eval t = M.runAlternatives t.decision.alternatives (M.runGuards t.decision.guards (M.eval t.decision.guarded)) := by
  have hlast := Decision.lastLeaf_decision hc hg hx
  obtain ⟨_, _, hrun⟩ := M.meaning_of_construct hl hy hc hlast hp hs
  by_cases hneg : (Decision.ofValue t).root.isNotNullCheck = true
  · have hd : t.decision = (Decision.ofValue t).negated := by simp only [Tree.decision, Decision.oriented, hneg, if_true]
    have hfits : t.decision.Fits .turned fun _ _ => False := by
      rw [hd]
      exact Decision.fits_negated (Decision.fits_ofValue t _) fun _ _ h => h
    have hun := Decision.isUnmarked_of_construct hl hy hc hfits hlast
    rw [hd, Decision.isUnmarked_negated] at hun
    calc M.eval t = (Decision.ofValue t).meaning M.truthy M.eval none := by
          rw [Decision.meaning_ofValue, M.meaning_eval]
      _ = t.decision.meaning M.truthy M.eval none := by rw [hd, Decision.meaning_negated M hun]
      _ = _ := hrun none
  · have hd : t.decision = Decision.ofValue t := by
      simp only [Tree.decision, Decision.oriented, hneg, Bool.false_eq_true, if_false]
    calc M.eval t = t.decision.meaning M.truthy M.eval none := by
          rw [hd, Decision.meaning_ofValue, M.meaning_eval]
      _ = _ := hrun none

end Machine

end Chainlift
