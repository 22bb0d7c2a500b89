import Chainlift.Proofs.Guards
import Chainlift.Proofs.Tidy

/-!
# Merged reads keep the effects

A guard checks an access that is written out again in what it guards, and a chain keeps one copy of it. If all these accesses are
harmless, then in a state in which every guard passes, the chain has the outcome of the expression it stands for and the same
effects in the same order, apart from assignments to the variables that are consumed (`Tree.reconstruct_effects`).

The accesses must be harmless: nothing is asked of the object and the keys of an access before its copies are merged, and a call
in it is then made once instead of twice (`Tree.reconstruct_effects_false`).
-/

namespace Chainlift

open Tree

namespace Host

variable {W : Type} (H : Host W)

/-! ## Values of choices and checks -/

/-- The value of an expression that is no place and no open chain. -/
theorem eval_of_settle {t : Tree} {x : Run W Value} (h : H.refer t = settle x) : H.eval t = x := by
  simp only [eval, valueOf, reach, piece, h, settle, bind_assoc, pure_bind, fetch, get, Option.getD_some, bind_pure]

theorem eval_conditional (c yes no : Tree) : H.eval (.conditional c yes no) = (do
    let v ← H.eval c
    if H.truthy v then H.eval yes else H.eval no) := H.eval_of_settle (H.refer_node rfl)

theorem eval_logical (op : LogicalOp) (a b : Tree) : H.eval (.logical op a b) = (do
    let v ← H.eval a
    let goOn := match op with
      | .and => H.truthy v
      | .or => !H.truthy v
      | .coalesce => v.isNullish
    if goOn then H.eval b else pure v) := H.eval_of_settle (H.refer_node rfl)

theorem eval_not (t : Tree) : H.eval (.unary .not t) = (do
    let v ← H.eval t
    pure (.bool (!H.truthy v))) := H.eval_of_settle (H.refer_node rfl)

theorem eval_comparison {op : BinaryOp} {strict negated : Bool} (h : NullCheck.kind? op = some (strict, negated)) (a b : Tree) :
    H.eval (.binary op a b) = (do
      let v ← H.eval a
      let w ← H.eval b
      let r ← H.compare strict v w
      pure (.bool (r != negated))) := by
  refine H.eval_of_settle ((H.refer_node rfl).trans ?_)
  simp only [perform, h]
  rfl

theorem eval_isLiteral {t : Tree} (h : t.isLiteral = true) : ∃ v, H.eval t = pure v := by
  obtain ⟨f, ps⟩ := t
  cases f <;> simp only [Tree.isLiteral, Tree.form, Bool.false_eq_true] at h
  all_goals exact ⟨_, H.eval_of_settle (H.refer_node rfl)⟩

/-- The literal side of a null check. -/
theorem eval_isNullish {t : Tree} (h : t.isNullish = true) :
    H.eval t = pure (Missing.value (if t.isNull then .null else .undefined)) := by
  by_cases hn : t.isNull = true
  · rw [if_pos hn]
    unfold Tree.isNull at hn
    split at hn
    · exact H.eval_of_settle (H.refer_node rfl)
    · exact absurd hn (by simp)
  · rw [if_neg hn]
    have hu : t.isUndefined = true := by simpa [Tree.isNullish, hn] using h
    unfold Tree.isUndefined at hu
    split at hu
    · obtain ⟨v, hv⟩ := H.eval_isLiteral hu
      rw [H.eval_of_settle (H.refer_void _), hv]
      rfl
    · rename_i name
      obtain rfl := beq_iff_eq.1 hu
      exact H.eval_of_settle (H.refer_node rfl)
    · exact absurd hu (by simp)

theorem compare_missing (strict : Bool) (v : Value) (m : Missing) :
    H.compare strict v m.value = pure (if strict then v == m.value else v.isNullish) := by
  cases m <;> simp [compare, Missing.value, Value.isNullish]

theorem missing_compare (strict : Bool) (v : Value) (m : Missing) :
    H.compare strict m.value v = pure (if strict then v == m.value else v.isNullish) := by
  cases m <;> simp [compare, Missing.value, Value.isNullish, BEq.comm (b := v)]

/-- A null check evaluates its operand and looks whether it is missing. -/
theorem eval_check {t : Tree} {c : NullCheck} (h : NullCheck.of? t = some c) : H.eval t = (do
    let v ← H.eval c.operand
    pure (.bool (c.finds v != c.negated))) := by
  obtain ⟨op, literal, hk, hl, hc, rfl | rfl, -⟩ := NullCheck.sides_of_check h
  · simp only [H.eval_comparison hk, H.eval_isNullish hl, ← hc, pure_bind, compare_missing, NullCheck.finds]
  · simp only [H.eval_comparison hk, H.eval_isNullish hl, ← hc, pure_bind, missing_compare, NullCheck.finds]

/-- Evaluation as a reading of conditions. -/
def conditions : Conditions (ExceptT Value (StateM (Scene W))) Value where
  truthy := H.truthy
  ofBool := .bool
  truthy_ofBool _ := rfl
  isNullish := Value.isNullish
  equal := H.compare
  atom := H.eval

theorem value_conditions : H.conditions.value = H.eval := by
  funext t
  induction t using Conditions.value.induct with
  | case1 c yes no hc hy hn => rw [Conditions.value, eval_conditional, hc, hy, hn]; rfl
  | case2 op a b ha hb => rw [Conditions.value, eval_logical, ha, hb]; rfl
  | case3 t ih => rw [Conditions.value, eval_not, ih]; rfl
  | case4 op a b strict negated h ha hb => simp only [Conditions.value, h, H.eval_comparison h, ha, hb]; rfl
  | case5 op a b h => simp only [Conditions.value, h]; rfl
  | case6 t hc hl hn hb => rw [Conditions.value.eq_5 _ t hc hl hn hb]; rfl

theorem truth_conditions (t : Tree) : H.conditions.truth t = (do
    let v ← H.eval t
    pure (H.truthy v)) := by
  rw [Conditions.truth, value_conditions]
  rfl

/-- Evaluating an expression is evaluating its atoms as its conditionals, `&&` and `||` say. -/
theorem meaning_eval (t : Tree) : t.meaning H.truthy H.eval = H.eval t := by
  rw [← value_conditions]
  exact H.conditions.meaning_value t

/-- What a decision means is the value of the leaf to which it leads. -/
theorem meaning_of_reach {d : Decision} {s s' : Scene W} {value : Tree} (h : H.conditions.reach d s = (.ok (value, none), s'))
    (v : Option Value) : d.meaning H.truthy H.eval v s = H.eval value s' := by
  induction d generalizing s v with
  | leaf value' stop =>
    obtain ⟨hr, rfl⟩ := Prod.mk.inj h
    obtain ⟨rfl, rfl⟩ := Prod.mk.inj (Except.ok.inj hr)
    cases v <;> exact congrFun (H.meaning_eval value') s
  | test condition yes no ihy ihn =>
    rw [Conditions.reach, truth_conditions, bind_assoc] at h
    rw [Decision.meaning_test, meaning_eval]
    rcases hc : H.eval condition s with ⟨e | w, s₁⟩
    · rw [Eval.bind_error hc] at h
      exact absurd (Prod.mk.inj h).1 (by simp)
    · rw [Eval.bind_ok hc, pure_bind] at h
      rw [Eval.bind_ok hc]
      cases hw : H.truthy w with
      | true => exact ihy (by simpa [hw] using h) (some w)
      | false => exact ihn (by simpa [hw] using h) (some w)

/-! ## Getting past guards -/

/-- Evaluation goes past a row of conditions, none of which holds. -/
def Falls : List Tree → Scene W → Scene W → Prop
  | [], s, s' => s = s'
  | t :: ts, s, s'' => ∃ v s', H.eval t s = (.ok v, s') ∧ H.truthy v = false ∧ Falls ts s' s''

/-- Evaluation goes past a row of guards, none of which finds a missing value. -/
def Passes : List NullCheck → Scene W → Prop
  | [], _ => True
  | c :: cs, s => ∃ v s', H.eval c.operand s = (.ok v, s') ∧ v.isNullish = false ∧ Passes cs s'

end Host

/-- What is checked is a member access that does nothing, so that it does not matter how often it is evaluated. -/
structure NullCheck.ReadsQuietly (c : NullCheck) : Prop where
  isAccess : c.operand.isAccess = true
  isHarmless : c.operand.isHarmless = true

namespace NullCheck.ReadsQuietly

variable {c : NullCheck} (h : c.ReadsQuietly)

include h

theorem assignment? : c.operand.assignment? = none := by
  obtain ⟨o, ho⟩ := Option.isSome_iff_exists.1 h.isAccess
  obtain ⟨l, hl, -⟩ := exists_onto_of_object? ho
  rw [hl]
  cases l <;> rfl

theorem token : c.token = c.operand := by
  simp only [NullCheck.token, h.assignment?]

theorem target : c.target = c.operand := by
  simp only [NullCheck.target, h.assignment?]

theorem temporary? : c.temporary? = none := by
  simp only [NullCheck.temporary?, h.assignment?, Option.map_none]

theorem relink (t : Tree) : c.relink t = (t.rewrite c.operand (some c.operand)).expr := by
  simp [NullCheck.relink, h.temporary?, h.token, h.target]

end NullCheck.ReadsQuietly

theorem NullCheck.finds_eq_false (c : NullCheck) {v : Value} (h : v.isNullish = false) : c.finds v = false := by
  unfold finds
  split
  · rw [beq_eq_false_iff_ne]
    rintro rfl
    cases hc : c.compared <;> simp [hc, Missing.value, Value.isNullish] at h
  · exact h

/-- What has the same text as a token that is an access is checked as it is. -/
theorem NullCheck.operand_same {c : NullCheck} {token : Tree} (ha : token.isAccess = true) (h : c.token.same token = true) :
    c.operand.same token = true := by
  unfold NullCheck.token at h
  split at h
  · obtain ⟨o, ho⟩ := Option.isSome_iff_exists.1 ha
    obtain ⟨l, hl, -⟩ := exists_onto_of_object? ho
    have hform := form_same h
    rw [hl] at hform
    cases l <;> exact absurd hform (by simp [uncommented, form, Layer.onto])
  · exact h

namespace Host

variable {W : Type} {H : Host W}

theorem Passes.isPresent (hH : H.IsQuiet) {cs : List NullCheck} (hc : ∀ c ∈ cs, c.ReadsQuietly) {s : Scene W}
    (h : H.Passes cs s) : ∀ c ∈ cs, H.IsPresent c.operand s := by
  induction cs with
  | nil => simp
  | cons c cs ih =>
    obtain ⟨v, s', hv, hn, h⟩ := h
    have hs := hH.eval (hc c (by simp)).isHarmless s
    rw [hv] at hs
    obtain rfl : s' = s := hs
    simp only [List.mem_cons, forall_eq_or_imp]
    exact ⟨⟨v, s', hv, hn⟩, ih (fun c hc' => hc c (by simp [hc'])) h⟩

/-- The value that is present is read without an effect. -/
theorem IsPresent.eval (hH : H.IsQuiet) {k : Tree} (hk : k.isHarmless = true) {s : Scene W} (h : H.IsPresent k s) :
    ∃ v, H.eval k s = (.ok v, s) ∧ v.isNullish = false := by
  obtain ⟨v, s', hv, hn⟩ := h
  have hs := hH.eval hk s
  rw [hv] at hs
  exact ⟨v, by rw [hv, show s' = s from hs], hn⟩

/-- A null check of a value that is present does not hold, and does nothing. -/
theorem truth_check (hH : H.IsQuiet) {t : Tree} {c : NullCheck} (hc : NullCheck.of? t = some c) (hneg : c.negated = false)
    (hk : c.operand.isHarmless = true) {s : Scene W} (hs : H.IsPresent c.operand s) :
    H.conditions.truth t s = (.ok false, s) := by
  obtain ⟨v, hv, hn⟩ := hs.eval hH hk
  rw [truth_conditions, H.eval_check hc, bind_assoc, Eval.bind_ok hv, pure_bind, hneg, c.finds_eq_false hn]
  rfl

/-- The null checks that are read along a decision let evaluation pass where their operands have values. -/
theorem reach_of_construct (hH : H.IsQuiet) {a : Acceptance} {d : Decision} {awaited : Option Tree} {c : Constructed}
    (h : d.construct a awaited = some c) (hg : ∀ g ∈ d.guardsFrom awaited.isSome, g.ReadsQuietly) {s s' : Scene W}
    (hawaited : ∀ token ∈ awaited, token.isAccess = true ∧ token.isHarmless = true ∧ H.IsPresent token s)
    (hs : H.Falls (d.alternativesFrom awaited.isSome) s s')
    (hp : H.Passes (d.guardsFrom awaited.isSome) s') : H.conditions.reach d s = (.ok d.lastLeaf, s') := by
  fun_induction Decision.construct a d awaited generalizing c s with
  | case1 value stop =>
    obtain rfl : s = s' := hs
    rfl
  | case2 => exact absurd h (by simp)
  | case3 condition yes no token ih =>
    obtain ⟨k, hk, h⟩ := Option.bind_eq_some_iff.1 h
    split at h
    · rename_i hc
      simp only [NullCheck.completes, Bool.and_eq_true, Bool.not_eq_true', beq_iff_eq] at hc
      obtain ⟨ha, hharmless, hpresent⟩ := hawaited token rfl
      have hsame := NullCheck.operand_same ha hc.1.2
      have hoperand : k.operand.isHarmless = true := by
        rw [← isHarmless_bare, show k.operand.bare = token.bare from of_decide_eq_true hsame, isHarmless_bare, hharmless]
      have heval : H.eval k.operand = H.eval token := by rw [Host.eval, Host.eval, piece_same hharmless hsame]
      have hfalse : H.conditions.truth condition s = (.ok false, s) := by
        refine truth_check hH hk hc.1.1.1 hoperand ?_
        rw [IsPresent, heval]
        exact hpresent
      rw [Conditions.reach, Eval.bind_ok hfalse]
      exact ih h hg (by simp) hs hp
    · exact absurd h (by simp)
  | case4 condition yes no k hk hyes ih =>
    obtain ⟨rest, hrest, h⟩ := Option.bind_eq_some_iff.1 h
    obtain ⟨x, _, hx⟩ := Decision.construct_eq hrest
    rw [Decision.isSome_awaited] at hx
    have hnil := Decision.alternativesFrom_of_addGuard (hx ▸ h)
    obtain ⟨hof, hb⟩ := Option.filter_eq_some_iff.1 hk
    simp only [Decision.guardsFrom, Decision.alternativesFrom, Option.isSome_none, hk, List.mem_cons, forall_eq_or_imp] at hg hs hp
    obtain rfl : s = s' := hs
    obtain ⟨hquiet, hg⟩ := hg
    obtain ⟨v, s₁, hv, hn, hp⟩ := hp
    have hpresent : H.IsPresent k.operand s := ⟨v, s₁, hv, hn⟩
    obtain rfl : s₁ = s := by
      have := hH.eval hquiet.isHarmless s
      rwa [hv] at this
    simp only [NullCheck.begins, Bool.and_eq_true, Bool.not_eq_true'] at hb
    have hfalse := truth_check hH hof hb.1 hquiet.isHarmless hpresent
    rw [Conditions.reach, Eval.bind_ok hfalse]
    refine ih hrest ?_ ?_ ?_ ?_
    · rwa [Decision.isSome_awaited]
    · intro token htoken
      obtain ⟨-, rfl⟩ : k.strict = true ∧ k.token = token := by simpa using htoken
      rw [hquiet.token]
      exact ⟨hquiet.isAccess, hquiet.isHarmless, hpresent⟩
    · rw [Decision.isSome_awaited, hnil]
      rfl
    · rwa [Decision.isSome_awaited]
  | case5 => exact absurd h (by simp)
  | case6 condition yes no hk hyes ih =>
    obtain ⟨rest, hrest, h⟩ := Option.bind_eq_some_iff.1 h
    simp only [Decision.guardsFrom, Decision.alternativesFrom, Option.isSome_none, hk] at hg hs hp
    obtain ⟨v, s₁, hv, hfalse, hs⟩ := hs
    have htruth : H.conditions.truth condition s = (.ok false, s₁) := by
      rw [truth_conditions, Eval.bind_ok hv, hfalse]
      rfl
    rw [Conditions.reach, Eval.bind_ok htruth]
    exact ih hrest hg (by simp) hs hp
  | case7 => exact absurd h (by simp)

end Host

/-! ## Folding and links, one after the other -/

namespace Tree

/-- Variables are unwrapped one after the other, each of which is not read and stands in nobody's way. -/
inductive Unwraps : Tree → List String → Tree → Prop
  | nil (t : Tree) : Unwraps t [] t
  | cons {t u : Tree} {n : String} {ns : List String} (ht : t.isTidy n = true) (hu : t.Unread n) (hn : (t.unwrap n).uses n = 0)
    (h : Unwraps (t.unwrap n) ns u) : Unwraps t (n :: ns) u

/-- An expression stays tidy for a variable when one is unwrapped for which it is tidy too. -/
theorem isTidy_unwrap_of_uses {t : Tree} {m n : String} (hm : t.isTidy m = true) (hn : t.isTidy n = true)
    (h : (t.unwrap n).uses n = 0) : (t.unwrap n).isTidy m = true := by
  by_cases heq : m = n
  · rw [heq]
    exact isTidy_of_uses h
  · exact isTidy_unwrap hm hn heq

/-- Folding variables for which an expression is tidy is unwrapping those that are consumed. -/
theorem unwraps_foldEach {t : Tree} {names : List String} (h : ∀ n ∈ (t.foldEach names).2, t.isTidy n = true) :
    Unwraps t (t.foldEach names).2 (t.foldEach names).1 := by
  induction names generalizing t with
  | nil => exact .nil t
  | cons n ns ih =>
    rw [foldEach] at h ⊢
    simp only at h ⊢
    split
    · rename_i huses
      rw [if_pos huses] at h
      rw [beq_iff_eq] at huses
      have hn := h n (by simp)
      obtain ⟨hunread, hfold⟩ := fold_of_isTidy hn huses
      rw [hfold] at huses h ⊢
      refine .cons hn hunread huses (ih fun m hm => isTidy_unwrap_of_uses (h m (by simp [hm])) hn huses)
    · rename_i huses
      rw [if_neg huses] at h
      exact ih h

namespace Unwraps

variable {t u : Tree} {ns : List String} (h : Unwraps t ns u)

include h

/-- An expression stays tidy when variables are unwrapped for which it is tidy too. -/
theorem isTidy {m : String} (hm : t.isTidy m = true) : u.isTidy m = true := by
  induction h with
  | nil => exact hm
  | cons ht _ hn _ ih => exact ih (isTidy_unwrap_of_uses hm ht hn)

theorem callsDirectly (hd : t.callsDirectly = true) : u.callsDirectly = true := by
  induction h with
  | nil => exact hd
  | cons ht _ _ _ ih => exact ih (callsDirectly_unwrap hd ht)

end Unwraps

end Tree

namespace Host

variable {W : Type} {H : Host W}

/-- The same outcome, and the same effects but for assignments to the variables. -/
def Close (names : List String) (x y : Run W Value) (s : Scene W) : Prop :=
  (x s).1 = (y s).1 ∧ (x s).2.Agree names (y s).2

theorem close_refl (x : Run W Value) (s : Scene W) : Close [] x x s := ⟨rfl, Scene.agree_refl _ _⟩

theorem Close.trans {names names' : List String} {x y z : Run W Value} {s : Scene W} (h : Close names x y s)
    (h' : Close names' y z s) : Close (names ++ names') x z s :=
  ⟨h.1.trans h'.1, Scene.agree_trans h.2 h'.2⟩

/-- Each variable that is unwrapped leaves nothing but its assignments behind. -/
theorem close_unwraps {t u : Tree} {ns : List String} (h : Unwraps t ns u) (hH : ∀ n ∈ ns, H.Overlooks n) (s : Scene W) :
    Close ns (H.eval t) (H.eval u) s := by
  induction h with
  | nil => exact close_refl _ s
  | @cons t u n ns ht hu _ _ ih =>
    simp only [List.mem_cons, forall_eq_or_imp] at hH
    have hone : Close [n] (H.eval t) (H.eval (t.unwrap n)) s :=
      Overlooks.valueOf (hH.1.unwrap ht hu).1 s s (Scene.agree_refl _ s)
    exact hone.trans (ih hH.2)

/-- Links for a row of guards that read quietly change nothing where all of these pass; besides, assignments go that are folded. -/
theorem close_ofGuards (hq : H.IsQuiet) {cs : List NullCheck} {value : Tree} {x : Constructed}
    (h : Constructed.ofGuards cs value = some x) (hc : ∀ c ∈ cs, c.ReadsQuietly) (hd : value.callsDirectly = true)
    (ht : ∀ n ∈ x.consumed, value.isTidy n = true) (hH : ∀ n ∈ x.consumed, H.Overlooks n) {s : Scene W}
    (hs : ∀ c ∈ cs, H.IsPresent c.operand s) : Close x.consumed (H.eval value) (H.eval x.expr) s ∧
      x.expr.callsDirectly = true ∧ ∀ m, value.isTidy m = true → x.expr.isTidy m = true := by
  induction cs generalizing x with
  | nil =>
    obtain rfl := Option.some.inj h
    have hunwraps : Unwraps value _ _ := unwraps_foldEach ht
    exact ⟨close_unwraps hunwraps hH s, hunwraps.callsDirectly hd, fun m => hunwraps.isTidy⟩
  | cons c cs ih =>
    obtain ⟨rest, hrest, h⟩ := Option.bind_eq_some_iff.1 h
    obtain ⟨-, rfl⟩ := Constructed.addGuard_eq_some.1 h
    have hquiet := hc c (by simp)
    simp only [hquiet.temporary?, Option.toList_none, List.append_nil, List.mem_append] at ht hH ⊢
    obtain ⟨hclose, hdirect, htidy⟩ := ih hrest (fun c hc' => hc c (by simp [hc'])) (fun n hn => ht n (.inl hn))
      (fun n hn => hH n (.inl hn)) fun c hc' => hs c (by simp [hc'])
    have heval : H.eval (c.relink rest.expr) s = H.eval rest.expr s := by
      rw [hquiet.relink]
      exact eval_rewrite hq hquiet.isHarmless hquiet.isAccess (hs c (by simp)) hdirect
    have hrelinked : (c.relink rest.expr).callsDirectly = true ∧
        ∀ m, rest.expr.isTidy m = true → (c.relink rest.expr).isTidy m = true := by
      rw [hquiet.relink]
      exact tidy_rewrite hquiet.isHarmless hquiet.isAccess hdirect
    have hunwraps : Unwraps (c.relink rest.expr) _ _ := unwraps_foldEach fun n hn => hrelinked.2 n (htidy n (ht n (.inr hn)))
    refine ⟨hclose.trans ?_, hunwraps.callsDirectly hrelinked.1, fun m hm => hunwraps.isTidy (hrelinked.2 m (htidy m hm))⟩
    have := close_unwraps hunwraps (fun n hn => hH n (.inr hn)) s
    rwa [Close, heval] at this

/-- The alternatives in front of a chain do not hold, so its value is taken. -/
theorem eval_alternatives (H : Host W) {conditions : List Tree} {t : Tree} {s s' : Scene W} (h : H.Falls conditions s s') :
    H.eval (conditions.foldr (.logical .or) t) s = H.eval t s' := by
  induction conditions generalizing s with
  | nil =>
    obtain rfl : s = s' := h
    rfl
  | cons c cs ih =>
    obtain ⟨v, s₁, hv, hfalse, h⟩ := h
    rw [List.foldr_cons, eval_logical, Eval.bind_ok hv]
    simp only [hfalse, Bool.not_false, if_true]
    exact ih h

end Host

/-! ## Merged reads -/

/-- The reads that a reconstruction merges have no effects: each guard checks a member access that does nothing. On the spine of the
guarded value no method is called with an explicit receiver, and the variables that are consumed are assigned in it only where the
values of the assignments are taken. -/
structure Tree.MergesQuietly (t : Tree) (consumed : List String) : Prop where
  operands : ∀ c ∈ t.decision.guards, c.ReadsQuietly
  direct : t.decision.guarded.callsDirectly = true
  tidy : ∀ n ∈ consumed, t.decision.guarded.isTidy n = true

/-- In a state in which all guards pass, what is restored has the same outcome and the same effects in the same order, except
for assignments to the variables consumed. -/
theorem Tree.reconstruct_effects {W : Type} (H : Host W) (hq : H.IsQuiet) {t : Tree} {o : Options} {r : Replacement}
    (hr : t.reconstruct o = some r) (ht : t.MergesQuietly r.consumed) (hH : ∀ n ∈ r.consumed, H.Overlooks n) {s s' : Scene W}
    (hs : H.Falls t.decision.alternatives s s') (hp : H.Passes t.decision.guards s') :
    (H.eval t s).1 = (H.eval r.expr s).1 ∧ (H.eval t s).2.Agree r.consumed (H.eval r.expr s).2 := by
  obtain ⟨-, c, x, hc, -, hx, hm, rfl⟩ := reconstruct_eq hr
  have hg : t.decision.guards ≠ [] := by
    intro hnil
    rw [hnil] at hx
    rw [← Option.some.inj hx] at hm
    exact absurd hm (by simp [Constructed.ofLeaf])
  have hreach : H.conditions.reach t.decision s = (.ok (t.decision.guarded, none), s') := by
    rw [H.reach_of_construct hq hc ht.operands (by simp) hs hp, ← Decision.lastLeaf_decision hc hg hx]
    rfl
  have hvalue : H.eval t s = H.eval t.decision.guarded s' := by
    have horiented : H.conditions.reach (Decision.ofValue t) = H.conditions.reach t.decision := by
      unfold decision Decision.oriented
      split
      · exact (H.conditions.reach_negated _).symm
      · rfl
    rw [← horiented] at hreach
    rw [← H.meaning_of_reach hreach none, Decision.meaning_ofValue, H.meaning_eval]
  have hexpr : H.eval (x.withAlternatives t.decision.alternatives).expr s = H.eval x.expr s' := H.eval_alternatives hs
  rw [hvalue, hexpr]
  exact (Host.close_ofGuards hq hx ht.operands ht.direct ht.tidy hH (hp.isPresent hq ht.operands)).1

/-! ## A simple host -/

namespace Host

/-- The values of a list of parts when every property has the same value. -/
def plainValues (v : Value) : List (Piece Unit) → Run Unit (List Value)
  | [] => pure []
  | p :: ps => do
    let r ← p.run
    let vs ← plainValues v ps
    let w := match r with
      | none => .undefined
      | some (.value w) => w
      | some (.property _ _) => v
    pure (w :: vs)

/-- A host on which every property and the result of every call and operation is the same value. -/
def constant (v : Value) : Host Unit where
  this := v
  truthyOther _ := true
  read _ _ _ := .ok v
  write _ _ _ s := (.ok (), s)
  remove _ _ s := (.ok true, s)
  call _ _ _ s := (.ok v, s)
  iterate _ s := (.ok [], s)
  looselyEqual a b _ := .ok (a == b)
  strictlyEqual a b := a == b
  noObject := .other 1
  noVariable _ := .other 2
  operate f ps := do
    let vs ← plainValues v ps
    if f.isCalm then pure v else enact (.operation f vs) fun s => (.ok v, s)
  whole _ := pure v

theorem quiet_plainValues (v : Value) {ps : List (Piece Unit)} (h : ∀ p ∈ ps, Quiet p.run) : Quiet (plainValues v ps) := by
  induction ps with
  | nil => exact quiet_pure _
  | cons p ps ih =>
    simp only [List.mem_cons, forall_eq_or_imp] at h
    exact h.1.bind fun _ => (ih h.2).bind fun _ => quiet_pure _

/-- Its operators are quiet. -/
theorem constant_isQuiet (v : Value) : (constant v).IsQuiet where
  operate _ ps hf h := (quiet_plainValues v h).bind fun _ => by
    rw [if_pos hf]
    exact quiet_pure _

theorem idle_plainValues (v : Value) (name : String) {ps qs : List (Piece Unit)}
    (h : List.Forall₂ (Piece.SamePlace name) ps qs) : Idle name (plainValues v ps) (plainValues v qs) := by
  induction h with
  | nil => exact Eval.alike_pure _
  | cons h _ ih => exact h.run.bind fun _ => ih.bind fun _ => Eval.alike_pure _

/-- It depends on no variable. -/
theorem constant_overlooks (v : Value) (name : String) : (constant v).Overlooks name where
  read _ _ _ _ _ := rfl
  looselyEqual _ _ _ _ _ := rfl
  write _ _ _ _ _ h := ⟨rfl, h⟩
  remove _ _ _ _ h := ⟨rfl, h⟩
  call _ _ _ _ _ h := ⟨rfl, h⟩
  iterate _ _ _ h := ⟨rfl, h⟩
  operate _ _ _ h := (idle_plainValues v name h).bind fun _ =>
    Eval.alike_ite _ (Eval.alike_pure _) (idle_enact (fun _ _ h => ⟨rfl, h⟩) _)
  whole _ _ := Eval.alike_pure _

end Host

/-- Every variable has a value that is not missing, and nothing has happened. -/
def Scene.initial : Scene Unit := ⟨⟨fun _ => some (.other 0), ()⟩, []⟩

/-! ## Examples -/

namespace EffectsWitness

/-- `a[i]` -/
def object : Tree := .index (.reference "a") (.reference "i") false

/-- `void 0` -/
def undefined : Tree := .unary .void (.number .zero)

/-- `a[i].b === null || a[i].b === void 0 ? void 0 : a[i].b.c(f(), n = 0)` -/
def repeated : Tree :=
  .conditional
    (.logical .or
      (.binary .strictEq (.member object "b" false) .null)
      (.binary .strictEq (.member object "b" false) undefined))
    undefined
    (.call (.member (.member object "b" false) "c" false)
      [.call (.reference "f") [] false, .assign .plain (.reference "n") (.number .zero)] false)

/-- `a[i].b?.c(f(), 0)` -/
def merged : Tree :=
  .chain (.call (.member (.member object "b" false) "c" true) [.call (.reference "f") [] false, .number .zero] false)

theorem mergesQuietly_repeated : repeated.MergesQuietly ["n"] where
  operands := by
    have hg : repeated.decision.guards.map (·.operand) = [.member object "b" false] := rfl
    intro c hc
    have hc := List.mem_map_of_mem (f := (·.operand)) hc
    rw [hg, List.mem_singleton] at hc
    exact ⟨by rw [hc]; rfl, by rw [hc]; rfl⟩
  direct := rfl
  tidy := by
    intro n hn
    obtain rfl := List.mem_singleton.1 hn
    rfl

theorem passes_repeated : (Host.constant (.other 0)).Passes repeated.decision.guards .initial := by
  have hg : ∃ c, repeated.decision.guards = [c] ∧ c.operand = .member object "b" false := ⟨_, rfl, rfl⟩
  obtain ⟨c, hc, hop⟩ := hg
  rw [hc]
  exact ⟨.other 0, .initial, by rw [hop]; rfl, rfl, trivial⟩

/-- `f().b == null ? void 0 : f().b.c` -/
def calling : Tree :=
  .conditional (.binary .eq (.member (.call (.reference "f") [] false) "b" false) .null) undefined
    (.member (.member (.call (.reference "f") [] false) "b" false) "c" false)

/-- `f().b?.c` -/
def calledOnce : Tree := .chain (.member (.member (.call (.reference "f") [] false) "b" false) "c" true)

end EffectsWitness

open EffectsWitness

/-- The read of `a[i].b` is made three times or once, and `n` is assigned or not; `f` and `c` are called once. -/
theorem Tree.reconstruct_effects_repeated :
    repeated.reconstruct {} = some ⟨merged, ["n"]⟩ ∧
      ((Host.constant (.other 0)).eval repeated .initial).1 = ((Host.constant (.other 0)).eval merged .initial).1 ∧
      ((Host.constant (.other 0)).eval repeated .initial).2.Agree ["n"] ((Host.constant (.other 0)).eval merged .initial).2 :=
  ⟨rfl, reconstruct_effects _ (Host.constant_isQuiet _) (o := {}) (r := ⟨merged, ["n"]⟩) rfl mergesQuietly_repeated
    (fun _ _ => Host.constant_overlooks _ _) (s := .initial) rfl passes_repeated⟩

/-- Effects are not kept by every reconstruction: `f().b == null ? void 0 : f().b.c` becomes `f().b?.c`, which calls `f` only
once. -/
theorem Tree.reconstruct_effects_false : ¬ ∀ (t : Tree) (o : Options) (r : Replacement), t.reconstruct o = some r →
    (∀ c ∈ t.decision.guards, c.operand.isAccess = true) → ∀ (W : Type) (H : Host W), H.IsQuiet →
    (∀ n ∈ r.consumed, H.Overlooks n) → ∀ s s', H.Falls t.decision.alternatives s s' → H.Passes t.decision.guards s' →
    (H.eval t s).2.effects.filter (·.isNoticed r.consumed) = (H.eval r.expr s).2.effects.filter (·.isNoticed r.consumed) := by
  intro h
  have hr : calling.reconstruct {} = some ⟨calledOnce, []⟩ := rfl
  have hg : ∃ c, calling.decision.guards = [c] ∧ c.operand = .member (.call (.reference "f") [] false) "b" false := ⟨_, rfl, rfl⟩
  obtain ⟨c, hc, hop⟩ := hg
  have heffects := h calling {} ⟨calledOnce, []⟩ hr (by simp [hc, hop, Tree.isAccess, Tree.object?]) Unit (.constant (.other 0))
    (Host.constant_isQuiet _) (by simp) .initial .initial rfl (by rw [hc]; exact ⟨.other 0, _, by rw [hop]; rfl, rfl, trivial⟩)
  have htwice : ((Host.constant (.other 0)).eval calling .initial).2.effects =
    [.call (.other 0) .undefined [], .call (.other 0) .undefined []] := rfl
  have honce : ((Host.constant (.other 0)).eval calledOnce .initial).2.effects = [.call (.other 0) .undefined []] := rfl
  rw [htwice, honce] at heffects
  exact absurd (congrArg List.length heffects) (by simp [Effect.isNoticed])

end Chainlift
