import Chainlift.Proofs.Guards
import Chainlift.Proofs.Survey
import Chainlift.Proofs.Unread

/-!
# Restored `??` keeps its value

If the guards of a chain in front of `??` make a row, the restored `??` has the value of the expression it stands for, and
evaluates the fallback exactly when that does (`Tree.coalesce_exact`). The temporaries hold the values that the links pass on,
and nothing else reads them.

A guard off the way from the root to the guarded access cannot be allowed: it is lost, though it may be the one that stops the
evaluation (`Tree.coalesce_exact_false`).
-/

namespace Chainlift

open Tree Eval

/-! ## Running a row -/

namespace Machine

variable {W : Type} {M : Machine W}

theorem eval_variable {name : String} (h : name ≠ "undefined") {s : State W} {v : Value} (hv : s.store.vars name = some v) :
    M.eval (.reference name) s = (.ok v, s) := by
  rw [M.eval_reference h]
  simp only [readVariable, hv]

/-- An access on a value evaluates its key, if it has one, and leads to a property of the value. -/
theorem apply_access (M : Machine W) {l : Layer} (hl : ∀ args, l ≠ .call args) : ∃ key : Eval W Key,
    (∀ p v, M.apply l p v = key >>= fun k => pure (some (.property v k))) ∧
      ∀ names, (∀ n ∈ names, M.Overlooks n) → (∀ p ∈ l.parts, ∀ n ∈ names, p.Unread n) → IdleAll names key key := by
  cases l with
  | member name => exact ⟨pure (.name name), fun _ _ => rfl, fun _ _ _ _ _ hs => ⟨rfl, hs⟩⟩
  | privateMember name => exact ⟨pure (.privateName name), fun _ _ => rfl, fun _ _ _ _ _ hs => ⟨rfl, hs⟩⟩
  | index key =>
    refine ⟨M.eval key >>= fun k => pure (.computed k), fun p v => ?_, fun names hM hu => ?_⟩
    · simp only [apply, bind_assoc, pure_bind]
    · refine idleAll_of_idle fun n hn => ?_
      have hkey := idle_of_unread (hM n hn) (hu key (by simp [Layer.parts]) n hn)
      exact (hkey.bind fun p => idle_value (hM n hn).toIgnores p).bind fun k => idle_pure n _
  | call args => exact absurd rfl (hl args)

/-- A member of a variable that is not missing. -/
theorem eval_access {t : Tree} {name : String} (ho : t.object? = some (.reference name)) (h : name ≠ "undefined") {l : Layer}
    (hl : t.layer? = some l) {key : Eval W Key} (hkey : ∀ p v, M.apply l p v = key >>= fun k => pure (some (.property v k)))
    {s : State W} {v : Value} (hv : s.store.vars name = some v) (hn : v.isNullish = false) :
    M.eval t s = (key >>= fun k => M.get (.property v k)) s := by
  obtain ⟨k, hk, -, hon, -⟩ := layer?_of_object? ho
  obtain rfl : k = l := Option.some.inj (hk.symm.trans hl)
  have hrefer : M.refer (.reference name) s = (.ok (some (.value v)), s) := by
    rw [refer, if_neg (by simpa using h)]
    refine (bind_ok ?_ _).trans rfl
    simp only [readVariable, hv]
  have hstep : M.step t.isLink (M.apply k) (some (.value v)) = M.apply k (.value v) v := by
    rw [step, get, pure_bind, hn, Bool.and_false]
    rfl
  rw [hon, eval, refer_onto, bind_assoc, bind_ok hrefer, hstep, hkey]
  simp only [bind_assoc, pure_bind]
  rfl

/-- A link goes on with the value of a property as with any other value. -/
theorem follow_property {l : Layer} (hl : ∀ args, l ≠ .call args) (ls : List (Layer × Bool)) (p : Referent) :
    (M.follow ((l, true) :: ls) (some p) >>= M.value) = (do
      let w ← M.get p
      if w.isNullish then pure .undefined else M.reach l ls w) := by
  obtain ⟨key, hkey, -⟩ := M.apply_access hl
  rw [follow, step]
  simp only [bind_assoc, Bool.true_and]
  refine bind_congr fun w => ?_
  cases w.isNullish with
  | true =>
    simp only [if_true, pure_bind, follow_none]
    rfl
  | false =>
    simp only [Bool.false_eq_true, if_false, reach, hkey, bind_assoc]

/-- After an access a link goes on with the value that is found. -/
theorem reach_access {k l : Layer} (hk : ∀ args, k ≠ .call args) (hl : ∀ args, l ≠ .call args) (ls : List (Layer × Bool)) (v : Value) :
    M.reach k ((l, true) :: ls) v = (do
      let w ← M.reach k [] v
      if w.isNullish then pure .undefined else M.reach l ls w) := by
  obtain ⟨key, hkey, -⟩ := M.apply_access hk
  have hfollow := fun key => follow_property (M := M) hl ls (.property v key)
  simp only [reach, hkey, bind_assoc, pure_bind, hfollow]
  rfl

/-- Go on past a row of null checks, unless one of them finds its operand missing. -/
def runChecks (M : Machine W) : List NullCheck → Eval W Value → Eval W Value
  | [], rest => rest
  | c :: cs, rest => do
    let v ← M.eval c.operand
    if c.finds v then pure .undefined else runChecks M cs rest

theorem runChecks_append (cs ds : List NullCheck) (rest : Eval W Value) :
    M.runChecks (cs ++ ds) rest = M.runChecks cs (M.runChecks ds rest) := by
  induction cs with
  | nil => rfl
  | cons c cs ih =>
    rw [List.cons_append, runChecks, runChecks]
    simp only [ih]

/-- Loose checks are guards. -/
theorem runChecks_loose {cs : List NullCheck} (hloose : ∀ c ∈ cs, c.strict = false) (rest : Eval W Value) :
    M.runChecks cs rest = M.runGuards cs rest := by
  induction cs with
  | nil => rfl
  | cons c cs ih =>
    simp only [List.mem_cons, forall_eq_or_imp] at hloose
    rw [runChecks, runGuards, guard]
    simp only [NullCheck.finds, hloose.1, Bool.false_eq_true, if_false, ih hloose.2]

/-- What a row of `||` over null checks decides, the checks decide one after the other. -/
theorem eval_checks {test : Tree} (hchecks : ∀ g ∈ test.alternatives, ∃ c, NullCheck.of? g = some c ∧ c.negated = false)
    (rest : Eval W Value) :
    (M.eval test >>= fun v => if M.truthy v then pure .undefined else rest) = M.runChecks test.checks rest := by
  induction test using Tree.alternatives.induct generalizing rest with
  | case1 a b iha ihb =>
    simp only [Tree.alternatives.eq_1, List.mem_append] at hchecks
    have hb := ihb (fun g hg => hchecks g (.inr hg)) rest
    have ha := iha (fun g hg => hchecks g (.inl hg)) (M.runChecks b.checks rest)
    rw [M.eval_or_truthy a b fun holds => if holds then pure .undefined else rest]
    simp only [checks, Tree.alternatives.eq_1, List.filterMap_append, runChecks_append] at ha hb ⊢
    rw [← ha, ← hb]
    rfl
  | case2 t h =>
    have halternatives : t.alternatives = [t] := Tree.alternatives.eq_2 t h
    obtain ⟨c, hc, hn⟩ := hchecks t (by simp [halternatives])
    have hcs : t.checks = [c] := by simp [checks, halternatives, hc]
    rw [hcs, M.eval_check hc, runChecks, runChecks]
    simp only [bind_assoc, pure_bind, truthy_bool, hn, Bool.bne_false]
    rfl

/-- A conditional over a row of checks does what the checks do. -/
theorem eval_conditional_checks {test yes no : Tree}
    (hchecks : ∀ g ∈ test.alternatives, ∃ c, NullCheck.of? g = some c ∧ c.negated = false) (hyes : yes.isUndefined = true) :
    M.eval (.conditional test yes no) = M.runChecks test.checks (M.eval no) := by
  rw [eval_conditional, M.eval_isUndefined hyes]
  exact eval_checks hchecks _

/-- A conditional over a row of loose checks does what the guards do. -/
theorem eval_row {test yes no : Tree} (hchecks : ∀ g ∈ test.alternatives, ∃ c, NullCheck.of? g = some c ∧ c.negated = false)
    (hloose : ∀ c ∈ test.checks, c.strict = false) (hyes : yes.isUndefined = true) :
    M.eval (.conditional test yes no) = M.runGuards test.checks (M.eval no) :=
  (eval_conditional_checks hchecks hyes).trans (runChecks_loose hloose _)

variable {names : List String} (hM : ∀ n ∈ names, M.Overlooks n)

include hM

/-- A member of a variable that is not missing agrees with an access on the value of the variable. -/
theorem agree_access {access : Tree} {current : String} (ho : access.object? = some (.reference current))
    (hcurrent : current ≠ "undefined") {k : Layer} (hk : access.layer? = some k) (hcall : ∀ args, k ≠ .call args)
    (hu : ∀ p ∈ k.parts, ∀ n ∈ names, p.Unread n) {go go' : Value → Eval W Value} (hgo : ∀ w, IdleAll names (go w) (go' w))
    {s s' : State W} (hs : s.Agree names s') {v : Value} (hv : s.store.vars current = some v) (hn : v.isNullish = false) :
    ((M.eval access >>= go) s).1 = ((M.reach k [] v >>= go') s').1 ∧
      ((M.eval access >>= go) s).2.Agree names ((M.reach k [] v >>= go') s').2 := by
  obtain ⟨key, hkey, hidle⟩ := M.apply_access hcall
  have heval : (M.eval access >>= go) s = (key >>= (fun k => M.get (.property v k)) >>= go) s :=
    bind_congr_at (eval_access ho hcurrent hk hkey hv hn) go
  have hreach : M.reach k [] v = key >>= fun k => M.get (.property v k) := by
    simp only [reach, hkey, follow, bind_assoc, pure_bind]
    rfl
  have hget : ∀ p, IdleAll names (M.get p) (M.get p) := fun p => idleAll_of_idle fun n hn => idle_get (hM n hn).toIgnores p
  rw [heval, hreach]
  exact (((hidle names hM hu).bind fun k => hget _).bind hgo) s s' hs

variable (hundefined : "undefined" ∉ names)

include hundefined

/-- Once the variable that a row begins with is known not to be missing, the guards and the guarded access do what the links do
from its value on. What the temporaries hold makes no difference. -/
theorem agree_row {no : Tree} {last : String} (hno : no.object? = some (.reference last)) {cs : List NullCheck} {current : String}
    (hcurrent : current ≠ "undefined") (hleads : NullCheck.leads current cs = some last)
    (htemporaries : ∀ c ∈ cs, ∀ n, c.temporary? = some n → n ∈ names) {l : Layer} {ls : List (Layer × Bool)}
    (hlinks : links (NullCheck.accesses cs ++ [no]) = (l, true) :: ls)
    (hu : ∀ l' ∈ (l, true) :: ls, ∀ p ∈ l'.1.parts, ∀ n ∈ names, p.Unread n)
    {s s' : State W} (hs : s.Agree names s') {v : Value} (hv : s.store.vars current = some v) (hn : v.isNullish = false) :
    (M.runGuards cs (M.eval no) s).1 = (M.reach l ls v s').1 ∧
      (M.runGuards cs (M.eval no) s).2.Agree names (M.reach l ls v s').2 := by
  induction cs generalizing current l ls s s' v with
  | nil =>
    obtain rfl := Option.some.inj hleads
    obtain ⟨k, hk, hcall, -, -⟩ := layer?_of_object? hno
    obtain ⟨rfl, rfl⟩ : k = l ∧ ls = [] := by
      have hone := (links_cons hk []).symm.trans hlinks
      simp only [List.cons.injEq, Prod.mk.injEq, and_true] at hone
      exact ⟨hone.1, hone.2.symm⟩
    have hlast := agree_access hM hno hcurrent hk hcall (hu (k, true) (by simp)) (fun w => alike_pure w) hs hv hn
    rwa [bind_pure, bind_pure] at hlast
  | cons c cs ih =>
    obtain ⟨name, hnext, hrest⟩ := Option.bind_eq_some_iff.1 hleads
    simp only [List.mem_cons, forall_eq_or_imp] at htemporaries
    rcases NullCheck.next?_cases hnext with ⟨hop, rfl⟩ | ⟨access, hop, ho⟩
    · -- The variable is checked once more, and is still not missing.
      rw [NullCheck.accesses_cons_reference hop] at hlinks
      have hguard : M.runGuards (c :: cs) (M.eval no) s = M.runGuards cs (M.eval no) s := by
        rw [runGuards, guard, hop, bind_ok (eval_variable hcurrent hv), hn]
        rfl
      rw [hguard]
      exact ih hcurrent hrest htemporaries.2 hlinks hu hs hv hn
    · -- A temporary is given a member of the variable, which becomes a link.
      have hname : name ∈ names := htemporaries.1 name (by simp [NullCheck.temporary?, hop, assignment?])
      obtain ⟨k, hk, hcall, -, -⟩ := layer?_of_object? ho
      obtain ⟨l', ls', hlinks', hcall'⟩ := NullCheck.exists_links (NullCheck.isSome_object?_of_leads hrest) (by rw [hno]; rfl)
      obtain ⟨rfl, rfl⟩ : k = l ∧ ls = (l', true) :: ls' := by
        rw [NullCheck.accesses_cons_assign hop, List.cons_append, links_cons hk, hlinks'] at hlinks
        simp only [List.cons.injEq, Prod.mk.injEq, and_true] at hlinks
        exact ⟨hlinks.1, hlinks.2.symm⟩
      rw [List.forall_mem_cons] at hu
      have hguard : M.runGuards (c :: cs) (M.eval no) = (do
          let w ← M.eval access
          setVariable name w
          if w.isNullish then pure .undefined else M.runGuards cs (M.eval no)) := by
        simp only [runGuards, guard, hop, eval_assign, bind_assoc, pure_bind]
      rw [hguard, reach_access hcall hcall']
      refine agree_access hM ho hcurrent hk hcall hu.1 (fun w => ?_) hs hv hn
      intro s s' hs
      have hset := State.agree_set hs hname w
      cases hw : w.isNullish with
      | true =>
        simp only [if_true]
        exact ⟨rfl, hset⟩
      | false =>
        simp only [Bool.false_eq_true, if_false]
        exact ih (fun h => hundefined (h ▸ hname)) hrest htemporaries.2 hlinks' hu.2 hset (by simp) hw

/-- A row of guards and its chain have the same outcome; in the end only the temporaries differ. -/
theorem close_chain {test yes no : Tree} {r : Replacement} (hr : (Tree.conditional test yes no).guardedChain = some r)
    (hrow : (Tree.conditional test yes no).IsRow) (hconsumed : r.consumed ⊆ names) (hu : ∀ n ∈ names, r.expr.Unread n) :
    Close names (M.eval (.conditional test yes no)) (M.eval r.expr) := by
  obtain ⟨hloose, c, cs, root, last, hcs, hop, hleads, hno⟩ := hrow
  obtain ⟨hyes, hchecks, hexpr, htemporaries⟩ := guardedChain_row hr hcs hloose hop hleads hno
  have haccess : no.object?.isSome = true := by rw [hno]; rfl
  obtain ⟨l, ls, hlinks, hcall⟩ := NullCheck.exists_links (NullCheck.isSome_object?_of_leads hleads) haccess
  rw [hlinks, closed_along] at hexpr
  have hroot : root ≠ "undefined" := by
    obtain ⟨g, -, hg⟩ := List.mem_filterMap.1 (show c ∈ test.checks by rw [hcs]; simp)
    exact NullCheck.ne_undefined hg hop
  have hparts : ∀ l' ∈ (l, true) :: ls, ∀ p ∈ l'.1.parts, ∀ n ∈ names, p.Unread n := by
    intro l' hl' p hp n hn
    have hopen : ((Tree.reference root).along ((l, true) :: ls)).Unread n :=
      unread_node rfl rfl (hexpr ▸ hu n hn) _ (by simp)
    exact (unread_along hopen).2 l' hl' p hp
  have htaken : ∀ c ∈ cs, ∀ n, c.temporary? = some n → n ∈ names := by
    intro c hc n hn
    refine hconsumed ?_
    rw [htemporaries]
    exact List.mem_flatMap.2 ⟨c, hc, by simp [hn]⟩
  have hchain : M.eval r.expr = (do
      let v ← M.readVariable root
      if v.isNullish then pure .undefined else M.reach l ls v) := by
    rw [hexpr, eval_chain, eval, refer_along, refer, if_neg (by simpa using hroot)]
    simp only [bind_assoc, pure_bind, M.follow_value, Bool.true_and]
  intro s
  rw [eval_row hchecks hloose hyes, hcs, runGuards, guard, hop, M.eval_reference hroot, hchain]
  cases hv : s.store.vars root with
  | none =>
    have hnone : M.readVariable root s = (.error (M.noVariable root), s) := by simp only [readVariable, hv]
    rw [bind_error hnone, bind_error hnone]
    exact ⟨rfl, State.agree_refl _ _⟩
  | some v =>
    have hsome : M.readVariable root s = (.ok v, s) := by simp only [readVariable, hv]
    rw [bind_ok hsome, bind_ok hsome]
    cases hn : v.isNullish with
    | true => exact ⟨rfl, State.agree_refl _ _⟩
    | false => exact agree_row hM hundefined hno hroot hleads htaken hlinks hparts (State.agree_refl _ _) hv hn

omit hM hundefined in
/-- What a pair of checks, or one loose check, decides about a value that is evaluated once. -/
theorem eval_notNullChecks {test : Tree} {first : NullCheck} {second : Option NullCheck} {name : String}
    (h : test.notNullChecks = some (first, second)) (hagrees : NullCheck.agrees name second = true)
    (htoken : first.token = .reference name) (hs : M.Settles first) {β : Type} (k : Bool → Eval W β) :
    (M.eval test >>= fun v => k (M.truthy v)) = (M.eval first.operand >>= fun v => k (!v.isNullish)) := by
  obtain ⟨p, q, b, rfl, ha, hb, hpair, rfl⟩ | ⟨hc, hn, hloose, -⟩ := notNullChecks_eq_some h
  · simp only [NullCheck.isStrictPair, Bool.and_eq_true, bne_iff_ne, ne_eq] at hpair
    obtain ⟨⟨⟨⟨han, hbn⟩, has⟩, hbs⟩, hne⟩ := hpair
    have hb' : b.operand = first.token := by
      rw [htoken]
      exact eq_of_asVariable? (by simpa [NullCheck.agrees] using hagrees)
    rw [eval_and_truthy, M.eval_check ha, M.eval_check hb]
    simp only [bind_assoc, pure_bind, truthy_bool, han, hbn, NullCheck.finds, has, hbs, if_true, Bool.bne_true, hb']
    refine M.bind_settled hs fun v s hv => ?_
    have hboth : v.isNullish = (v == first.compared.value || v == b.compared.value) := by
      cases hc : first.compared <;> cases hc' : b.compared <;>
        first | exact absurd (hc.trans hc'.symm) hne | (cases v <;> rfl)
    rw [hboth]
    cases v == first.compared.value with
    | true => rfl
    | false => exact bind_ok hv _
  · rw [M.eval_check hc]
    simp only [bind_assoc, pure_bind, truthy_bool, hn, hloose, NullCheck.finds, Bool.false_eq_true, if_false, Bool.bne_true]

omit hM hundefined in
/-- An expanded `??` has the value that it checks, or that of the fallback. -/
theorem eval_expanded {test : Tree} {first : NullCheck} {second : Option NullCheck} {name : String}
    (h : test.notNullChecks = some (first, second)) (hagrees : NullCheck.agrees name second = true)
    (htoken : first.token = .reference name) (hs : M.Settles first) (fallback : Tree) :
    M.eval (.conditional test (.reference name) fallback) = (do
      let v ← M.eval first.operand
      if v.isNullish then M.eval fallback else pure v) := by
  rw [eval_conditional, eval_notNullChecks h hagrees htoken hs fun holds =>
    if holds then M.eval (.reference name) else M.eval fallback]
  refine M.bind_settled hs fun v s hv => ?_
  rw [htoken] at hv
  cases hn : v.isNullish with
  | true => rfl
  | false => exact hv

end Machine

/-! ## The restored `??` -/

theorem Eval.map_fst {W α β : Type} (x : Eval W α) (f : α → β) (s : State W) :
    ((x >>= fun v => pure (f v)) s).1 = (x s).1.map f := by
  rcases hx : x s with ⟨_ | v, s'⟩
  · rw [bind_error hx]
    rfl
  · rw [bind_ok hx]
    rfl

/-- Where a chain is restored in front of `??`, its guards make a row. -/
def Tree.ChainIsRow (t : Tree) : Prop := ∀ test yes fallback name value r, t = .conditional test yes fallback →
  assignedGuard test yes = some (name, value) → value.guardedChain = some r → value.IsRow

/-- A restored `??` has the outcome of the expression it stands for, with the same trace and the same variables but for the
temporaries that it does not assign any more; and it evaluates the fallback exactly when that expression does. -/
theorem Tree.coalesce_exact {W : Type} (M : Machine W) {t : Tree} {r : Replacement} (h : t.coalesce = some r)
    (hrow : t.ChainIsRow) (hu : ∀ n ∈ r.consumed, r.expr.Unread n) (hundefined : "undefined" ∉ r.consumed)
    (hM : ∀ n ∈ r.consumed, M.Overlooks n) :
    ∃ test yes fallback left, t = .conditional test yes fallback ∧ r.expr = .logical .coalesce left fallback ∧ ∀ s,
      (M.eval t s).1 = (M.eval r.expr s).1 ∧ (M.eval t s).2.Agree r.consumed (M.eval r.expr s).2 ∧
      (M.eval test s).1.map M.truthy = (M.eval left s).1.map (!·.isNullish) := by
  obtain ⟨test, fallback, name, first, second, rfl, hchecks, hagrees, hcases⟩ := coalesce_eq_some h
  -- In either case the value that is checked goes on like the left side of the `??`.
  obtain ⟨left, hexpr, htoken, hsettles, hvalue, hfallback⟩ : ∃ left, r.expr = .logical .coalesce left fallback ∧
      first.token = .reference name ∧ M.Settles first ∧
      (∀ {β : Type} (f : Value → Eval W β), (∀ v, IdleAll r.consumed (f v) (f v)) →
        Close r.consumed (M.eval first.operand >>= f) (M.eval left >>= f)) ∧ ∀ n ∈ r.consumed, fallback.uses n = 0 := by
    rcases hcases with ⟨value, left, hguard, hop, hleft, hfallback, rfl⟩ | ⟨hop, rfl⟩
    · have hname : name ≠ "undefined" := fun h => hundefined (by simp [h])
      have hclose : Close (name :: left.consumed) (M.eval value) (M.eval left.expr) := by
        have hleftUnread := fun n hn => unread_node rfl rfl (hu n hn) left.expr (by simp)
        cases hchain : value.guardedChain with
        | none =>
          rw [hchain] at hleft
          obtain rfl := hleft
          exact close_refl _ _
        | some r =>
          rw [hchain] at hleft
          obtain rfl : r = left := hleft
          have hrow := hrow test _ fallback name value r rfl hguard hchain
          unfold IsRow at hrow
          split at hrow
          · exact Machine.close_chain hM hundefined hchain hrow (List.subset_cons_self ..) hleftUnread
          · exact hrow.elim
      refine ⟨left.expr, rfl, by simp only [NullCheck.token, hop, assignment?], M.settles_assign hop hname, fun f hf => ?_, hfallback⟩
      rw [hop, M.eval_assign]
      simp only [bind_assoc, pure_bind]
      exact hclose.bind_idleAll fun v => Machine.idleAll_dropped (by simp) (hf v) v
    · obtain ⟨g, hg⟩ := of?_of_notNullChecks hchecks
      refine ⟨.reference name, rfl, by simp only [NullCheck.token, hop, assignment?],
        M.settles_reference hop (NullCheck.ne_undefined hg hop), fun f _ => ?_, by simp⟩
      rw [hop]
      exact close_refl _ _
  have hidle : IdleAll r.consumed (M.eval fallback) (M.eval fallback) :=
    idleAll_of_idle fun n hn => (Machine.idle_of_unread (hM n hn) (.of_uses (hfallback n hn))).bind fun p =>
      Machine.idle_value (hM n hn).toIgnores p
  have hpure : ∀ {β : Type} (b : β), IdleAll r.consumed (pure b : Eval W β) (pure b) := fun b _ _ hs => ⟨rfl, hs⟩
  refine ⟨test, _, fallback, left, rfl, hexpr, fun s => ?_⟩
  have houtcome : Close r.consumed (M.eval (.conditional test (.reference name) fallback)) (M.eval r.expr) := by
    rw [Machine.eval_expanded hchecks hagrees htoken hsettles, hexpr, Machine.eval_coalesce]
    refine hvalue _ fun v => ?_
    cases v.isNullish with
    | true => exact hidle
    | false => exact hpure v
  refine ⟨(houtcome s).1, (houtcome s).2, ?_⟩
  rw [← map_fst, ← map_fst, Machine.eval_notNullChecks hchecks hagrees htoken hsettles]
  exact (hvalue (fun v => pure (!v.isNullish)) (fun v => hpure _) s).1

/-! ## Examples -/

namespace CoalesceWitness

/-- `null == t` -/
def isMissing (t : Tree) : Tree := .binary .eq .null t

/-- `null == (name = object.property)` -/
def assigns (name object property : String) : Tree :=
  isMissing (.assign .plain (.reference name) (.member (.reference object) property false))

/-- `null != (t = test ? void 0 : access) ? t : x` -/
def expanded (test access : Tree) : Tree :=
  .conditional
    (.binary .ne .null (.assign .plain (.reference "t") (.conditional test (.unary .void (.number .zero)) access)))
    (.reference "t") (.reference "x")

/-- `null == r || null == (n = r.a) || null == n || null == (o = n.b)` -/
def row : Tree :=
  .logical .or (.logical .or (isMissing (.reference "r")) (assigns "n" "r" "a"))
    (.logical .or (isMissing (.reference "n")) (assigns "o" "n" "b"))

/-- `r?.a?.b?.c ?? x` -/
def restored : Tree :=
  .logical .coalesce (.chain (.member (.member (.member (.reference "r") "a" true) "b" true) "c" true)) (.reference "x")

theorem chainIsRow : (expanded row (.member (.reference "o") "c" false)).ChainIsRow := by
  intro test yes fallback name value r ht hguard hchain
  obtain ⟨rfl, rfl, rfl⟩ : _ ∧ _ ∧ _ := by simpa [expanded] using ht
  obtain ⟨-, rfl⟩ := Prod.mk.inj (Option.some.inj hguard)
  refine ⟨?_, _, _, "r", "o", rfl, rfl, rfl, rfl⟩
  have hstrict : row.checks.map (·.strict) = [false, false, false, false] := rfl
  intro c hc
  have hmem := List.mem_map_of_mem (f := (·.strict)) hc
  rw [hstrict] at hmem
  simpa using hmem

/-- `null == r || null == (n = r.a) || null == (o = r.b)` -/
def forked : Tree :=
  .logical .or (.logical .or (isMissing (.reference "r")) (assigns "n" "r" "a")) (assigns "o" "r" "b")

/-- `r?.a?.c ?? x` -/
def shortened : Tree :=
  .logical .coalesce (.chain (.member (.member (.reference "r") "a" true) "c" true)) (.reference "x")

/-- A machine in which the property `b` of everything is missing, and every other one is `true`. -/
def withoutB : Machine Unit :=
  { Machine.constant (.other 0) with
    read := fun _ key s => (.ok (if key = .name "b" then .undefined else .bool true), s) }

theorem withoutB_overlooks (name : String) : withoutB.Overlooks name :=
  { Machine.constant_overlooks (.other 0) name with read := fun _ _ _ _ h => ⟨rfl, h⟩ }

end CoalesceWitness

open CoalesceWitness

/-- A row in which a temporary is checked once more. -/
theorem Tree.coalesce_exact_row :
    (expanded row (.member (.reference "o") "c" false)).coalesce = some ⟨restored, ["t", "n", "o"]⟩ ∧ ∀ s,
      ((Machine.constant (.other 0)).eval (expanded row (.member (.reference "o") "c" false)) s).1 =
        ((Machine.constant (.other 0)).eval restored s).1 := by
  have hr : (expanded row (.member (.reference "o") "c" false)).coalesce = some ⟨restored, ["t", "n", "o"]⟩ := rfl
  obtain ⟨_, _, _, _, -, -, hall⟩ := coalesce_exact (Machine.constant (.other 0)) hr chainIsRow (by decide) (by decide)
    fun n _ => Machine.constant_overlooks _ n
  exact ⟨hr, fun s => (hall s).1⟩

/-- A guard off the way from the root to the guarded access is lost, though it may stop the evaluation: where `r.b` is missing,
`null != (t = null == r || null == (n = r.a) || null == (o = r.b) ? void 0 : n.c) ? t : x` is `x`, and `r?.a?.c ?? x` is not. -/
theorem Tree.coalesce_exact_false : ¬ ∀ (t : Tree) (r : Replacement), t.coalesce = some r →
    (∀ test yes fallback name test' yes' no', t = .conditional test yes fallback →
      assignedGuard test yes = some (name, .conditional test' yes' no') → ∀ c ∈ test'.checks, c.strict = false) →
    (∀ n ∈ r.consumed, r.expr.Unread n) → ∀ (W : Type) (M : Machine W), (∀ n ∈ r.consumed, M.Overlooks n) →
    ∀ s v, (M.eval t s).1 = .ok v → (M.eval r.expr s).1 = .ok v := by
  intro h
  have hr : (expanded forked (.member (.reference "n") "c" false)).coalesce = some ⟨shortened, ["t", "n", "o"]⟩ := rfl
  have hloose : ∀ test yes fallback name test' yes' no', expanded forked (.member (.reference "n") "c" false) =
      .conditional test yes fallback → assignedGuard test yes = some (name, .conditional test' yes' no') →
      ∀ c ∈ test'.checks, c.strict = false := by
    intro test yes fallback name test' yes' no' ht hguard
    obtain ⟨rfl, rfl, rfl⟩ : _ ∧ _ ∧ _ := by simpa [expanded] using ht
    have hvalue := (Prod.mk.inj (Option.some.inj hguard)).2
    obtain ⟨rfl, -, -⟩ : forked = test' ∧ _ ∧ _ := by simpa using hvalue
    have hstrict : forked.checks.map (·.strict) = [false, false, false] := rfl
    intro c hc
    have hmem := List.mem_map_of_mem (f := (·.strict)) hc
    rw [hstrict] at hmem
    simpa using hmem
  have hvalue := h _ _ hr hloose (by decide) Unit withoutB (fun n _ => withoutB_overlooks n) .initial (.other 0) rfl
  have htrue : (withoutB.eval shortened .initial).1 = .ok (.bool true) := rfl
  rw [htrue] at hvalue
  exact absurd hvalue (by simp)

end Chainlift
