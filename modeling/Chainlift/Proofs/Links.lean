import Chainlift.Proofs.Guards
import Chainlift.Proofs.Plain

/-!
# Links on plain expressions

In a plain expression without explicit receivers the token of a guard stands at the base of the spine
(`Substitution.onSpine_matched`). With the operand in its place and a link on it, the expression does exactly what the guard did
(`Machine.eval_link`). When nothing else uses the temporary, its value can take the place of the operand
(`Machine.close_target`): a call by a link passes no object on, because a member access is unbound then.
-/

namespace Chainlift

open Tree Eval

/-! ## Where the token is found -/

namespace Substitution

variable {s : Substitution}

theorem onSpine_isLiteral {t : Tree} (h : t.isLiteral = true) : s.onSpine t = ⟨t, false⟩ := by
  obtain ⟨f, ps⟩ := t
  cases f <;> simp only [isLiteral, form, Bool.false_eq_true] at h <;> simp [onSpine]

/-- Under no layer and not the token, a plain expression has no token on its spine. -/
theorem onSpine_plain {t : Tree} (h : Plain false t) (hl : t.layers = []) : (s.onSpine t).matched = false := by
  cases h with
  | literal h => rw [onSpine_isLiteral h]
  | void h ht =>
    rename_i t
    have hc : ∀ u, t ≠ .chain u := by
      rintro u rfl
      exact absurd h (by simp [isLiteral, form])
    rw [onSpine.eq_7 s _ _ (fun u => hc _) hc]
    simp [onSpine_isLiteral h]
  | _ => first | rfl | simp_all [Tree.layers]

theorem isToken_isMember (hs : s.token.isName = true) {t : Tree} (h : t.isMember = true) : s.isToken t = false := by
  unfold isMember isAccess object? at h
  refine isToken_of_form hs ?_ ?_ ?_ <;> split at h <;> (try split at h) <;> simp_all [form]

/-- Under a call a member access is unbound. -/
theorem under_call {token v : Tree} (hs : token.isName = true) (args : List Tree) :
    under ⟨token, some v⟩ (.call args) = if v.isMember then v.unbound else v := by
  have hu : under ⟨token, some v⟩ (.call args) =
      if v.isMember && !isToken ⟨token, some v⟩ v then v.unbound else v := rfl
  cases hm : v.isMember with
  | false =>
    rw [hu, hm]
    rfl
  | true =>
    rw [hu, hm, isToken_isMember hs hm]
    rfl

theorem knownCall_plain (hs : s.token.isName = true) {t : Tree} (h : Plain false t) (hl : t.layers = []) (args : List Tree) :
    s.knownCall t args = .other := by
  cases h with
  | literal h =>
    unfold knownCall
    split
    · rename_i heq
      obtain rfl := (Tree.node.inj heq).1
      exact absurd h (by simp [isLiteral, form])
    · have hm : ∀ f : Form, ReceiverCall.splitMethod? (.node f []) = none := by
        intro f
        unfold ReceiverCall.splitMethod?
        split
        · rename_i heq
          exact absurd (Tree.node.inj heq).2 (by simp)
        · rfl
      simp [ReceiverCall.of?, hm]
  | unbound h ht => simp [knownCall, unboundCall, isToken_isMember hs h]
  | _ => first | rfl | simp_all [Tree.layers]

/-- In a plain expression without explicit receivers the token is found at the base of the spine, and the layer above it
becomes a link, whatever the target. -/
theorem onSpine_matched {token : Tree} (hs : token.isName = true) {t : Tree} (h : Plain false t) (hd : t.isDirect = true)
    {target : Option Tree} (hm : (onSpine ⟨token, target⟩ t).matched = true) :
    ∃ l link ls, t = token.along ((l, link) :: ls) ∧
      ∀ target, (onSpine ⟨token, target⟩ t).expr = (under ⟨token, target⟩ l).along ((l, true) :: ls) := by
  have ht := base_along_layers t
  have hbase := layers_base t
  by_cases hb : t.base.same token = true
  · have heq := h.base.eq_of_same hs hb
    rw [heq] at ht hb
    cases hl : t.layers with
    | nil =>
      have hbt : t.base = t := by rw [heq, ← ht, hl]; rfl
      rw [onSpine_plain h (hbt ▸ hbase)] at hm
      exact absurd hm (by simp)
    | cons l ls =>
      obtain ⟨l, link⟩ := l
      rw [hl] at ht
      refine ⟨l, link, ls, ht.symm, fun target => ?_⟩
      have hk := knownCall_plain (s := ⟨token, target⟩) hs h.base hbase
      rw [heq] at hk
      rw [← ht, onSpine_along_token (s := ⟨token, target⟩) hs hb hk (by rw [ht]; exact hd)]
  · have hb : isToken ⟨token, target⟩ t.base = false := by simpa [isToken] using hb
    rw [← ht, onSpine_along hs hb (fun _ => knownCall_plain hs h.base hbase) (by rw [ht]; exact hd),
      onSpine_plain h.base hbase] at hm
    exact absurd hm (by simp)

end Substitution

/-! ## One guard -/

namespace NullCheck

/-- What is checked has a value that can be had again: it is `this`, a variable, or assigned to one. -/
inductive IsSimple (c : NullCheck) : Prop where
  | this (h : c.operand = .this)
  | variable (name : String) (h : c.operand = .reference name) (hn : name ≠ "undefined")
  | assign (name : String) (v : Tree) (h : c.operand = .assign .plain (.reference name) v) (hn : name ≠ "undefined")
    (hv : Plain false v)

end NullCheck

/-- Without a use there is nothing to be unwrapped in a layer. -/
theorem Layer.unwrap_of_uses {name : String} {l : Layer} (h : ∀ p ∈ l.parts, p.uses name = 0) : l.unwrap name = l := by
  cases l with
  | index key => rw [Layer.unwrap, Tree.unwrap_of_uses (h key (by simp [Layer.parts]))]
  | call args =>
    have h : ∀ a ∈ args, a.uses name = 0 := h
    have hargs : args.map (Tree.unwrap name) = args := by
      simpa using List.map_congr_left (g := id) fun a ha => Tree.unwrap_of_uses (h a ha)
    rw [Layer.unwrap, hargs]
  | _ => rfl

namespace Machine

open NullCheck

variable {W : Type} {M : Machine W}

theorem refer_reference {name : String} (hn : name ≠ "undefined") :
    M.refer (.reference name) = (do
      let v ← M.eval (.reference name)
      pure (some (.value v))) := by
  rw [eval_reference M hn, refer]
  simp only [beq_iff_eq, hn, if_false]

theorem refer_assign (name : String) (t : Tree) : M.refer (.assign .plain (.reference name) t) = (do
    let v ← M.eval (.assign .plain (.reference name) t)
    pure (some (.value v))) := by
  rw [eval_assign, refer]
  simp only [eval, bind_assoc, pure_bind]

/-- A name, or an assignment, has no other referent than its value. -/
theorem refer_isSimple {c : NullCheck} (h : c.IsSimple) :
    M.refer c.operand = (do
      let v ← M.eval c.operand
      pure (some (.value v))) := by
  cases h with
  | this h => rw [h, eval_this, refer, pure_bind]
  | «variable» name h hn => rw [h, refer_reference hn]
  | assign name v h hn hv => rw [h, refer_assign]

theorem refer_token {c : NullCheck} (h : c.IsSimple) :
    M.refer c.token = (do
      let v ← M.eval c.token
      pure (some (.value v))) := by
  cases h with
  | this h => simp only [token, h, assignment?, eval_this, refer, pure_bind]
  | «variable» name h hn => simpa only [token, h, assignment?] using refer_reference hn
  | assign name v h hn hv => simpa only [token, h, assignment?] using refer_reference hn

theorem settles_isSimple {c : NullCheck} (h : c.IsSimple) : M.Settles c := by
  cases h with
  | this h =>
    intro s v s' hs
    have ht : c.token = c.operand := by simp only [token, h, assignment?]
    rw [h, eval_this] at hs
    rw [ht, h, eval_this]
    obtain ⟨hv, hs⟩ := Prod.mk.inj hs
    rw [← Except.ok.inj hv]
    rfl
  | «variable» name h hn => exact M.settles_reference h hn
  | assign name t h hn hv => exact M.settles_assign h hn

/-- A chain that goes on with the value of an expression. -/
theorem eval_along_link {t u : Tree} {l : Layer}
    (h : M.refer t >>= M.step true (M.apply l) = (do
      let v ← M.eval u
      if v.isNullish then pure none else M.apply l (.value v) v)) (ls : List (Layer × Bool)) :
    M.eval (t.along ((l, true) :: ls)) = (do
      let v ← M.eval u
      if v.isNullish then pure .undefined else M.reach l ls v) := by
  rw [eval, refer_along]
  have hf : M.follow ((l, true) :: ls) = fun p => M.step true (M.apply l) p >>= M.follow ls := rfl
  rw [hf, ← bind_assoc, h]
  simp only [bind_assoc]
  refine bind_congr fun v => ?_
  cases v.isNullish
  · rfl
  · simp only [if_true, pure_bind, follow_none]
    rfl

/-- A link on the operand does what the guard does. -/
theorem eval_link {c : NullCheck} (h : c.IsSimple) (l : Layer) (link : Bool) (ls : List (Layer × Bool)) :
    M.eval (c.operand.along ((l, true) :: ls)) = M.guard c.operand (M.eval (c.token.along ((l, link) :: ls))) := by
  have hop : M.eval (c.operand.along ((l, true) :: ls)) = (do
      let v ← M.eval c.operand
      if v.isNullish then pure .undefined else M.reach l ls v) := by
    refine eval_along_link ?_ ls
    rw [refer_isSimple h, bind_assoc]
    rfl
  have htok : M.eval (c.token.along ((l, link) :: ls)) = (do
      let w ← M.eval c.token
      if link && w.isNullish then pure .undefined else M.reach l ls w) := by
    rw [eval, refer_along, refer_token h]
    simp only [bind_assoc, pure_bind, follow_value]
  rw [hop, htok, guard, M.eval_settled (settles_isSimple h) Value.isNullish _
    fun _ w => if link && w.isNullish then pure .undefined else M.reach l ls w]
  refine bind_congr fun v => ?_
  cases v.isNullish <;> simp

/-! ### The target in the place of the operand -/

/-- No object is passed on: there is a value, or a chain has ended. -/
def IsValue (p : Option Referent) : Prop := ∀ q ∈ p, ∃ v, q = .value v

/-- Every outcome that is not thrown has the property. -/
def Yields {α : Type} (x : Eval W α) (P : α → Prop) : Prop := ∀ s a s', x s = (.ok a, s') → P a

theorem yields_pure {α : Type} {a : α} {P : α → Prop} (h : P a) : Yields (pure a : Eval W α) P := by
  intro s b s' hs
  rw [← Except.ok.inj (Prod.mk.inj hs).1]
  exact h

theorem Yields.bind {α β : Type} {x : Eval W α} {P : α → Prop} (hx : Yields x P) {f : α → Eval W β} {Q : β → Prop}
    (h : ∀ a, P a → Yields (f a) Q) : Yields (x >>= f) Q := by
  intro s b s' hs
  rcases hr : x s with ⟨_ | a, s₁⟩
  · rw [bind_error hr] at hs
    exact absurd (Prod.mk.inj hs).1 (by simp)
  · rw [bind_ok hr] at hs
    exact h a (hx s a s₁ hr) s₁ b s' hs

theorem yields_bind {α β : Type} (x : Eval W α) {f : α → Eval W β} {P : β → Prop} (h : ∀ a, Yields (f a) P) :
    Yields (x >>= f) P :=
  Yields.bind (P := fun _ => True) (fun _ _ _ _ => trivial) fun a _ => h a

theorem Yields.bind_congr {α β : Type} {x : Eval W α} {P : α → Prop} (hx : Yields x P) {f g : α → Eval W β}
    (h : ∀ a, P a → f a = g a) : (x >>= f) = (x >>= g) := by
  funext s
  rcases hr : x s with ⟨_ | a, s'⟩
  · rw [bind_error hr, bind_error hr]
  · rw [bind_ok hr, bind_ok hr, h a (hx s a s' hr)]

theorem yields_ite {α : Type} {x y : Eval W α} {P : α → Prop} (c : Bool) (hx : Yields x P) (hy : Yields y P) :
    Yields (if c = true then x else y) P := by
  cases c
  · exact hy
  · exact hx

theorem isValue_some (v : Value) : IsValue (some (.value v)) := fun _ hq => ⟨v, (Option.mem_some.1 hq).symm⟩

theorem isValue_none : IsValue none := fun _ hq => absurd hq (by simp)

theorem yields_value (x : Eval W Value) : Yields (do
    let v ← x
    pure (some (.value v))) IsValue :=
  yields_bind _ fun v => yields_pure (isValue_some v)

theorem yields_call (callee : Tree) (args : List Tree) (link : Bool) : Yields (M.refer (.call callee args link)) IsValue := by
  rw [refer]
  refine yields_bind _ fun p => ?_
  cases p with
  | none => exact yields_pure isValue_none
  | some p =>
    refine yields_bind _ fun v => ?_
    split
    · exact yields_pure isValue_none
    · exact yields_bind _ fun vs => yields_value _

/-- Only member accesses pass an object on. -/
theorem yields_refer {t : Tree} (h : Plain false t) (hm : t.isMember = false) : Yields (M.refer t) IsValue := by
  have hsome := fun v => yields_pure (W := W) (isValue_some v)
  cases h with
  | reference name =>
    rw [refer]
    split
    · exact hsome _
    · exact yields_value _
  | this =>
    rw [refer]
    exact hsome _
  | literal h =>
    obtain ⟨v, hv⟩ := M.refer_isLiteral h
    rw [hv]
    exact hsome v
  | void h ht =>
    rw [refer]
    exact yields_bind _ fun p => yields_bind _ fun v => hsome _
  | member => exact absurd hm (by simp [isMember, isAccess, object?])
  | privateMember => exact absurd hm (by simp [isMember, isAccess, object?])
  | index => exact absurd hm (by simp [isMember, isAccess, object?])
  | call link hc hargs => exact yields_call _ _ link
  | logical op ha hb =>
    rw [refer]
    refine yields_bind _ fun p => yields_bind _ fun v => ?_
    exact yields_ite _ (yields_bind _ fun q => yields_value _) (hsome v)
  | conditional hc hy hn =>
    rw [refer]
    refine yields_bind _ fun p => yields_bind _ fun v => ?_
    exact yields_ite _ (yields_bind _ fun q => yields_value _) (yields_bind _ fun q => yields_value _)
  | compare h ha hb =>
    obtain ⟨⟨strict, negated⟩, hk⟩ := Option.isSome_iff_exists.1 h
    rw [refer_comparison M hk]
    exact yields_bind _ fun v => yields_bind _ fun w => yields_bind _ fun r => hsome _
  | chain h ht =>
    unfold isLayered at h
    split at h
    · exact absurd hm (by simp [isMember, isAccess, object?])
    · exact absurd hm (by simp [isMember, isAccess, object?])
    · exact absurd hm (by simp [isMember, isAccess, object?])
    · rw [refer]
      refine (yields_call _ _ _).bind fun p hp => ?_
      cases p with
      | none => exact hsome _
      | some p =>
        obtain ⟨v, rfl⟩ := hp p rfl
        exact hsome v
    · exact absurd h (by simp)
  | unbound h ht =>
    rw [refer]
    exact yields_bind _ fun vs => hsome _

/-- A link on what may pass an object on. Only a call would take it. -/
theorem step_apply {l : Layer} (hl : ∀ args, l ≠ .call args) (p : Option Referent) :
    M.step true (M.apply l) p = (do
      let v ← M.value p
      if v.isNullish then pure none else M.apply l (.value v) v) := by
  cases p with
  | none => rfl
  | some p => cases l with
    | call args => exact absurd rfl (hl args)
    | _ => rfl

theorem step_isValue {p : Option Referent} (hp : IsValue p) (l : Layer) :
    M.step true (M.apply l) p = (do
      let v ← M.value p
      if v.isNullish then pure none else M.apply l (.value v) v) := by
  cases p with
  | none => rfl
  | some p =>
    obtain ⟨v, rfl⟩ := hp p rfl
    rfl

theorem refer_unbound {t : Tree} (h : ∀ u, t ≠ .spread u) : M.refer t.unbound = (do
    let v ← M.eval t
    pure (some (.value v))) := by
  have hz : M.eval (.number .zero) = pure (.number .zero) := by
    simp [eval, refer, literal?, form, value_value]
  rw [Tree.unbound, refer, valuesOf_cons (by simp), valuesOf_cons h, hz]
  simp only [pure_bind, bind_assoc, valuesOf]
  rfl

/-- In the place of the token the target is evaluated once, and passed on without its object. -/
theorem eval_under {token v : Tree} (hs : token.isName = true) (hv : Plain false v) (l : Layer) (ls : List (Layer × Bool)) :
    M.eval ((Substitution.under ⟨token, some v⟩ l).along ((l, true) :: ls)) = (do
      let w ← M.eval v
      if w.isNullish then pure .undefined else M.reach l ls w) := by
  refine eval_along_link ?_ ls
  cases l with
  | call args =>
    rw [Substitution.under_call hs]
    cases hm : v.isMember with
    | false =>
      rw [if_neg (by simp), eval, bind_assoc]
      exact (yields_refer hv hm).bind_congr fun p hp => step_isValue hp _
    | true =>
      rw [if_pos rfl, refer_unbound hv.ne_spread, bind_assoc]
      rfl
  | _ =>
    show M.refer v.opened >>= _ = _
    rw [← M.eval_opened v, eval, bind_assoc]
    exact bind_congr fun p => step_apply (by simp) p

variable {name : String} (hM : M.Ignores name)

include hM

theorem idle_apply {l : Layer} (hl : ∀ p ∈ l.parts, Plain false p ∧ p.Unread name) (p : Referent) (v : Value) :
    Idle name (M.apply l p v) (M.apply (l.unwrap name) p v) := by
  cases l with
  | index key =>
    have hk := hl key (by simp [Layer.parts])
    exact (idle_unwrap hM hk.1 hk.2).1.bind fun k => idle_some _
  | call args =>
    have hl : ∀ a ∈ args, Plain false a ∧ a.Unread name := hl
    refine (idle_valuesOf (fun a ha => (hl a ha).1) fun a ha => (idle_unwrap hM (hl a ha).1 (hl a ha).2).1).bind fun vs => ?_
    exact (idle_perform (hM.call v p.receiver vs) _).bind fun r => idle_some _
  | _ => exact idle_some _

theorem idle_follow {ls : List (Layer × Bool)} (hl : ∀ l ∈ ls, ∀ p ∈ l.1.parts, Plain false p ∧ p.Unread name)
    (p : Option Referent) : Idle name (M.follow ls p) (M.follow (ls.map fun l => (l.1.unwrap name, l.2)) p) := by
  induction ls generalizing p with
  | nil => exact idle_pure name p
  | cons l ls ih =>
    simp only [List.mem_cons, forall_eq_or_imp] at hl
    exact (idle_step hM (fun p v => idle_apply hM hl.1 p v) l.2 p).bind fun p => ih hl.2 p

/-- When nothing else uses the temporary, the target can take the place of its assignment. -/
theorem close_target {token v : Tree} (hs : token.isName = true) (hv : Plain false v)
    {l : Layer} {ls : List (Layer × Bool)} {link : Bool}
    (hl : ∀ k ∈ (l, link) :: ls, ∀ p ∈ k.1.parts, Plain false p ∧ p.uses name = 0) :
    Close [name] (M.eval ((Tree.assign .plain (.reference name) v).along ((l, true) :: ls)))
      (M.eval ((Substitution.under ⟨token, some v⟩ l).along ((l, true) :: ls))) := by
  have hop : M.eval ((Tree.assign .plain (.reference name) v).along ((l, true) :: ls)) = (do
      let w ← M.eval v
      setVariable name w
      if w.isNullish then pure .undefined else M.reach l ls w) := by
    rw [eval_along_link (u := .assign .plain (.reference name) v) (by rw [refer_assign, bind_assoc]; rfl), eval_assign]
    simp only [bind_assoc, pure_bind]
  rw [hop, eval_under hs hv]
  refine Close.bind _ fun w => (idle_dropped ?_ w).close
  refine idle_ite _ (idle_pure name _) ?_
  have hu : ∀ k ∈ (l, link) :: ls, ∀ p ∈ k.1.parts, Plain false p ∧ p.Unread name :=
    fun k hk p hp => ⟨(hl k hk p hp).1, .of_uses (hl k hk p hp).2⟩
  have hid : ∀ k ∈ (l, link) :: ls, k.1.unwrap name = k.1 := fun k hk => Layer.unwrap_of_uses fun p hp => (hl k hk p hp).2
  simp only [List.mem_cons, forall_eq_or_imp] at hu hid
  have ha := idle_apply hM hu.1 (.value w) w
  have hf := idle_follow hM hu.2
  have hmap : (ls.map fun l => (l.1.unwrap name, l.2)) = ls := by
    refine (List.map_congr_left fun k hk => ?_).trans (List.map_id ls)
    exact Prod.ext (hid.2 k hk) rfl
  rw [hid.1] at ha
  rw [hmap] at hf
  exact ha.bind fun p => (hf p).bind fun q => idle_value hM q

end Machine

end Chainlift
