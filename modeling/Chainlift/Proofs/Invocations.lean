import Chainlift.Proofs.Receivers
import Chainlift.Proofs.Search

/-!
# The function, its object and its arguments

A call that is rewritten invokes the same function, on the same object and with the same arguments, wherever it invokes one: on
the spine (`Machine.Standard.keeps_onSpine`) and when a temporary is folded (`Machine.Standard.keeps_foldCall`). Calls for which
there is no direct form, or whose receiver is another one, stay explicit (`Substitution.exists_explicit`).

That takes two things that are not looked at. What is evaluated between the object and the receiver must not set the receiver, as
the key in `o[o = x]` does; and what is called must not be a property in disguise, as `a.b!` is (`Substitution.KeepsReceiver`).
Without them the object can be another one (`Machine.Standard.keeps_calls_false`).
-/

namespace Chainlift

open Eval Tree

/-! ## Calls on the spine -/

namespace Tree

theorem unreadAll_call {names : List String} {callee : Tree} {args : List Tree} {link : Bool}
    (h : (Tree.call callee args link).UnreadAll names) : callee.UnreadAll names ∧ ∀ a ∈ args, a.UnreadAll names :=
  ⟨fun n hn => unread_node rfl rfl (h n hn) callee (by simp),
    fun a ha n hn => unread_node rfl rfl (h n hn) a (by simp [ha])⟩

/-- Whatever the object of an access is, the key is the same. -/
theorem unreadAll_key {names : List String} {access t : Tree} {link : Bool} (h : (access.onObject t link).UnreadAll names) :
    ∀ o key lk, access = .index o key lk → key.UnreadAll names := by
  rintro o key lk rfl n hn
  exact unread_node rfl rfl (h n hn) key (by simp)

end Tree

theorem Tree.eq_zero {t : Tree} (h : t.isZero = true) : t = .number .zero := by
  unfold isZero at h
  split at h
  · rw [beq_iff_eq.1 h]
  · exact absurd h (by simp)

theorem Method.eq_bind {word : String} (h : Method.ofName? word = some .bind) : word = "bind" := by
  unfold Method.ofName? at h
  split at h
  all_goals first | rfl | exact absurd h (by simp)

theorem Tree.isExplicit_member {word : String} {method : Method} {rest direct : List Tree}
    (hword : Method.ofName? word = some method) (hd : method.directArguments rest = some direct) (t : Tree) (link : Bool) :
    (Tree.member t word link).isExplicit = true :=
  directArguments_ofName? hword hd

namespace Substitution

variable {W : Type}

/-- The object that the rewritten call passes on is the receiver of the original one. A receiver that is named keeps its value
while the method is got, and what is called without an object is no property in disguise. -/
structure KeepsReceiver (s : Substitution) (M : Machine W) (name : String) (callee : Tree) (args : List Tree) : Prop where
  method : ∀ c, ReceiverCall.of? callee args = some c → s.isMethodOfToken c = true → c.method ≠ .bind → M.Steady name c.function
  stored : ∀ c n target, ReceiverCall.of? callee args = some c → s.isMethodOfToken c = false → s.target = some target →
    c.receiver = .reference n → n ≠ "undefined" ∧ n ≠ name ∧ M.Steady n target
  token : s.isToken callee = true → s.replacement.isMember = true ∨ s.replacement.place? [] false = none

variable {s : Substitution} {name : String}

theorem knownCall_of_of? {callee : Tree} {args : List Tree} {c : ReceiverCall} (h : ReceiverCall.of? callee args = some c) :
    s.knownCall callee args = if s.isMethodOfToken c then s.methodOfToken c else s.storedMethod c := by
  obtain ⟨word, rfl, -⟩ := ReceiverCall.eq_of_of? h
  simp only [knownCall, h]

theorem exists_of_knownCall_none {callee u : Tree} {args : List Tree} (hc : ReceiverCall.of? callee args = none)
    (h : s.knownCall callee args = .rewritten u) :
    ∃ zero inner, callee = .sequence [zero, inner] ∧ zero.isZero = true ∧ s.isToken inner = true ∧
      u = .call s.replacement.unbound args true := by
  have hknown := known_of_knownCall h
  cases hknown with
  | unbound args hz ht => exact ⟨_, _, rfl, hz, ht, rfl⟩
  | bind hc' => exact absurd (hc.symm.trans hc') (by simp)
  | method hc' => exact absurd (hc.symm.trans hc') (by simp)
  | stored hc' => exact absurd (hc.symm.trans hc') (by simp)

theorem unboundCallee_eq (hs : s.token.isName = true) :
    s.unboundCallee = if s.replacement.isMember then s.replacement.unbound else s.replacement := by
  have h : s.unboundCallee =
      if s.replacement.isMember && !s.isToken s.replacement then s.replacement.unbound else s.replacement := rfl
  cases hm : s.replacement.isMember with
  | false => rw [h, hm, Bool.false_and]
  | true => rw [h, hm, isToken_isMember hs hm, Bool.not_false, Bool.true_and]

theorem onSpine_of_knownCall {callee u : Tree} {args : List Tree} (link : Bool) (h : s.knownCall callee args = .rewritten u) :
    s.onSpine (.call callee args link) = ⟨u, true⟩ := by
  simp only [onSpine, h]

theorem onSpine_of_token (hn : s.isToken (.reference name) = true) (args : List Tree) (link : Bool) :
    s.onSpine (.call (.reference name) args link) = ⟨.call s.unboundCallee args true, true⟩ := by
  have hk : s.knownCall (.reference name) args = .other := by simp [knownCall, ReceiverCall.of?, ReceiverCall.splitMethod?]
  simp [onSpine, hk, hn]

end Substitution

/-! ## Calls that stay explicit -/

/-- The arguments of an explicit call have no direct form: there is a hole in the array, or the list is spread, or it is not the
last argument. -/
inductive Method.Indirect : Method → List Tree → Prop
  | hole (es : List Tree) {e : Tree} (he : e ∈ es) (h : e.form = .absent) : Indirect .apply [.array es]
  | spread (list : Tree) : Indirect .apply [.spread list]
  | surplus (list more : Tree) (rest : List Tree) : Indirect .apply (list :: more :: rest)

theorem Method.Indirect.directArguments_eq {m : Method} {rest : List Tree} (h : m.Indirect rest) :
    m.directArguments rest = none := by
  cases h with
  | hole es he h =>
    refine if_neg fun hall => ?_
    have := List.all_eq_true.1 hall _ he
    simp [h] at this
  | spread list => rfl
  | surplus list more rest =>
    show appliedArguments (list :: more :: rest) = none
    unfold appliedArguments
    split
    all_goals first | rfl | simp_all

namespace Substitution

variable {s : Substitution} {name : String} {callee : Tree} {args : List Tree} {c : ReceiverCall}

/-- An explicit call without a direct form, or with a receiver that is not the object of the method, stays explicit. -/
theorem exists_explicit (htoken : s.token = .reference name) (hc : ReceiverCall.of? callee args = some c)
    (hmethod : c.method ≠ .bind) (h : c.method.Indirect c.rest ∨ s.isMethodOfToken c = false ∧
      ∀ target o, s.target = some target → target.object? = some o → s.isToken c.function = true →
        ReceiverCall.isReceiverOf c.receiver o = false) (link : Bool) :
    ∃ function word linked, Method.ofName? word = some c.method ∧
      (s.onSpine (.call callee args link)).expr = .call (.member function word linked) args link := by
  obtain ⟨word, rfl, hword, rfl⟩ := ReceiverCall.eq_of_of? hc
  have hname : s.token.isName = true := by rw [htoken]; rfl
  have hcallee : s.isToken (.member c.function word false) = false :=
    isToken_of_form hname (by simp [form]) (by simp [form]) (by simp [form])
  cases hk : s.knownCall (.member c.function word false) (c.receiver :: c.rest) with
  | refused => exact ⟨c.function, word, false, hword, by simp only [onSpine, hk]⟩
  | other =>
    cases ht : s.isToken c.function with
    | true => exact ⟨_, _, _, hword, by simp only [onSpine, hk, hcallee, ht]; rfl⟩
    | false => exact ⟨_, _, _, hword, by simp only [onSpine, hk, hcallee, ht]; rfl⟩
  | rewritten u =>
    rw [knownCall_of_of? hc] at hk
    obtain ⟨direct, hd, hreceiver⟩ : ∃ direct, c.method.directArguments c.rest = some direct ∧
        (s.isMethodOfToken c = false → ∃ target o, s.target = some target ∧ target.object? = some o ∧
          s.isToken c.function = true ∧ ReceiverCall.isReceiverOf c.receiver o = true) := by
      split at hk
      · rename_i hm
        unfold methodOfToken at hk
        split at hk
        · rename_i hbind
          exact absurd hbind hmethod
        · obtain ⟨direct, hd, -⟩ := ofArguments_eq hk
          exact ⟨direct, hd, fun hnot => absurd hm (by simp [hnot])⟩
      · obtain ⟨target, o, direct, htarget, ho, hf, hr, hd, -⟩ := exists_of_storedMethod hk
        exact ⟨direct, hd, fun _ => ⟨target, o, htarget, ho, hf, hr⟩⟩
    rcases h with hindirect | ⟨hm, hother⟩
    · exact absurd (hindirect.directArguments_eq.symm.trans hd) (by simp)
    · obtain ⟨target, o, htarget, ho, hf, hr⟩ := hreceiver hm
      exact absurd (hother target o htarget ho hf) (by simp [hr])

end Substitution

/-- So it is with folding. -/
theorem foldCall_of_explicit {name word : String} {function receiver : Tree} {rest : List Tree} {linked : Bool}
    {method : Method} (hword : Method.ofName? word = some method) (h : method.Indirect rest ∨ receiver ≠ .reference name)
    (link : Bool) : foldCall name (.call (.member function word linked) (receiver :: rest) link) =
      .call (.member function word linked) (receiver :: rest) link := by
  by_contra hfold
  obtain ⟨_, _, _, _, _, method', _, direct, hcallee, hword', -, -, hargs, hd, -⟩ := exists_of_foldCall hfold
  obtain ⟨hform, -⟩ := Tree.node.inj hcallee
  obtain ⟨rfl, -⟩ := Form.member.inj hform
  obtain ⟨hreceiver, rfl⟩ := List.cons.inj hargs
  obtain rfl : method = method' := Option.some.inj (hword.symm.trans hword')
  rcases h with h | h
  · exact absurd (h.directArguments_eq.symm.trans hd) (by simp)
  · exact absurd hreceiver h

/-! ## The same invocation -/

namespace Machine

variable {W : Type} {M : Machine W}

/-- Wherever the call invokes a function, the other expression is a call that invokes it on the same object and with the same
arguments. -/
def Standard.Keeps (std : M.Standard) (before : Eval W Unit) (callee : Tree) (args : List Tree) (link : Bool) (u : Tree) :
    Prop :=
  ∀ s j, std.Reaches before callee args link s j →
    ∃ callee' args' link' s', u = .call callee' args' link' ∧ M.approach callee' args' link' s = (.ok (some j), s')

theorem Standard.Keeps.approach_eq {std : M.Standard} {before : Eval W Unit} {callee callee' : Tree} {args args' : List Tree}
    {link link' : Bool} (h : std.Keeps before callee args link (.call callee' args' link')) {s : State W} {j : Invocation}
    (hj : std.Reaches before callee args link s j) : (M.approach callee' args' link' s).1 = .ok (some j) := by
  obtain ⟨_, _, _, _, hcall, happroach⟩ := h s j hj
  obtain ⟨hform, hps⟩ := Tree.node.inj hcall
  obtain rfl := Form.call.inj hform
  obtain ⟨rfl, rfl⟩ := List.cons.inj hps
  rw [happroach]

/-- Then the other expression does what the invocation does. -/
theorem Standard.Keeps.exists_enter {std : M.Standard} {before : Eval W Unit} {callee u : Tree} {args : List Tree} {link : Bool}
    (h : std.Keeps before callee args link u) {s : State W} {j : Invocation} (hj : std.Reaches before callee args link s j) :
    ∃ s', M.refer u s = M.enter j (.call j.function j.this j.args) s' := by
  obtain ⟨_, _, _, s', rfl, happroach⟩ := h s j hj
  exact ⟨s', refer_call_of_approach happroach⟩

section OnSpine

variable {std : M.Standard} {s : Substitution} {names : List String} {name : String} {v : Value} {st s₁ s₂ s' : State W}
  {callee : Tree} {args : List Tree} {link : Bool} {i j : Invocation} (hn : name ≠ "undefined")
  (hs : M.Stored names s.replacement name v st s₁ s₂) (hR : M.RespectsIn (Like names) (UnreadAll names))

include hn hs hR

/-- `(0, t)(…)` -/
theorem Stored.approach_unbound {zero : Tree} (hz : zero.isZero = true) (htarget : s.replacement.form.isExpression = true)
    (hargs : ∀ a ∈ args, a.UnreadAll names) (hnullish : i.function.isNullish = false)
    (hi : M.approach (.sequence [zero, .reference name]) args link s₁ = (.ok (some i), s')) :
    ∃ n, M.approach s.replacement.unbound args true st = (.ok (some i), n) := by
  have hcallee : M.refer (.sequence [zero, .reference name]) s₁ = (.ok (some (.value v)), s₁) := by
    rw [eq_zero hz, ← Tree.unbound, Machine.refer_unbound (by simp), eval_reference M hn,
      bind_ok (readVariable_ok.2 ⟨hs.vars, rfl⟩)]
    rfl
  obtain ⟨_, -, hfunction⟩ := exists_of_approach_value hcallee hi
  have hv : v.isNullish = false := by rwa [hfunction] at hnullish
  exact hs.approach_value hR hcallee (hs.refer_unbound (ne_spread htarget)) hv hargs hi

/-- `t.m.call(t, …)`, `t.m.apply(t, …)` and `t.m.bind(t, …)` -/
theorem Stored.approach_methodOfToken {c : ReceiverCall} {u : Tree} {word : String} (hword : Method.ofName? word = some c.method)
    (hbare : ∀ t ∈ (Tree.call (.member c.function word false) (c.receiver :: c.rest) link).nodes, s.isToken t = true →
      t = .reference name) (hm : s.isMethodOfToken c = true) (hu : s.methodOfToken c = .rewritten u) (hunread : u.UnreadAll names)
    (hsteady : c.method ≠ .bind → M.Steady name c.function) (hcallable : std.callable j.function)
    (hi : M.approach (.member c.function word false) (c.receiver :: c.rest) link s₁ = (.ok (some i), s'))
    (hj : if (Tree.member c.function word false).isExplicit then std.Makes s'.store i j else i = j) :
    ∃ callee' args' link' n, u = .call callee' args' link' ∧ M.approach callee' args' link' st = (.ok (some j), n) := by
  rw [Substitution.isMethodOfToken, Bool.and_eq_true, Option.any_eq_true] at hm
  obtain ⟨⟨o, ho, hobject⟩, hreceived⟩ := hm
  obtain rfl := hbare o (mem_nodes_part List.mem_cons_self (mem_nodes_part (by simp) (mem_nodes_object ho))) hobject
  have hthis := hbare c.receiver (mem_nodes_part (by simp) (mem_nodes_self _)) hreceived
  rw [← onObject_isLink ho] at hi
  have hx : M.eval s.replacement.opened st = (.ok v, s₂) := by rw [eval_opened, hs.eval]
  have ht : ∀ w m, M.openValue (.reference name) s₁ = (.ok (some w), m) → w = v ∧ m = s₁ := by
    intro w m h
    rw [hs.openValue_reference hn] at h
    obtain ⟨hw, rfl⟩ := Prod.mk.inj h
    exact ⟨(Option.some.inj (Except.ok.inj hw)).symm, rfl⟩
  rw [Substitution.methodOfToken] at hu
  split at hu
  · rename_i hbind
    obtain rfl := Substitution.Outcome.rewritten.inj hu
    rw [hbind] at hword
    obtain rfl := Method.eq_bind hword
    obtain rfl : i = j := hj
    obtain ⟨hfunction, hargs⟩ := unreadAll_call hunread
    have hkey := unreadAll_key fun n hn => unread_node rfl rfl (hfunction n hn) _ (List.mem_singleton_self _)
    obtain ⟨n, happroach⟩ := Standard.approach_method_of hR ho hkey ht hx hs.like hargs hi
    exact ⟨_, _, _, n, rfl, happroach⟩
  · rename_i hbind
    obtain ⟨direct, hd, rfl⟩ := Substitution.ofArguments_eq hu
    rw [if_pos (isExplicit_member hword hd _ _)] at hj
    obtain ⟨hfunction, hargs⟩ := unreadAll_call hunread
    rw [hthis] at hi
    obtain ⟨n, happroach⟩ := Standard.approach_method hR ho (unreadAll_key hfunction) ht hx hs.like hword hd hn hs.vars
      (hsteady hbind) hargs hi hj hcallable
    exact ⟨_, _, _, n, rfl, happroach⟩

end OnSpine

/-- What becomes of a call on the spine invokes what the call does. -/
theorem Standard.keeps_onSpine (std : M.Standard) {s : Substitution} {name : String} {callee : Tree} {args : List Tree}
    {link : Bool} (htoken : s.token = .reference name) (hn : name ≠ "undefined")
    (htarget : s.replacement.form.isExpression = true)
    (hbare : ∀ t ∈ (Tree.call callee args link).nodes, s.isToken t = true → t = .reference name)
    (h : s.isToken callee = true ∨ ∃ u, s.knownCall callee args = .rewritten u)
    (hunread : s.replacement.Stores name ∨ M.Overlooks name ∧ (s.onSpine (.call callee args link)).expr.Unread name)
    (hreceiver : s.KeepsReceiver M name callee args) :
    std.Keeps (M.store s.replacement name) callee args link (s.onSpine (.call callee args link)).expr := by
  rintro st j ⟨hcallable, i, s', hi, hj⟩
  obtain ⟨_, s₁, hstore, hi⟩ := of_bind_ok hi
  obtain ⟨v, s₂, heval, hvars, hname, hsame⟩ := exists_of_store hstore
  -- a variable that is not stored any more is not read any more
  obtain ⟨names, hM, hu, hlike⟩ : ∃ names : List String, (∀ n ∈ names, M.Overlooks n) ∧
      (s.onSpine (.call callee args link)).expr.UnreadAll names ∧ Like names s₁ s₂ := by
    rcases hunread with hstores | ⟨hM, hu⟩
    · exact ⟨[], by simp, by simp [UnreadAll], hsame (vars_of_eval hstores hn heval)⟩
    · exact ⟨[name], by simpa using hM, by simpa [UnreadAll] using hu, hname⟩
  have hR := std.respectsIn hM
  have hs : M.Stored names s.replacement name v st s₁ s₂ := ⟨heval, hvars, hlike, hname⟩
  rcases h with hcallee | ⟨u, hknown⟩
  · obtain rfl := hbare callee (mem_nodes_part (by simp) (mem_nodes_self _)) hcallee
    obtain rfl : i = j := hj
    rw [Substitution.onSpine_of_token hcallee, Substitution.unboundCallee_eq (by rw [htoken]; rfl)] at hu ⊢
    obtain ⟨n, happroach⟩ := hs.approach_token hR hn (hreceiver.token hcallee) (unreadAll_call hu).2
      (std.not_nullish _ hcallable) hi
    exact ⟨_, _, _, n, rfl, happroach⟩
  rw [Substitution.onSpine_of_knownCall link hknown] at hu ⊢
  cases hc : ReceiverCall.of? callee args with
  | none =>
    obtain ⟨zero, inner, rfl, hz, ht, rfl⟩ := Substitution.exists_of_knownCall_none hc hknown
    obtain rfl := hbare inner (mem_nodes_part List.mem_cons_self (mem_nodes_part (by simp) (mem_nodes_self _))) ht
    obtain rfl : i = j := hj
    obtain ⟨n, happroach⟩ := hs.approach_unbound hn hR hz htarget (unreadAll_call hu).2 (std.not_nullish _ hcallable) hi
    exact ⟨_, _, _, n, rfl, happroach⟩
  | some c =>
    obtain ⟨word, rfl, hword, rfl⟩ := ReceiverCall.eq_of_of? hc
    rw [Substitution.knownCall_of_of? hc] at hknown
    cases hm : s.isMethodOfToken c with
    | true =>
      rw [hm, if_pos rfl] at hknown
      exact hs.approach_methodOfToken hn hR hword hbare hm hknown hu (hreceiver.method c hc hm) hcallable hi hj
    | false =>
      rw [hm, if_neg (by simp)] at hknown
      obtain ⟨target, o, direct, htarget', ho, hfunction, hr, hd, rfl⟩ := Substitution.exists_of_storedMethod hknown
      have hx : s.replacement = target := by rw [Substitution.replacement, htarget', Option.getD_some]
      rw [hbare c.function (mem_nodes_part List.mem_cons_self (mem_nodes_part (by simp) (mem_nodes_self _))) hfunction] at hi
      rw [hx] at hs
      rw [if_pos (isExplicit_member hword hd _ _)] at hj
      obtain ⟨n, happroach⟩ := hs.approach_stored hR ho hword hd hn hr (fun n hreceived =>
        hreceiver.stored c n target hc hm htarget' hreceived) (unreadAll_call hu).2 hi hj hcallable
      exact ⟨_, _, _, n, rfl, happroach⟩

/-- A folded call invokes what the call does. -/
theorem Standard.keeps_foldCall (std : M.Standard) {name : String} {callee : Tree} {args : List Tree} {link : Bool}
    (hn : name ≠ "undefined") (hM : M.Overlooks name) (hfold : foldCall name (.call callee args link) ≠ .call callee args link)
    (hunread : (foldCall name (.call callee args link)).Unread name)
    (hsteady : ∀ function word linked, callee = .member function word linked → M.Steady name function) :
    std.Keeps (pure ()) callee args link (foldCall name (.call callee args link)) := by
  rintro st j ⟨hcallable, i, s', hi, hj⟩
  rw [pure_bind] at hi
  obtain ⟨function, word, linked, object, value, method, rest, direct, rfl, hword, ho, ha, rfl, hd, heq⟩ :=
    exists_of_foldCall hfold
  rw [heq] at hunread ⊢
  rw [if_pos (isExplicit_member hword hd _ _)] at hj
  have hobject : (Tree.member function word linked).object? = some function := rfl
  obtain ⟨m, _, hfunction, -, -⟩ := exists_of_approach_access hobject hi
  rw [eq_of_assignment? ha] at ho
  rw [← onObject_isLink ho] at hi hfunction
  obtain ⟨v, s₁, hassigned, -⟩ := exists_of_openValue_access ho hfunction
  obtain ⟨heval, hstore⟩ := exists_of_openValue_assign hassigned
  obtain ⟨w, s₂, hvalue, hvars, hlike, -⟩ := exists_of_store hstore
  obtain rfl : v = w := heval w s₂ hvalue
  have ht : ∀ w m, M.openValue (.assign .plain (.reference name) value) st = (.ok (some w), m) → w = v ∧ m = s₁ := by
    intro w m h
    rw [hassigned] at h
    obtain ⟨hw, rfl⟩ := Prod.mk.inj h
    exact ⟨(Option.some.inj (Except.ok.inj hw)).symm, rfl⟩
  have hunreadAll : (Tree.call (function.onObject value function.isLink) direct (link || linked)).UnreadAll [name] := by
    simpa [UnreadAll] using hunread
  obtain ⟨hkey, hdirect⟩ := unreadAll_call hunreadAll
  have hR : M.RespectsIn (Like [name]) (UnreadAll [name]) := std.respectsIn (by simpa using hM)
  obtain ⟨n, happroach⟩ := Standard.approach_method hR ho (unreadAll_key hkey) ht hvalue hlike hword hd hn hvars
    (hsteady function word linked rfl) hdirect hi hj hcallable
  exact ⟨_, _, _, n, rfl, happroach⟩

/-- A call that is rewritten on the spine, with any target stored in the token, and a call that is folded invoke what they did
before, on the same object and with the same arguments; so they do if nothing sets a named receiver before it is read and nothing
is a property in disguise. The variable is stored on, or it is not read any more. Calls without a direct form or with other
receivers stay explicit. -/
theorem Standard.keeps_calls (std : M.Standard) {name : String} (hn : name ≠ "undefined") (callee : Tree) (args : List Tree)
    (link : Bool) :
    (∀ s : Substitution, s.token = .reference name →
      (s.replacement.form.isExpression = true →
        (∀ t ∈ (Tree.call callee args link).nodes, s.isToken t = true → t = .reference name) →
        (s.isToken callee = true ∨ ∃ u, s.knownCall callee args = .rewritten u) →
        s.replacement.Stores name ∨ M.Overlooks name ∧ (s.onSpine (.call callee args link)).expr.Unread name →
        s.KeepsReceiver M name callee args →
        std.Keeps (M.store s.replacement name) callee args link (s.onSpine (.call callee args link)).expr) ∧
      ∀ c, ReceiverCall.of? callee args = some c → c.method ≠ .bind →
        (c.method.Indirect c.rest ∨ s.isMethodOfToken c = false ∧
          ∀ target o, s.target = some target → target.object? = some o → s.isToken c.function = true →
            ReceiverCall.isReceiverOf c.receiver o = false) →
        ∃ function word linked, Method.ofName? word = some c.method ∧
          (s.onSpine (.call callee args link)).expr = .call (.member function word linked) args link) ∧
    (foldCall name (.call callee args link) ≠ .call callee args link → M.Overlooks name →
      (foldCall name (.call callee args link)).Unread name →
      (∀ function word linked, callee = .member function word linked → M.Steady name function) →
      std.Keeps (pure ()) callee args link (foldCall name (.call callee args link))) ∧
    ∀ function word linked receiver rest method, callee = .member function word linked → Method.ofName? word = some method →
      args = receiver :: rest → (method.Indirect rest ∨ receiver ≠ .reference name) →
      foldCall name (.call callee args link) = .call callee args link := by
  refine ⟨fun s htoken => ⟨fun htarget hbare h hunread hreceiver => ?_, fun c hc hmethod h => ?_⟩,
    fun hfold hM hunread hsteady => ?_, ?_⟩
  · exact std.keeps_onSpine htoken hn htarget hbare h hunread hreceiver
  · exact Substitution.exists_explicit htoken hc hmethod h link
  · exact std.keeps_foldCall hn hM hfold hunread hsteady
  · rintro function word linked receiver rest method rfl hword rfl h
    exact foldCall_of_explicit hword h link

/-! ## A machine with one function -/

theorem eval_literal {t : Tree} {v : Value} (h : t.literal? = some v) : M.eval t = pure v := by
  obtain ⟨f, ps⟩ := t
  have ho : f.isOpened ps = false := by
    unfold literal? form at h
    cases f <;> first | rfl | exact absurd h (by simp)
  rw [eval, refer_of_not_isOpened M ho, unopened, h]
  rfl

theorem valuesOf_literals {ts : List Tree} {vs : List Value} (h : ts.mapM literal? = some vs) : M.valuesOf ts = pure vs := by
  induction ts generalizing vs with
  | nil =>
    obtain rfl : [] = vs := by simpa using h
    rfl
  | cons t ts ih =>
    rw [List.mapM_cons] at h
    simp only [Option.bind_eq_bind, Option.bind_eq_some_iff] at h
    obtain ⟨v, hv, ws, hws, heq⟩ := h
    obtain rfl := Option.some.inj heq
    have hspread : ∀ u, t ≠ .spread u := by
      rintro u rfl
      exact absurd hv (by simp [literal?, form])
    rw [valuesOf_cons hspread, eval_literal hv, ih hws]
    rfl

end Machine

namespace InvocationWitness

def function : Value := .other 0

def call : Value := .other 1

def apply : Value := .other 2

/-- An array is known by its place in the world. -/
def elements (s : Store (List (List Value))) : Value → Option (List Value)
  | .other id => if id < 10 then none else s.world[id - 10]?
  | _ => none

/-- All properties are one function, but for its two methods. There are arrays of literals, and nothing else is left to the
machine. -/
def machine : Machine (List (List Value)) where
  this := .undefined
  truthyOther _ := true
  read object key s :=
    (.ok (if object = function ∧ key = .name "call" then call else if object = function ∧ key = .name "apply" then apply
      else function), s)
  write _ _ _ s := (.ok (), s)
  remove _ _ s := (.ok true, s)
  call _ _ _ s := (.ok .undefined, s)
  iterate v s := (.ok ((elements s v).getD []), s)
  looselyEqual _ _ s := (.ok false, s)
  strictlyEqual a b := a == b
  noObject := .undefined
  noVariable _ := .undefined
  other t := fun s => match t with
    | .array es => match es.mapM Tree.literal? with
      | some vs => (.ok (.other (10 + s.store.world.length)), { s with store.world := s.store.world ++ [vs] })
      | none => (.error .undefined, s)
    | _ => (.error .undefined, s)

theorem other_trace (t : Tree) (s : State (List (List Value))) : (machine.other t s).2.trace = s.trace := by
  unfold machine
  simp only
  split
  · split <;> rfl
  · rfl

theorem other_congr (t : Tree) {names : List String} {s s' : State (List (List Value))} (h : s.store.Agree names s'.store) :
    (machine.other t s).1 = (machine.other t s').1 ∧ (machine.other t s).2.store.Agree names (machine.other t s').2.store := by
  unfold machine
  simp only
  split
  · split
    · exact ⟨by rw [h.1], by simp [h.1], h.2⟩
    · exact ⟨rfl, h⟩
  · exact ⟨rfl, h⟩

def standard : machine.Standard where
  callable v := v = function
  call := call
  apply := apply
  elements := elements
  call_ne_apply := by decide
  not_nullish := by
    rintro _ rfl
    rfl
  read_call := by
    rintro _ s rfl
    rfl
  read_apply := by
    rintro _ s rfl
    rfl
  call_call _ _ _ _ _ := rfl
  call_apply _ _ _ _ := rfl
  call_applyArray _ _ _ _ _ _ _ _ := rfl
  iterate v s vs h := by simp [machine, h]
  array es s v s' _ h := by
    cases hvs : es.mapM Tree.literal? with
    | none =>
      simp only [machine, hvs] at h
      exact absurd (Prod.mk.inj h).1 (by simp)
    | some vs =>
      simp only [machine, hvs] at h
      obtain ⟨hv, rfl⟩ := Prod.mk.inj h
      rw [← Except.ok.inj hv]
      exact ⟨vs, s, by rw [Machine.valuesOf_literals hvs]; rfl, by simp [elements]⟩
  other t := by
    rintro ⟨store, trace⟩ ⟨_, trace'⟩ rfl
    unfold machine
    simp only
    split
    · split <;> exact ⟨rfl, rfl⟩
    · exact ⟨rfl, rfl⟩

theorem overlooks (name : String) : machine.Overlooks name where
  read _ _ _ _ h := ⟨rfl, h⟩
  call _ _ _ _ _ h := ⟨rfl, h⟩
  looselyEqual _ _ _ _ h := ⟨rfl, h⟩
  write _ _ _ _ _ h := ⟨rfl, h⟩
  remove _ _ _ _ h := ⟨rfl, h⟩
  iterate v s s' h := by
    have hsame : elements s v = elements s' v := by
      unfold elements
      rw [h.1]
    exact ⟨by simp [machine, hsame], h⟩
  other t _ s s' h := by
    obtain ⟨hr, hstore⟩ := other_congr t h.1
    refine ⟨hr, hstore, ?_⟩
    rw [other_trace, other_trace]
    exact h.2

theorem steady (name : String) (t : Tree) (word : String) (link : Bool) : machine.Steady name (.member t word link) := by
  intro object f s s' h
  have hget : machine.get (.property object (.name word)) s = (.ok f, s') := h
  rw [Machine.get, Machine.not_nullish_of_member h, if_neg (by simp)] at hget
  obtain rfl := (Prod.mk.inj hget).2
  rfl

/-- `o`, `x` and `t` are different objects. -/
def start : State (List (List Value)) :=
  ⟨⟨fun name => some (.other (if name == "o" then 3 else if name == "x" then 4 else 5)), []⟩, []⟩

/-- `t.m.apply(t, [1])`, with `o` in `t`. -/
def applied : Tree := .member (.member (.reference "t") "m" false) "apply" false

/-- `(t = o).m.call(t, 1)` -/
def assigned : Tree :=
  .member (.member (.assign .plain (.reference "t") (.reference "o")) "m" false) "call" false

/-- `t.call(o, 1)`, with `o[o = x]` in `t`. -/
def reassigned : Substitution :=
  ⟨.reference "t", some (.index (.reference "o") (.assign .plain (.reference "o") (.reference "x")) false)⟩

/-- `t(1)`, with `o.m!` in `t`. -/
def disguised : Substitution := ⟨.reference "t", some (.nonNull (.member (.reference "o") "m" false))⟩

end InvocationWitness

open InvocationWitness

namespace Machine

theorem Standard.keeps_calls_apply :
    standard.Keeps (machine.store (.reference "o") "t") applied [.reference "t", .array [.number .one]] false
      (.call (.member (.reference "o") "m" true) [.number .one] true) ∧
    standard.Reaches (machine.store (.reference "o") "t") applied [.reference "t", .array [.number .one]] false start
      ⟨function, .other 3, [.number .one]⟩ ∧
    standard.Keeps (pure ()) assigned [.reference "t", .number .one] false
      (.call (.member (.reference "o") "m" false) [.number .one] false) ∧
    standard.Reaches (pure ()) assigned [.reference "t", .number .one] false start ⟨function, .other 3, [.number .one]⟩ := by
  have hn : "t" ≠ "undefined" := by decide
  refine ⟨?_, ⟨rfl, _, _, rfl, ?_⟩, ?_, ⟨rfl, _, _, rfl, ?_⟩⟩
  · refine ((standard.keeps_calls hn applied [.reference "t", .array [.number .one]] false).1
      ⟨.reference "t", some (.reference "o")⟩ rfl).1 rfl (by decide) (.inr ⟨_, rfl⟩) (.inr ⟨overlooks "t", by decide⟩)
      ⟨?_, ?_, ?_⟩
    · intro c hc _ _
      obtain rfl := Option.some.inj hc
      exact steady "t" _ "m" false
    · intro c n target hc hm
      obtain rfl := Option.some.inj hc
      exact absurd hm (by decide)
    · exact fun h => absurd h (by decide)
  · exact .applyArray function (.other 3) (.other 10) [] [.number .one] rfl
  · refine (standard.keeps_calls hn assigned [.reference "t", .number .one] false).2.1 (by decide) (overlooks "t") (by decide) ?_
    rintro function word linked h
    obtain ⟨-, h⟩ := Tree.node.inj h
    obtain ⟨rfl, -⟩ := List.cons.inj h
    exact steady "t" _ "m" false
  · exact .call function (.other 3) [.number .one]

/-- In `t.call(o, 1)`, where `t` is `o[o = x]`, the receiver is `x`, but the direct call `o[o = x]?.(1)` has what `o` was as its
object. In `t(1)`, where `t` is `o.m!`, there is no object, but `o` is the object of `o.m!?.(1)`. -/
theorem Standard.keeps_calls_false :
    ((∃ u, reassigned.knownCall (.member (.reference "t") "call" false) [.reference "o", .number .one] = .rewritten u) ∧
      (reassigned.onSpine (.call (.member (.reference "t") "call" false) [.reference "o", .number .one] false)).expr.Unread "t" ∧
      ¬ standard.Keeps (machine.store reassigned.replacement "t") (.member (.reference "t") "call" false)
        [.reference "o", .number .one] false
        (reassigned.onSpine (.call (.member (.reference "t") "call" false) [.reference "o", .number .one] false)).expr) ∧
    disguised.isToken (.reference "t") = true ∧
      (disguised.onSpine (.call (.reference "t") [.number .one] false)).expr.Unread "t" ∧
      ¬ standard.Keeps (machine.store disguised.replacement "t") (.reference "t") [.number .one] false
        (disguised.onSpine (.call (.reference "t") [.number .one] false)).expr := by
  refine ⟨⟨⟨_, rfl⟩, by decide, fun h => ?_⟩, rfl, by decide, fun h => ?_⟩
  · have hcalled := Keeps.approach_eq h (s := start) (j := ⟨function, .other 4, [.number .one]⟩)
      ⟨rfl, _, _, rfl, .call function (.other 4) [.number .one]⟩
    exact absurd hcalled (by decide)
  · have hcalled := Keeps.approach_eq h (s := start) (j := ⟨function, .undefined, [.number .one]⟩) ⟨rfl, _, _, rfl, rfl⟩
    exact absurd hcalled (by decide)

end Machine

end Chainlift
