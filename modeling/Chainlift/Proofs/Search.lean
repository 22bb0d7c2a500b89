import Chainlift.Proofs.Layers

/-!
# The search for the place of a link

A token is looked for along a spine. What the search can come to is said once: a call of a known form is rewritten as a whole
(`Substitution.Known`), a link is put behind the token, an assignment to the token gets the target, or everything stays
(`Substitution.Searched`). What is true of each of these is true of the result of a search.
-/

namespace Chainlift

open Tree

theorem ReceiverCall.eq_of_of? {callee : Tree} {args : List Tree} {c : ReceiverCall}
    (h : ReceiverCall.of? callee args = some c) :
    ∃ word, callee = .member c.function word false ∧ Method.ofName? word = some c.method ∧ args = c.receiver :: c.rest := by
  unfold ReceiverCall.of? at h
  simp only [Option.bind_eq_bind, Option.bind_eq_some_iff] at h
  obtain ⟨⟨function, method⟩, hsplit, ⟨receiver, rest⟩, hreceiver, h⟩ := h
  obtain rfl := Option.some.inj h
  unfold ReceiverCall.splitMethod? at hsplit
  split at hsplit
  · obtain ⟨m, hm, hsame⟩ := Option.map_eq_some_iff.1 hsplit
    obtain ⟨rfl, rfl⟩ := Prod.mk.inj hsame
    exact ⟨_, rfl, hm, eq_cons_of_splitReceiver? hreceiver⟩
  · exact absurd hsplit (by simp)

namespace Substitution

variable {s : Substitution}

/-! ## Calls of a known form -/

/-- What becomes of a callee and arguments of a known form. -/
inductive Known (s : Substitution) : Tree → List Tree → Tree → Prop
  | unbound {zero inner : Tree} (args : List Tree) (hz : zero.isZero = true) (ht : s.isToken inner = true) :
    Known s (.sequence [zero, inner]) args (.call s.replacement.unbound args true)
  | bind {callee o : Tree} {args : List Tree} {c : ReceiverCall} (hc : ReceiverCall.of? callee args = some c)
    (ho : c.function.object? = some o) (ht : s.isToken o = true) :
    Known s callee args (.call (.member (c.function.onObject s.replacement.opened true) "bind" true) (c.receiver :: c.rest) false)
  | method {callee o : Tree} {args direct : List Tree} {c : ReceiverCall} (hc : ReceiverCall.of? callee args = some c)
    (ho : c.function.object? = some o) (ht : s.isToken o = true) (hd : c.method.directArguments c.rest = some direct) :
    Known s callee args (.call (c.function.onObject s.replacement.opened true) direct true)
  | stored {callee target : Tree} {args direct : List Tree} {c : ReceiverCall} (hc : ReceiverCall.of? callee args = some c)
    (htarget : s.target = some target) (ho : target.object?.isSome = true) (ht : s.isToken c.function = true)
    (hd : c.method.directArguments c.rest = some direct) : Known s callee args (.call target direct true)

theorem ofArguments_eq {callee u : Tree} {direct? : Option (List Tree)} (h : Outcome.ofArguments callee direct? = .rewritten u) :
    ∃ direct, direct? = some direct ∧ u = .call callee direct true := by
  cases direct? with
  | none => exact absurd h (by simp [Outcome.ofArguments])
  | some direct => exact ⟨direct, rfl, (Outcome.rewritten.inj h).symm⟩

theorem exists_of_storedMethod {c : ReceiverCall} {u : Tree} (h : s.storedMethod c = .rewritten u) :
    ∃ target o direct, s.target = some target ∧ target.object? = some o ∧ s.isToken c.function = true ∧
      ReceiverCall.isReceiverOf c.receiver o = true ∧ c.method.directArguments c.rest = some direct ∧
      u = .call target direct true := by
  unfold storedMethod at h
  split at h
  · exact absurd h (by simp)
  · exact absurd h (by simp)
  · rename_i target htarget _
    split at h
    · exact absurd h (by simp)
    · rename_i o ho
      split at h
      · rename_i hand
        rw [Bool.and_eq_true] at hand
        obtain ⟨direct, hd, rfl⟩ := ofArguments_eq h
        exact ⟨target, o, direct, htarget, ho, hand.1, hand.2, hd, rfl⟩
      · exact absurd h (by simp)

theorem known_of_knownCall {callee : Tree} {args : List Tree} {u : Tree} (h : s.knownCall callee args = .rewritten u) :
    s.Known callee args u := by
  unfold knownCall at h
  split at h
  · unfold unboundCall at h
    split at h
    · split at h
      · rename_i hz
        rw [Bool.and_eq_true] at hz
        obtain rfl := Outcome.rewritten.inj h
        exact .unbound args hz.1 hz.2
      · exact absurd h (by simp)
    · exact absurd h (by simp)
  · split at h
    · exact absurd h (by simp)
    · rename_i c hc
      split at h
      · rename_i hm
        obtain ⟨o, ho, ht⟩ := (Option.any_eq_true _ _).1 (Bool.and_eq_true _ _ ▸ hm).1
        unfold methodOfToken at h
        split at h
        · obtain rfl := Outcome.rewritten.inj h
          exact .bind hc ho ht
        · obtain ⟨direct, hd, rfl⟩ := ofArguments_eq h
          exact .method hc ho ht hd
      · obtain ⟨target, o, direct, htarget, ho, ht, -, hd, rfl⟩ := exists_of_storedMethod h
        exact .stored hc htarget (by simp [ho]) ht hd

/-! ## Spines -/

/-- What a search along the spine of an open expression comes to. -/
inductive Searched (s : Substitution) : Tree → Rewritten → Prop
  | known (link : Bool) {callee u : Tree} {args : List Tree} (h : s.knownCall callee args = .rewritten u) :
    Searched s (.call callee args link) ⟨u, true⟩
  | token (l : Layer) (link : Bool) {t : Tree} (ht : s.isToken t = true) :
    Searched s (l.onto link t) ⟨l.onto true (s.under l), true⟩
  | above (l : Layer) (link : Bool) {t : Tree} {r : Rewritten} (h : Searched s t r) :
    Searched s (l.onto link t) ⟨l.onto link r.expr, r.matched⟩
  | inside (op : UnaryOp) (hop : op = .delete ∨ op = .void) {t : Tree} {r : Rewritten} (h : Searched s t.opened r) :
    Searched s (.unary op t) ⟨.unary op r.expr.closed, r.matched⟩
  | assigned (op : AssignOp) (value : Tree) {t target : Tree} (ht : s.isTokenTarget t = true)
    (htarget : s.replacement.asTarget? = some target) : Searched s (.assign op t value) ⟨.assign op target value, true⟩
  | kept (t : Tree) : Searched s t ⟨t, false⟩

theorem searched_onSpine (s : Substitution) (t : Tree) : s.Searched t (s.onSpine t) := by
  induction t using spineInduct with
  | node f ps ih ihopened =>
    by_cases hu : ∃ op t, (op = .delete ∨ op = .void) ∧ node f ps = .unary op t
    · obtain ⟨op, t, hop, heq⟩ := hu
      obtain ⟨rfl, rfl⟩ := Tree.node.inj heq
      rw [onSpine_unary hop]
      exact .inside op hop (ihopened t (by simp))
    rw [onSpine.eq_def]
    split
    case h_1 link callee args heq =>
      obtain ⟨rfl, rfl⟩ := Tree.node.inj heq
      split
      · rename_i h
        exact .known link h
      · exact .kept _
      · split
        · rename_i ht
          exact .token (.call args) link ht
        · exact .above (.call args) link (ih callee (by simp))
    case h_2 name link t heq =>
      obtain ⟨rfl, rfl⟩ := Tree.node.inj heq
      split
      · rename_i ht
        exact .token (.member name) link ht
      · exact .above (.member name) link (ih t (by simp))
    case h_3 link t key heq =>
      obtain ⟨rfl, rfl⟩ := Tree.node.inj heq
      split
      · rename_i ht
        exact .token (.index key) link ht
      · exact .above (.index key) link (ih t (by simp))
    case h_4 name link t heq =>
      obtain ⟨rfl, rfl⟩ := Tree.node.inj heq
      split
      · rename_i ht
        exact .token (.privateMember name) link ht
      · exact .above (.privateMember name) link (ih t (by simp))
    case h_5 op t heq =>
      obtain ⟨rfl, rfl⟩ := Tree.node.inj heq
      split
      · rename_i hop
        rw [Bool.or_eq_true, beq_iff_eq, beq_iff_eq] at hop
        exact absurd ⟨op, t, hop, rfl⟩ hu
      · exact .kept _
    case h_6 op target value heq =>
      obtain ⟨rfl, rfl⟩ := Tree.node.inj heq
      unfold onAssignment
      simp only
      split
      · rename_i ht
        rw [Bool.and_eq_true] at ht
        split
        · rename_i htarget
          exact .assigned op value ht.1 htarget
        · exact .kept _
      · exact .kept _
    case h_7 => exact .kept _

end Substitution

end Chainlift
