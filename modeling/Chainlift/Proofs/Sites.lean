import Chainlift.Proofs.Closed

/-!
# The one place that a rewrite touches

Along a spine some nodes are about the token (`Substitution.Site`): an access on it, a call of it, an assignment to it, and the
calls by which compilers store and call its methods (`Substitution.Idiom`). A rewrite looks at the outermost of them only. Either
the expression stays as it is, or this one node gets the target and everything around it is the same
(`Tree.rewrite_touches`): the other accesses with their keys and links, the arguments of the other calls, the operators, and
whatever stands off the spine.
-/

namespace Chainlift

open Tree

/-- Opening a closed expression is undone by closing it. -/
theorem Tree.closed_opened {t : Tree} (h : t.IsClosed) : t.opened.closed = t := by
  have hclosed : t.hasLink = false := h.hasLink
  unfold opened
  split
  · rfl
  · rename_i u hne
    unfold IsClosed isClosedIn at h
    rw [closed, if_pos (Bool.and_eq_true_iff.1 h).1]
  · rw [closed, hclosed]
    rfl

namespace Substitution

variable {s : Substitution}

/-! ## The sites of a token -/

/-- The calls of the token's own methods and of the method that it holds, by their callee and arguments, and what becomes of them:
the receiver goes, and the list of `apply` gives the arguments. Without direct arguments the call is left alone. -/
inductive Idiom (s : Substitution) : Tree → List Tree → Option Tree → Prop
  /-- `(0, t)(…)` -/
  | unbound {zero inner : Tree} (args : List Tree) (hzero : zero.isZero = true) (htoken : s.isToken inner = true) :
    Idiom s (.sequence [zero, inner]) args (some (.call s.replacement.unbound args true))
  /-- `t.m.call(t, …)` and `t.m.apply(t, …)` -/
  | method {access o receiver : Tree} {rest : List Tree} {word : String} {m : Method} (hword : Method.ofName? word = some m)
    (hbind : m ≠ .bind) (ho : access.object? = some o) (htoken : s.isToken o = true) (hreceiver : s.isToken receiver = true)
    (hspread : ∀ u, receiver ≠ .spread u) :
    Idiom s (.member access word false) (receiver :: rest)
      ((m.directArguments rest).map fun direct => .call (access.onObject s.replacement.opened true) direct true)
  /-- `t.m.bind(t, …)`, which keeps its receiver. -/
  | bind {access o receiver : Tree} {rest : List Tree} {word : String} (hword : Method.ofName? word = some .bind)
    (ho : access.object? = some o) (htoken : s.isToken o = true) (hreceiver : s.isToken receiver = true)
    (hspread : ∀ u, receiver ≠ .spread u) :
    Idiom s (.member access word false) (receiver :: rest)
      (some (.call (.member (access.onObject s.replacement.opened true) "bind" true) (receiver :: rest) false))
  /-- `t.call(o, …)` and `t.apply(o, …)` for a target `o.m`. -/
  | stored {function target o receiver : Tree} {rest : List Tree} {word : String} {m : Method}
    (hword : Method.ofName? word = some m) (hbind : m ≠ .bind) (htarget : s.target = some target) (ho : target.object? = some o)
    (htoken : s.isToken function = true) (hreceiver : ReceiverCall.isReceiverOf receiver o = true) :
    Idiom s (.member function word false) (receiver :: rest) ((m.directArguments rest).map fun direct => .call target direct true)

/-- The nodes of a spine that are about the token, and what becomes of them. A target that cannot be assigned to leaves an
assignment alone. -/
inductive Site (s : Substitution) : Tree → Option Tree → Prop
  | idiom {callee : Tree} {args : List Tree} {u : Option Tree} (link : Bool) (h : s.Idiom callee args u) :
    Site s (.call callee args link) u
  /-- A call of the token itself, without a receiver. A target that is an access is called as `(0, target)`. -/
  | called {callee : Tree} (args : List Tree) (link : Bool) (hother : ∀ u, ¬ s.Idiom callee args u) (htoken : s.isToken callee = true) :
    Site s (.call callee args link) (some (.call s.unboundCallee args true))
  | access {t : Tree} (l : Layer) (link : Bool) (hl : ∀ args, l ≠ .call args) (htoken : s.isToken t = true) :
    Site s (l.onto link t) (some (l.onto true s.replacement.opened))
  | assigned {target : Tree} (op : AssignOp) (value : Tree) (htoken : s.isTokenTarget target = true) :
    Site s (.assign op target value) (if s.replacement.isAssignable then some (.assign op s.replacement value) else none)

/-- On a spine the outermost site gets what becomes of it, and everything else is the same. -/
inductive Touches (s : Substitution) : Tree → Tree → Prop
  | site {t u : Tree} (h : s.Site t (some u)) : Touches s t u
  | layer {t u : Tree} (l : Layer) (link : Bool) (hnone : ∀ v, ¬ s.Site (l.onto link t) v) (h : Touches s t u) :
    Touches s (l.onto link t) (l.onto link u)
  /-- Below `delete` and `void` the spine goes on in an open expression. -/
  | operand {t u : Tree} (op : UnaryOp) (hop : op = .delete ∨ op = .void) (h : Touches s t.opened u) :
    Touches s (.unary op t) (.unary op u.closed)

/-! ## Calls -/

theorem of?_member {function receiver : Tree} {rest : List Tree} {word : String} {m : Method}
    (hword : Method.ofName? word = some m) (hspread : ∀ u, receiver ≠ .spread u) :
    ReceiverCall.of? (.member function word false) (receiver :: rest) = some ⟨function, m, receiver, rest⟩ := by
  have hsplit : ReceiverCall.splitReceiver? (receiver :: rest) = some (receiver, rest) := by
    unfold ReceiverCall.splitReceiver?
    split
    · rename_i heq
      exact absurd (List.cons.inj heq).1 (hspread _)
    · rename_i heq
      obtain ⟨rfl, rfl⟩ := List.cons.inj heq
      rfl
    · rename_i heq
      exact absurd heq (by simp)
  simp [ReceiverCall.of?, ReceiverCall.splitMethod?, hword, hsplit]

theorem ne_spread_of_of? {callee : Tree} {args : List Tree} {c : ReceiverCall} (h : ReceiverCall.of? callee args = some c) (u : Tree) :
    c.receiver ≠ .spread u := by
  obtain ⟨word, rfl, hword, rfl⟩ := ReceiverCall.eq_of_of? h
  intro hspread
  rw [hspread] at h
  simp [ReceiverCall.of?, ReceiverCall.splitReceiver?] at h

theorem ne_spread_of_isReceiverOf {receiver o : Tree} (h : ReceiverCall.isReceiverOf receiver o = true) (u : Tree) :
    receiver ≠ .spread u := by
  rintro rfl
  simp [ReceiverCall.isReceiverOf] at h

/-- What a recognized call comes to. -/
def Outcome.ofResult : Option Tree → Outcome
  | some u => .rewritten u
  | none => .refused

theorem ofArguments_eq_ofResult (callee : Tree) (direct : Option (List Tree)) :
    Outcome.ofArguments callee direct = .ofResult (direct.map fun direct => .call callee direct true) := by
  cases direct <;> rfl

/-- What is recognized as a call of the token's own method is one. -/
theorem idiom_of_methodOfToken {callee : Tree} {args : List Tree} {c : ReceiverCall} (hc : ReceiverCall.of? callee args = some c)
    (hm : s.isMethodOfToken c = true) : ∃ u, s.Idiom callee args u ∧ s.methodOfToken c = .ofResult u := by
  have hspread := ne_spread_of_of? hc
  obtain ⟨word, rfl, hword, rfl⟩ := ReceiverCall.eq_of_of? hc
  unfold isMethodOfToken at hm
  rw [Bool.and_eq_true] at hm
  obtain ⟨o, ho, htoken⟩ := (Option.any_eq_true _ _).1 hm.1
  unfold methodOfToken
  simp only
  split
  · rename_i hmethod
    rw [hmethod] at hword
    exact ⟨_, .bind hword ho htoken hm.2 hspread, rfl⟩
  · rename_i hbind
    exact ⟨_, .method hword hbind ho htoken hm.2 hspread, ofArguments_eq_ofResult _ _⟩

/-- What is recognized as a call of the method that the token holds is one. -/
theorem idiom_of_storedMethod {callee : Tree} {args : List Tree} {c : ReceiverCall} (hc : ReceiverCall.of? callee args = some c) :
    s.storedMethod c = .other ∨ ∃ u, s.Idiom callee args u ∧ s.storedMethod c = .ofResult u := by
  obtain ⟨word, rfl, hword, rfl⟩ := ReceiverCall.eq_of_of? hc
  unfold storedMethod
  split
  · exact .inl rfl
  · exact .inl rfl
  · rename_i target htarget hbind
    split
    · exact .inl rfl
    · rename_i o ho
      split
      · rename_i hand
        rw [Bool.and_eq_true] at hand
        exact .inr ⟨_, .stored hword hbind htarget ho hand.1 hand.2, ofArguments_eq_ofResult _ _⟩
      · exact .inl rfl

/-- Every call that is recognized is an idiom of the token. -/
theorem idiom_of_knownCall (s : Substitution) (callee : Tree) (args : List Tree) :
    s.knownCall callee args = .other ∨ ∃ u, s.Idiom callee args u ∧ s.knownCall callee args = .ofResult u := by
  unfold knownCall
  split
  · unfold unboundCall
    split
    · split
      · rename_i hand
        rw [Bool.and_eq_true] at hand
        exact .inr ⟨_, .unbound args hand.1 hand.2, rfl⟩
      · exact .inl rfl
    · exact .inl rfl
  · split
    · exact .inl rfl
    · rename_i c hc
      split
      · rename_i hm
        exact .inr (idiom_of_methodOfToken hc hm)
      · exact idiom_of_storedMethod hc

/-- Every idiom of the token is recognized. -/
theorem Idiom.knownCall_ne {callee : Tree} {args : List Tree} {u : Option Tree} (h : s.Idiom callee args u) :
    s.knownCall callee args ≠ .other := by
  have hmethod : ∀ {access o receiver : Tree} {rest : List Tree} {m : Method}, access.object? = some o → s.isToken o = true →
      s.isToken receiver = true → s.isMethodOfToken ⟨access, m, receiver, rest⟩ = true := by
    intro access o receiver rest m ho htoken hreceiver
    simp [isMethodOfToken, ho, htoken, hreceiver]
  have hof : ∀ (callee : Tree) (direct : Option (List Tree)), Outcome.ofArguments callee direct ≠ .other := by
    intro callee direct
    cases direct <;> simp [Outcome.ofArguments]
  have hown : ∀ c : ReceiverCall, s.methodOfToken c ≠ .other := by
    intro c
    unfold methodOfToken
    simp only
    split
    · simp
    · exact hof _ _
  cases h with
  | unbound args hzero htoken => simp [knownCall, unboundCall, hzero, htoken]
  | method hword hbind ho htoken hreceiver hspread =>
    simp only [knownCall, of?_member hword hspread, hmethod ho htoken hreceiver, if_true]
    exact hown _
  | bind hword ho htoken hreceiver hspread =>
    simp only [knownCall, of?_member hword hspread, hmethod ho htoken hreceiver, if_true]
    exact hown _
  | @stored function target o receiver rest word m hword hbind htarget ho htoken hreceiver =>
    simp only [knownCall, of?_member hword (ne_spread_of_isReceiverOf hreceiver)]
    split
    · exact hown _
    · unfold storedMethod
      cases m with
      | bind => exact absurd rfl hbind
      | call =>
        simp only [htarget, ho, htoken, hreceiver, Bool.and_self, if_true]
        exact hof _ _
      | apply =>
        simp only [htarget, ho, htoken, hreceiver, Bool.and_self, if_true]
        exact hof _ _

/-! ## Spines -/

/-- A layer that is not about the token is no site. -/
theorem not_site_onto {l : Layer} {link : Bool} {t : Tree} (htoken : s.isToken t = false)
    (hcall : ∀ args, l = .call args → s.knownCall t args = .other) (v : Option Tree) : ¬ s.Site (l.onto link t) v := by
  intro h
  generalize heq : l.onto link t = x at h
  cases h with
  | idiom link' h =>
    cases l with
    | call args =>
      obtain ⟨-, hparts⟩ := Tree.node.inj heq
      obtain ⟨rfl, rfl⟩ := List.cons.inj hparts
      exact h.knownCall_ne (hcall _ rfl)
    | _ => exact absurd (Tree.node.inj heq).1 (by simp)
  | called args link' hother ht =>
    cases l with
    | call args' =>
      obtain ⟨-, hparts⟩ := Tree.node.inj heq
      obtain ⟨rfl, rfl⟩ := List.cons.inj hparts
      exact absurd (htoken.symm.trans ht) (by simp)
    | _ => exact absurd (Tree.node.inj heq).1 (by simp)
  | @access t' l' link' hl ht =>
    have hobject : t = t' := by
      cases l <;> cases l' <;> simp_all [Layer.onto]
    rw [← hobject, htoken] at ht
    exact absurd ht (by simp)
  | assigned op value ht => cases l <;> exact absurd (Tree.node.inj heq).1 (by simp)

/-- What a search along a spine may come to: everything stays, or the outermost site is touched. -/
def Outermost (s : Substitution) (t : Tree) (r : Rewritten) : Prop :=
  r = ⟨t, false⟩ ∨ ∃ u, r = ⟨u, true⟩ ∧ s.Touches t u

/-- A layer is a site itself, or the search goes on below it. -/
theorem outermost_onto (l : Layer) (link : Bool) {t : Tree} (ht : s.Outermost t (s.onSpine t)) :
    s.Outermost (l.onto link t) (s.onSpine (l.onto link t)) := by
  have hbelow : s.isToken t = false → (∀ args, l = .call args → s.knownCall t args = .other) →
      s.Outermost (l.onto link t) (s.onSpine (l.onto link t)) := by
    intro htoken hcall
    rw [onSpine_onto htoken hcall]
    rcases ht with h | ⟨u, h, htouches⟩
    · exact .inl (by rw [h])
    · exact .inr ⟨_, by rw [h], .layer l link (not_site_onto htoken hcall) htouches⟩
  by_cases hl : ∃ args, l = .call args
  · obtain ⟨args, rfl⟩ := hl
    rcases idiom_of_knownCall s t args with hknown | ⟨u, hidiom, hknown⟩
    · cases htoken : s.isToken t with
      | false =>
        refine hbelow htoken ?_
        rintro _ ⟨⟩
        exact hknown
      | true =>
        rw [onSpine_token htoken (by rintro _ ⟨⟩; exact hknown)]
        exact .inr ⟨_, rfl, .site (.called args link (fun u h => h.knownCall_ne hknown) htoken)⟩
    · cases u with
      | none => exact .inl (by simp [Layer.onto, onSpine, hknown, Outcome.ofResult])
      | some u => exact .inr ⟨u, by simp [Layer.onto, onSpine, hknown, Outcome.ofResult], .site (.idiom link hidiom)⟩
  · have hother : ∀ args, l = .call args → s.knownCall t args = .other := fun args h => absurd ⟨args, h⟩ hl
    cases htoken : s.isToken t with
    | false => exact hbelow htoken hother
    | true =>
      have hunder : s.under l = s.replacement.opened := by
        cases l with
        | call args => exact absurd ⟨args, rfl⟩ hl
        | _ => rfl
      rw [onSpine_token htoken hother, hunder]
      exact .inr ⟨_, rfl, .site (.access l link (fun args h => hl ⟨args, h⟩) htoken)⟩

/-- What can be assigned to can be written at the left of `=`. -/
theorem asTarget?_of_isAssignable {t : Tree} (h : t.isAssignable = true) : t.asTarget? = some t := by
  unfold isAssignable at h
  unfold asTarget?
  rw [if_pos]
  rw [Bool.or_eq_true, Bool.and_eq_true] at h
  rw [Bool.or_eq_true]
  exact h.imp_right (·.1)

theorem outermost_assign (s : Substitution) (op : AssignOp) (target value : Tree) :
    s.Outermost (.assign op target value) (s.onSpine (.assign op target value)) := by
  unfold onSpine onAssignment
  simp only
  split
  · rename_i hand
    rw [Bool.and_eq_true] at hand
    have hsite := Site.assigned op value hand.1
    rw [if_pos hand.2] at hsite
    rw [asTarget?_of_isAssignable hand.2]
    exact .inr ⟨_, rfl, .site hsite⟩
  · exact .inl rfl

/-- The search along a spine leaves everything as it is, or it touches the outermost site. -/
theorem outermost_onSpine (s : Substitution) {t : Tree} (ht : t.isClosedIn true = true) : s.Outermost t (s.onSpine t) := by
  induction t using spineInduct with
  | node f ps ih ihopened =>
    by_cases hu : ∃ op t, (op = .delete ∨ op = .void) ∧ node f ps = .unary op t
    · obtain ⟨op, t, hop, heq⟩ := hu
      obtain ⟨rfl, rfl⟩ := Tree.node.inj heq
      have hoperand : t.IsClosed := isClosed_unary.1 (isClosed_of_hasLink ht rfl)
      rw [onSpine_unary hop]
      rcases ihopened t (by simp) (isClosedIn_opened hoperand) with h | ⟨u, h, htouches⟩
      · exact .inl (by rw [h, closed_opened hoperand])
      · exact .inr ⟨_, by rw [h], .operand op hop htouches⟩
    by_cases hl : ∃ (l : Layer) (link : Bool) (t : Tree), t ∈ ps ∧ node f ps = l.onto link t
    · obtain ⟨l, link, t, hmem, heq⟩ := hl
      rw [heq] at ht ⊢
      exact outermost_onto l link (ih t hmem (isClosedIn_onto.1 ht).2.1)
    by_cases ha : ∃ op target value, node f ps = .assign op target value
    · obtain ⟨op, target, value, heq⟩ := ha
      rw [heq]
      exact outermost_assign s op target value
    refine .inl ?_
    rw [onSpine.eq_def]
    split
    case h_1 link callee args heq =>
      exact absurd ⟨.call args, link, callee, by rw [(Tree.node.inj heq).2]; simp, heq⟩ hl
    case h_2 name link t heq => exact absurd ⟨.member name, link, t, by rw [(Tree.node.inj heq).2]; simp, heq⟩ hl
    case h_3 link t key heq => exact absurd ⟨.index key, link, t, by rw [(Tree.node.inj heq).2]; simp, heq⟩ hl
    case h_4 name link t heq => exact absurd ⟨.privateMember name, link, t, by rw [(Tree.node.inj heq).2]; simp, heq⟩ hl
    case h_5 op t heq =>
      split
      · rename_i hop
        rw [Bool.or_eq_true, beq_iff_eq, beq_iff_eq] at hop
        exact absurd ⟨op, t, hop, heq⟩ hu
      · rw [heq]
    case h_6 op target value heq => exact absurd ⟨op, target, value, heq⟩ ha
    case h_7 => rfl

end Substitution

/-- A rewrite leaves a closed expression as it is, or it touches the outermost site of the token on the spine and nothing else. The
site gets the target, or the token itself if there is none. -/
theorem Tree.rewrite_touches {t : Tree} (ht : t.IsClosed) (token : Tree) (target : Option Tree) :
    t = t.opened.closed ∧
    ((t.rewrite token target).matched = false → (t.rewrite token target).expr = t) ∧
    ((t.rewrite token target).matched = true → ∃ u, (t.rewrite token target).expr = u.closed ∧
      Substitution.Touches ⟨token, target⟩ t.opened u) := by
  unfold rewrite
  rcases Substitution.outermost_onSpine ⟨token, target⟩ (isClosedIn_opened ht) with h | ⟨u, h, htouches⟩
  · simp only [h, closed_opened ht]
    simp
  · simp only [h, closed_opened ht]
    exact ⟨trivial, fun hfalse => absurd hfalse (by simp), fun _ => ⟨u, rfl, htouches⟩⟩

namespace SitesWitness

/-- `delete (…)(t).c`, with some callee. -/
def deleted (callee : Tree) : Tree := .member (.call callee [.reference "t"] false) "c" false

/-- `t[t]` -/
def callee : Tree := .index (.reference "t") (.reference "t") false

/-- `a?.b?.[t]` -/
def linked : Tree := .index (.member (.reference "a") "b" true) (.reference "t") true

end SitesWitness

open SitesWitness in
/-- In `delete t[t](t).c` only the first `t` is on the spine. With the target `a?.b` it becomes `delete a?.b?.[t](t).c`. -/
theorem Tree.rewrite_touches_object :
    (Tree.unary .delete (deleted callee)).IsClosed ∧
    ((Tree.unary .delete (deleted callee)).rewrite (.reference "t") (some (.chain (.member (.reference "a") "b" true)))).expr =
      .unary .delete (.chain (deleted linked)) ∧
    Substitution.Touches ⟨.reference "t", some (.chain (.member (.reference "a") "b" true))⟩ (.unary .delete (deleted callee))
      (.unary .delete (.chain (deleted linked))) := by
  have hclosed : (Tree.unary .delete (deleted callee)).IsClosed := by decide
  obtain ⟨u, hexpr, htouches⟩ :=
    (rewrite_touches hclosed (.reference "t") (some (.chain (.member (.reference "a") "b" true)))).2.2 rfl
  have hexpr : Tree.unary .delete (.chain (deleted linked)) = u.closed := hexpr
  have hu : u = .unary .delete (.chain (deleted linked)) := by
    unfold closed at hexpr
    split at hexpr
    · exact absurd (Tree.node.inj hexpr).1 (by simp)
    · exact hexpr.symm
  exact ⟨hclosed, rfl, hu ▸ htouches⟩

end Chainlift
