import Chainlift.Proofs.Search

/-!
# Where a chain stops

A link stands right above some expression on the spine (`Tree.LinkAbove`), perhaps below an outer `delete` or `void`
(`Tree.StopsAt`). When that expression has no value, nothing above it is evaluated and the whole is `undefined`, or `true` under
`delete` (`Machine.eval_stopsAt`).

A link stays where it is when a further token is looked for on the spine (`StopsAt.rewrite`) and when temporaries are folded
(`StopsAt.foldAssigned`); only the expression below it changes. It must not be a method access: folding an explicit receiver would
take that access away, and the link with it.
-/

namespace Chainlift

open Tree

namespace Tree

variable {P Q : Tree → Prop}

/-- On the spine a link stands right above an expression with the property. -/
inductive LinkAbove (P : Tree → Prop) : Tree → Prop
  | here (l : Layer) {t : Tree} (h : P t) : LinkAbove P (l.onto true t)
  | above (l : Layer) (link : Bool) {t : Tree} (h : LinkAbove P t) : LinkAbove P (l.onto link t)

/-- There is such a link on the spine or on that of what an outer `delete` or `void` is about. The value is the one that is left
when the chain stops there. -/
inductive StopsAt (P : Tree → Prop) : Value → Tree → Prop
  | opened {t : Tree} (h : LinkAbove P t) : StopsAt P .undefined t
  | chain {t : Tree} (h : LinkAbove P t) : StopsAt P .undefined (.chain t)
  | delete {v : Value} {t : Tree} (h : StopsAt P v t) : StopsAt P (.bool true) (.unary .delete t)
  | void {v : Value} {t : Tree} (h : StopsAt P v t) : StopsAt P .undefined (.unary .void t)

/-- What is left of an expression whose chain stops. -/
def yielded : Tree → Value
  | .unary .delete _ => .bool true
  | _ => .undefined

theorem LinkAbove.mono (hPQ : ∀ t, P t → Q t) {t : Tree} (h : LinkAbove P t) : LinkAbove Q t := by
  induction h with
  | here l h => exact .here l (hPQ _ h)
  | above l link _ ih => exact .above l link ih

theorem StopsAt.mono (hPQ : ∀ t, P t → Q t) {v : Value} {t : Tree} (h : StopsAt P v t) : StopsAt Q v t := by
  induction h with
  | opened h => exact .opened (h.mono hPQ)
  | chain h => exact .chain (h.mono hPQ)
  | delete _ ih => exact .delete ih
  | void _ ih => exact .void ih

theorem LinkAbove.isLayered {t : Tree} (h : LinkAbove P t) : t.isLayered = true := by
  cases h with
  | here l h => cases l <;> rfl
  | above l link h => cases l <;> rfl

/-- The link belongs to no chain that is closed. -/
theorem LinkAbove.hasLink {t : Tree} (h : LinkAbove P t) : t.hasLink = true ∧ t.bare.hasLink = true := by
  induction h with
  | here l h => cases l <;> simp [Layer.onto, Tree.hasLink, bare, bareAll]
  | above l link h ih => cases l <;> simp [Layer.onto, Tree.hasLink, bare, bareAll, ih]

theorem linkAbove_onto_iff {l : Layer} {link : Bool} {t : Tree} :
    LinkAbove P (l.onto link t) ↔ (link = true ∧ P t) ∨ LinkAbove P t := by
  constructor
  · intro h
    generalize hx : l.onto link t = x at h
    cases h with
    | here l' h =>
      cases l <;> cases l' <;> simp only [Layer.onto, node.injEq, Form.member.injEq, Form.privateMember.injEq, Form.index.injEq,
        Form.call.injEq, List.cons.injEq, reduceCtorEq, false_and] at hx <;> simp_all
    | above l' link' h =>
      cases l <;> cases l' <;> simp only [Layer.onto, node.injEq, Form.member.injEq, Form.privateMember.injEq, Form.index.injEq,
        Form.call.injEq, List.cons.injEq, reduceCtorEq, false_and] at hx <;> simp_all
  · rintro (⟨rfl, h⟩ | h)
    · exact .here l h
    · exact .above l link h

theorem LinkAbove.closed {t : Tree} (h : LinkAbove P t) : t.closed = .chain t := if_pos h.hasLink.1

theorem yielded_of_isLayered {t : Tree} (h : t.isLayered = true) : t.yielded = .undefined := by
  unfold isLayered at h
  split at h <;> simp_all [yielded]

theorem StopsAt.yielded {v : Value} {t : Tree} (h : StopsAt P v t) : t.yielded = v := by
  cases h with
  | opened h => exact yielded_of_isLayered h.isLayered
  | _ => rfl

end Tree

/-! ## Evaluation -/

namespace Machine

variable {P : Tree → Prop}

end Machine

/-! ## Methods -/

/-- The layer is no call. -/
def Layer.isAccess : Layer → Bool
  | .call _ => false
  | _ => true

namespace Tree

/-- The expression is a method access, or an assignment or chain around one. -/
def holdsMethod : Tree → Bool
  | .node f ps => match f, ps with
    | .member name _, _ => (Method.ofName? name).isSome
    | .assign .plain, [_, value] => value.holdsMethod
    | .chain, [t] => t.holdsMethod
    | _, _ => false

theorem holdsMethod_opened (t : Tree) : t.opened.holdsMethod = t.holdsMethod := by
  unfold opened
  split <;> simp [holdsMethod]

end Tree

/-! ## The token -/

namespace Substitution

variable {s : Substitution} {P : Tree → Prop}

/-- What can stand under a link that is put in. -/
inductive Puts (s : Substitution) : Tree → Prop
  | bound : Puts s s.replacement
  | opened : Puts s s.replacement.opened
  | unbound : Puts s s.replacement.unbound

/-- What can become of an expression under a link: it stays, or is searched further, or it is the token, perhaps unbound. -/
inductive Moves (s : Substitution) : Tree → Tree → Prop
  | kept (t : Tree) : Moves s t t
  | searched (t : Tree) : Moves s t (s.onSpine t).expr
  | token {t u : Tree} (ht : s.isToken t = true) (hu : s.Puts u) : Moves s t u
  | unbound {zero t u : Tree} (ht : s.isToken t = true) (hu : s.Puts u) : Moves s (.sequence [zero, t]) u

theorem puts_unboundCallee (s : Substitution) : s.Puts s.unboundCallee := by
  simp only [unboundCallee]
  split <;> split
  · exact .unbound
  · exact .bound
  · exact .unbound
  · exact .bound

theorem isToken_eq_false (hs : s.token.bare.hasLink = false) {t : Tree} (ht : t.bare.hasLink = true) : s.isToken t = false := by
  cases h : s.isToken t with
  | false => rfl
  | true =>
    have hb : t.bare = s.token.bare := of_decide_eq_true h
    rw [hb, hs] at ht
    exact absurd ht (by simp)

theorem puts_under (s : Substitution) (l : Layer) : s.Puts (s.under l) := by
  cases l with
  | call args => exact s.puts_unboundCallee
  | _ => exact .opened

/-- Without a method a call is known only if its callee is unbound. -/
theorem knownCall_of_isMethodAccess {t : Tree} (h : t.isMethodAccess = false) (args : List Tree) :
    s.knownCall t args = .other ∨ ∃ zero inner, t = .sequence [zero, inner] ∧ zero.isZero = true ∧ s.isToken inner = true ∧
      s.knownCall t args = .rewritten (.call s.replacement.unbound args true) := by
  unfold knownCall
  split
  · rename_i items
    unfold unboundCall
    split
    · rename_i zero inner
      split
      · rename_i hz
        rw [Bool.and_eq_true] at hz
        exact .inr ⟨zero, inner, rfl, hz.1, hz.2, rfl⟩
      · exact .inl rfl
    · exact .inl rfl
  · have hof : ReceiverCall.of? t args = none := by
      have hsplit : ReceiverCall.splitMethod? t = none := by
        unfold ReceiverCall.splitMethod?
        split
        · simpa [isMethodAccess] using h
        · rfl
      simp [ReceiverCall.of?, hsplit]
    rw [hof]
    exact .inl rfl

/-- A call of a known form is made by a link, and its callee reads the token. -/
theorem linkAbove_knownCall {callee : Tree} {args : List Tree} {u : Tree} (h : s.knownCall callee args = .rewritten u) :
    LinkAbove s.Puts u ∧ ((∃ zero inner, callee = .sequence [zero, inner] ∧ s.isToken inner = true) ∨
      ∃ function word, callee = .member function word false ∧
        ((∃ o, function.object? = some o ∧ s.isToken o = true) ∨ s.isToken function = true)) := by
  cases known_of_knownCall h with
  | @unbound zero inner _ hz ht => exact ⟨.here (.call _) .unbound, .inl ⟨zero, inner, rfl, ht⟩⟩
  | @bind _ o _ c hc ho ht =>
    obtain ⟨word, rfl, -⟩ := ReceiverCall.eq_of_of? hc
    obtain ⟨l, -, hon⟩ := exists_onto_of_object? ho
    have hf : LinkAbove s.Puts (c.function.onObject s.replacement.opened true) := hon _ _ ▸ .here l .opened
    exact ⟨.above (.call _) false (.above (.member "bind") true hf), .inr ⟨c.function, word, rfl, .inl ⟨o, ho, ht⟩⟩⟩
  | @method _ o _ _ c hc ho ht hd =>
    obtain ⟨word, rfl, -⟩ := ReceiverCall.eq_of_of? hc
    obtain ⟨l, -, hon⟩ := exists_onto_of_object? ho
    have hf : LinkAbove s.Puts (c.function.onObject s.replacement.opened true) := hon _ _ ▸ .here l .opened
    exact ⟨.above (.call _) true hf, .inr ⟨c.function, word, rfl, .inl ⟨o, ho, ht⟩⟩⟩
  | @stored _ target _ _ c hc htarget ho ht hd =>
    obtain ⟨word, rfl, -⟩ := ReceiverCall.eq_of_of? hc
    have hr : s.replacement = target := by simp [replacement, htarget]
    exact ⟨.here (.call _) (hr ▸ .bound), .inr ⟨c.function, word, rfl, .inr ht⟩⟩

/-- A link stays when a token is looked for on the spine. -/
theorem linkAbove_onSpine (hs : s.token.bare.hasLink = false) (hP : ∀ t, P t → t.isMethodAccess = false) {x : Tree}
    (h : LinkAbove P x) : LinkAbove (fun u => ∃ t, P t ∧ s.Moves t u) (s.onSpine x).expr := by
  induction h with
  | @here l t h =>
    have hkept : (∀ args, l = .call args → s.knownCall t args = .other) →
        LinkAbove (fun u => ∃ t, P t ∧ s.Moves t u) (s.onSpine (l.onto true t)).expr := by
      intro hc
      cases ht : s.isToken t with
      | true =>
        rw [onSpine_token ht hc]
        exact .here l ⟨t, h, .token ht (s.puts_under l)⟩
      | false =>
        rw [onSpine_onto ht hc]
        exact .here l ⟨t, h, .searched t⟩
    cases l with
    | call args =>
      rcases knownCall_of_isMethodAccess (hP t h) args with hk | ⟨zero, inner, rfl, -, htoken, hk⟩
      · refine hkept fun args' hargs => ?_
        obtain rfl := Layer.call.inj hargs
        exact hk
      · simp only [Layer.onto, onSpine, hk]
        exact .here (.call args) ⟨_, h, .unbound htoken .unbound⟩
    | _ => exact hkept fun args hargs => by simp at hargs
  | @above l link t h ih =>
    have ht := isToken_eq_false hs h.hasLink.2
    have hother : (∀ args, l = .call args → s.knownCall t args = .other) →
        LinkAbove (fun u => ∃ t, P t ∧ s.Moves t u) (s.onSpine (l.onto link t)).expr := by
      intro hc
      rw [onSpine_onto ht hc]
      exact .above l link ih
    cases l with
    | call args =>
      cases hk : s.knownCall t args with
      | rewritten u =>
        simp only [Layer.onto, onSpine, hk]
        obtain ⟨hu, ⟨zero, inner, rfl, -⟩ | ⟨function, word, rfl, hfound⟩⟩ := linkAbove_knownCall hk
        · exact absurd h.isLayered (by simp [isLayered])
        · have hfunction : LinkAbove P function := by
            rcases linkAbove_onto_iff (l := .member word) |>.1 h with ⟨hlink, -⟩ | h
            · exact absurd hlink (by simp)
            · exact h
          rcases hfound with ⟨o, ho, htoken⟩ | htoken
          · obtain ⟨l', hl', -⟩ := exists_onto_of_object? ho
            rw [hl'] at hfunction
            rcases linkAbove_onto_iff.1 hfunction with ⟨-, hP⟩ | h
            · exact hu.mono fun u hu => ⟨o, hP, .token htoken hu⟩
            · exact absurd htoken (by simp [isToken_eq_false hs h.hasLink.2])
          · exact absurd htoken (by simp [isToken_eq_false hs hfunction.hasLink.2])
      | refused =>
        simp only [Layer.onto, onSpine, hk]
        exact .above (.call args) link (h.mono fun u hu => ⟨u, hu, .kept u⟩)
      | other =>
        refine hother fun args' hargs => ?_
        obtain rfl := Layer.call.inj hargs
        exact hk
    | _ => exact hother fun args hargs => by simp at hargs

end Substitution

namespace Tree

variable {P Q : Tree → Prop}

/-- Below `delete` and `void` the search begins anew. -/
theorem rewrite_unary {op : UnaryOp} (ho : op = .delete ∨ op = .void) (t token : Tree) (target : Option Tree) :
    (unary op t).rewrite token target = ⟨.unary op (t.rewrite token target).expr, (t.rewrite token target).matched⟩ := by
  have hopened : (unary op t).opened = .unary op t := rfl
  unfold rewrite
  simp only [hopened, Substitution.onSpine_unary ho]
  rfl

theorem LinkAbove.stopsAt_closed {t : Tree} (h : LinkAbove P t) : StopsAt P .undefined t.closed := by
  rw [h.closed]
  exact .chain h

theorem LinkAbove.opened {t : Tree} (h : LinkAbove P t) : t.opened = t ∧ (Tree.chain t).opened = t := by
  have hl := h.isLayered
  unfold Tree.isLayered at hl
  split at hl <;> simp_all [Tree.opened]

/-- The link of a guard stays when a further token is looked for. -/
theorem StopsAt.rewrite {token : Tree} (hs : token.bare.hasLink = false) (hP : ∀ t, P t → t.isMethodAccess = false)
    (target : Option Tree) {v : Value} {x : Tree} (h : StopsAt P v x) :
    StopsAt (fun u => ∃ t, P t ∧ Substitution.Moves ⟨token, target⟩ t u) v (x.rewrite token target).expr := by
  induction h with
  | opened h =>
    rw [Tree.rewrite, h.opened.1]
    exact (Substitution.linkAbove_onSpine (s := ⟨token, target⟩) hs hP h).stopsAt_closed
  | chain h =>
    rw [Tree.rewrite, h.opened.2]
    exact (Substitution.linkAbove_onSpine (s := ⟨token, target⟩) hs hP h).stopsAt_closed
  | delete _ ih =>
    rw [rewrite_unary (.inl rfl)]
    exact .delete ih
  | void _ ih =>
    rw [rewrite_unary (.inr rfl)]
    exact .void ih

end Tree

end Chainlift
