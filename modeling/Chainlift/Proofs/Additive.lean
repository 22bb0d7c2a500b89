import Chainlift.Proofs.Composition

/-!
# Counts that operations add up

The uses of a variable in an operation are those in its parts, and so are the assignments to it, unless the operation is one itself.
Rewriting puts parts together as other operations. So it leaves every such count as it is, but for the variables and the
assignments that it takes away or puts in (`Tree.Additive.foldCall`, `Tree.Additive.searched`).
-/

namespace Chainlift

open Tree

/-- Nothing but calls is folded. -/
theorem Tree.exists_call_of_foldCall {name : String} {t : Tree} (h : t.foldCall name ≠ t) :
    ∃ callee args link, t = .call callee args link := by
  unfold foldCall at h
  split at h
  · exact ⟨_, _, _, rfl⟩
  · exact absurd rfl h

/-- An operation counts as much as its parts, if it is neither a variable nor an assignment. -/
structure Tree.Additive (μ : Tree → Nat) : Prop where
  operation : ∀ {f : Form} {ps : List Tree}, f.isOperation = true → f.isAssignment = false → (∀ name, f ≠ .reference name) →
    μ (.node f ps) = (ps.map μ).sum

theorem Tree.additive_uses (name : String) : Additive fun t => t.uses name where
  operation := by
    intro f ps _ _ hf
    rw [uses_node, ownReferences_eq hf, List.count_nil, Nat.zero_add]

theorem Tree.assignmentCount_operation {f : Form} (hf : f.isOperation = true) (ha : f.isAssignment = false) (ps : List Tree)
    (name : String) : (node f ps).assignmentCount name = (ps.map (·.assignmentCount name)).sum := by
  have hfunction : f.isFunction = false := by cases f <;> first | rfl | exact absurd hf (by simp [Form.isOperation])
  have hown : ownAssignments f ps = [] := ownAssignments_eq (by rintro rfl; exact absurd ha (by simp [Form.isAssignment])) ps
  rw [assignmentCount_node hfunction, hown, List.count_nil, Nat.zero_add]

theorem Tree.additive_assignmentCount (name : String) : Additive fun t => t.assignmentCount name where
  operation hf ha _ := assignmentCount_operation hf ha _ name

namespace Tree.Additive

variable {μ : Tree → Nat} (hμ : Additive μ)

include hμ

theorem onto (l : Layer) (link : Bool) (t : Tree) : μ (l.onto link t) = μ t + (l.parts.map μ).sum := by
  cases l <;> rw [Layer.onto, hμ.operation rfl rfl (by simp)] <;> simp [Layer.parts]

theorem call (callee : Tree) (args : List Tree) (link : Bool) : μ (.call callee args link) = μ callee + (args.map μ).sum :=
  hμ.onto (.call args) link callee

theorem member (object : Tree) (word : String) (link : Bool) : μ (.member object word link) = μ object :=
  hμ.onto (.member word) link object

theorem unary (op : UnaryOp) (t : Tree) : μ (.unary op t) = μ t := by
  rw [hμ.operation rfl rfl (by simp)]
  simp

theorem opened (t : Tree) : μ t.opened = μ t := by
  unfold Tree.opened
  split
  · rfl
  · rw [hμ.operation (f := .chain) rfl rfl (by simp)]
    simp
  · rfl

theorem closed (t : Tree) : μ t.closed = μ t := by
  unfold Tree.closed
  split
  · rw [hμ.operation rfl rfl (by simp)]
    simp
  · rfl

theorem unbound (t : Tree) : μ t.unbound = μ t := by
  have hzero : μ (.number .zero) = 0 := by
    rw [hμ.operation rfl rfl (by simp)]
    rfl
  rw [Tree.unbound, hμ.operation rfl rfl (by simp)]
  simp [hzero]

/-- The access on another object. -/
theorem onObject {t o : Tree} (h : t.object? = some o) (u : Tree) (link : Bool) : μ (t.onObject u link) + μ o = μ t + μ u := by
  obtain ⟨l, hl, hon⟩ := exists_onto_of_object? h
  have ht := congrArg μ hl
  rw [hμ.onto] at ht
  rw [hon, hμ.onto]
  omega

theorem directArguments {m : Method} {rest direct : List Tree} (h : m.directArguments rest = some direct) :
    (direct.map μ).sum = (rest.map μ).sum := by
  obtain ⟨-, rfl⟩ | ⟨-, ⟨rfl, rfl⟩ | ⟨rfl, -⟩ | ⟨list, rfl, -, rfl⟩⟩ := directArguments_eq_some h
  · rfl
  · rfl
  · rw [List.map_singleton, List.sum_singleton, hμ.operation rfl rfl (by simp)]
  · rw [List.map_singleton, List.sum_singleton, hμ.operation rfl rfl (by simp)]

/-- A call that is folded loses the assignment of the variable and the variable as a receiver. -/
theorem foldCall (name : String) (t : Tree) : t.foldCall name = t ∨
    ∃ value, μ (t.foldCall name) + μ (.assign .plain (.reference name) value) + μ (.reference name) = μ t + μ value := by
  by_cases heq : t.foldCall name = t
  · exact .inl heq
  · obtain ⟨callee, args, link, rfl⟩ := exists_call_of_foldCall heq
    obtain ⟨function, word, linked, object, value, method, rest, direct, rfl, -, ho, ha, rfl, hd, heq⟩ := exists_of_foldCall heq
    obtain rfl := eq_of_assignment? ha
    have hfunction := hμ.onObject ho value function.isLink
    have hdirect := hμ.directArguments hd
    refine .inr ⟨value, ?_⟩
    rw [heq, hμ.call, hμ.call, hμ.member, List.map_cons, List.sum_cons]
    omega

/-! ## The spine -/

variable {s : Substitution}

theorem under (l : Layer) : μ (s.under l) = μ s.replacement := by
  cases l with
  | call args =>
    show μ s.unboundCallee = _
    simp only [Substitution.unboundCallee]
    split <;> split
    · exact hμ.unbound _
    · rfl
    · exact hμ.unbound _
    · rfl
  | _ => exact hμ.opened _

theorem receiverCall {callee : Tree} {args : List Tree} {c : ReceiverCall} (h : ReceiverCall.of? callee args = some c) :
    μ callee = μ c.function ∧ (args.map μ).sum = μ c.receiver + (c.rest.map μ).sum := by
  obtain ⟨word, rfl, -, rfl⟩ := ReceiverCall.eq_of_of? h
  exact ⟨hμ.onto (.member word) false c.function, by rw [List.map_cons, List.sum_cons]⟩

theorem known {callee u : Tree} {args : List Tree} (h : s.Known callee args u) :
    μ u ≤ μ callee + (args.map μ).sum + μ s.replacement := by
  cases h with
  | unbound args hz ht =>
    rw [hμ.call, hμ.unbound]
    omega
  | @bind _ o _ c hc ho ht =>
    obtain ⟨hcallee, hargs⟩ := hμ.receiverCall hc
    have hfunction := hμ.onObject ho s.replacement.opened true
    rw [hμ.opened] at hfunction
    rw [hμ.call, hμ.member, List.map_cons, List.sum_cons]
    omega
  | method hc ho ht hd =>
    obtain ⟨hcallee, hargs⟩ := hμ.receiverCall hc
    have hfunction := hμ.onObject ho s.replacement.opened true
    rw [hμ.opened] at hfunction
    rw [hμ.call, hμ.directArguments hd]
    omega
  | @stored _ target _ _ _ hc htarget ho ht hd =>
    obtain ⟨hcallee, hargs⟩ := hμ.receiverCall hc
    have hr : s.replacement = target := by simp [Substitution.replacement, htarget]
    rw [hμ.call, hμ.directArguments hd, hr]
    omega

end Tree.Additive

/-- What is found on a spine is replaced, and nothing else is put in; or an assignment to the token becomes one to the target, and
nothing else changes. -/
theorem Substitution.Searched.counts {s : Substitution} {t : Tree} {r : Rewritten} (h : s.Searched t r) :
    (∀ {μ : Tree → Nat}, Additive μ → μ r.expr ≤ μ t + μ s.replacement) ∨
    ∃ op token target value, s.isTokenTarget token = true ∧ s.replacement.asTarget? = some target ∧
      ∀ {μ : Tree → Nat}, Additive μ → μ r.expr + μ (.assign op token value) = μ t + μ (.assign op target value) := by
  induction h with
  | known link h =>
    refine .inl fun hμ => ?_
    rw [hμ.call]
    exact hμ.known (known_of_knownCall h)
  | token l link _ =>
    refine .inl fun hμ => ?_
    rw [hμ.onto, hμ.onto, hμ.under]
    omega
  | above l link _ ih =>
    rcases ih with ih | ⟨op, token, target, value, htoken, htarget, ih⟩
    · refine .inl fun hμ => ?_
      have := ih hμ
      rw [hμ.onto, hμ.onto]
      omega
    · refine .inr ⟨op, token, target, value, htoken, htarget, fun hμ => ?_⟩
      have := ih hμ
      rw [hμ.onto, hμ.onto]
      omega
  | inside op hop _ ih =>
    rcases ih with ih | ⟨op', token, target, value, htoken, htarget, ih⟩
    · refine .inl fun hμ => ?_
      have := ih hμ
      rw [hμ.opened] at this
      rwa [hμ.unary, hμ.unary, hμ.closed]
    · refine .inr ⟨op', token, target, value, htoken, htarget, fun hμ => ?_⟩
      have := ih hμ
      rw [hμ.opened] at this
      rwa [hμ.unary, hμ.unary, hμ.closed]
  | @assigned op value token target ht htarget => exact .inr ⟨op, token, target, value, ht, htarget, fun _ => Nat.add_comm _ _⟩
  | kept t => exact .inl fun _ => Nat.le_add_right _ _

end Chainlift
