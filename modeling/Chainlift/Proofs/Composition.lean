import Chainlift.Proofs.Closed

/-!
# Properties that rewriting hands on

Rewriting takes operations apart and puts their parts together as other operations. So a property that an operation has exactly
if all its parts have it, and that folding keeps, is handed on to whatever is put in the place of an expression
(`Tree.Compositional.reconstruct`, `Tree.Compositional.coalesce`).
-/

namespace Chainlift

open Tree

/-- What rewriting takes apart and puts together. -/
def Form.isOperation : Form → Bool
  | .reference _ | .number _ | .array | .spread | .sequence => true
  | .member .. | .privateMember .. | .index _ | .call _ | .chain => true
  | .unary _ | .binary _ | .logical _ | .conditional | .assign _ => true
  | _ => false

def Form.isAssignment : Form → Bool
  | .assign _ => true
  | _ => false

/-- An operation has the property if and only if all its parts have it; an assignment may ask for more. -/
structure Tree.Partwise (P : Tree → Prop) : Prop where
  operation : ∀ {f : Form} {ps : List Tree}, f.isOperation = true → f.isAssignment = false → (P (.node f ps) ↔ ∀ p ∈ ps, P p)
  assigned : ∀ {op : AssignOp} {target value : Tree}, P (.assign op target value) → P target ∧ P value

/-- Moreover, an assignment to a variable or a property asks for no more, and folding a variable keeps the property. -/
structure Tree.Compositional (P : Tree → Prop) : Prop extends Partwise P where
  assign : ∀ {op : AssignOp} {t target value : Tree}, t.asTarget? = some target → P target → P value → P (.assign op target value)
  fold : ∀ {t : Tree} (name : String), P t → P (t.fold name)

namespace Tree.Partwise

variable {P : Tree → Prop} (hP : Partwise P)

include hP

theorem onto {l : Layer} {link : Bool} {t : Tree} : P (l.onto link t) ↔ P t ∧ ∀ p ∈ l.parts, P p := by
  cases l with
  | member name => simp [Layer.onto, Layer.parts, hP.operation (f := .member name link) rfl rfl]
  | privateMember name => simp [Layer.onto, Layer.parts, hP.operation (f := .privateMember name link) rfl rfl]
  | index key => simp [Layer.onto, Layer.parts, hP.operation (f := .index link) rfl rfl]
  | call args => simp [Layer.onto, Layer.parts, hP.operation (f := .call link) rfl rfl]

theorem logical {op : LogicalOp} {a b : Tree} : P (.logical op a b) ↔ P a ∧ P b := by
  simp [hP.operation (f := .logical op) rfl rfl]

theorem conditional {c yes no : Tree} : P (.conditional c yes no) ↔ P c ∧ P yes ∧ P no := by
  simp [hP.operation (f := .conditional) rfl rfl]

theorem binary {op : BinaryOp} {a b : Tree} : P (.binary op a b) ↔ P a ∧ P b := by
  simp [hP.operation (f := .binary op) rfl rfl]

theorem unary {op : UnaryOp} {t : Tree} : P (.unary op t) ↔ P t := by
  simp [hP.operation (f := .unary op) rfl rfl]

theorem reference (name : String) : P (.reference name) := by
  simp [hP.operation (f := .reference name) rfl rfl]

theorem chain {t : Tree} : P (.chain t) ↔ P t := by
  simp [hP.operation (f := .chain) rfl rfl]

theorem opened {t : Tree} (h : P t) : P t.opened := by
  unfold Tree.opened
  split
  · exact h
  · exact hP.chain.1 h
  · exact h

theorem closed {t : Tree} (h : P t) : P t.closed := by
  unfold Tree.closed
  split
  · exact hP.chain.2 h
  · exact h

theorem unbound {t : Tree} (h : P t) : P t.unbound := by
  have hzero : P (.number .zero) := (hP.operation rfl rfl).2 (by simp)
  exact (hP.operation rfl rfl).2 (by simpa using ⟨hzero, h⟩)

theorem value {t v : Tree} {name : String} (ha : t.assignment? = some (name, v)) (h : P t) : P v := by
  rw [eq_of_assignment? ha] at h
  exact (hP.assigned h).2

/-- The object of an access, and the access on another one. -/
theorem onObject {t o : Tree} (ho : t.object? = some o) (h : P t) : P o ∧ ∀ u link, P u → P (t.onObject u link) := by
  obtain ⟨l, hl, hon⟩ := exists_onto_of_object? ho
  rw [hl] at h
  obtain ⟨hobject, hparts⟩ := hP.onto.1 h
  exact ⟨hobject, fun u link hu => by rw [hon]; exact hP.onto.2 ⟨hu, hparts⟩⟩

/-! ## The spine -/

theorem directArguments {m : Method} {rest direct : List Tree} (h : m.directArguments rest = some direct)
    (hrest : ∀ a ∈ rest, P a) : ∀ a ∈ direct, P a := by
  obtain ⟨-, rfl⟩ | ⟨-, ⟨rfl, rfl⟩ | ⟨rfl, -⟩ | ⟨list, rfl, -, rfl⟩⟩ := directArguments_eq_some h
  · exact hrest
  · exact hrest
  · exact (hP.operation rfl rfl).1 (hrest _ (List.mem_singleton_self _))
  · have hlist : P (.spread list) := (hP.operation rfl rfl).2 (by simpa using hrest list (by simp))
    simpa using hlist

theorem receiverCall {callee : Tree} {args : List Tree} {c : ReceiverCall} (h : ReceiverCall.of? callee args = some c)
    (hcallee : P callee) (hargs : ∀ a ∈ args, P a) : P c.function ∧ P c.receiver ∧ ∀ a ∈ c.rest, P a := by
  obtain ⟨word, rfl, -, rfl⟩ := ReceiverCall.eq_of_of? h
  simp only [List.mem_cons, forall_eq_or_imp] at hargs
  exact ⟨((hP.onto (l := .member word)).1 hcallee).1, hargs⟩

variable {s : Substitution}

theorem under (hs : P s.replacement) (l : Layer) : P (s.under l) := by
  cases l with
  | call args =>
    show P s.unboundCallee
    simp only [Substitution.unboundCallee]
    split <;> split
    · exact hP.unbound hs
    · exact hs
    · exact hP.unbound hs
    · exact hs
  | _ => exact hP.opened hs

theorem known (hs : P s.replacement) {callee u : Tree} {args : List Tree} (h : s.Known callee args u) (hcallee : P callee)
    (hargs : ∀ a ∈ args, P a) : P u := by
  have hcall : ∀ {function : Tree} {direct : List Tree} {link : Bool}, P function → (∀ a ∈ direct, P a) →
      P ((Layer.call direct).onto link function) := fun hf hd => hP.onto.2 ⟨hf, hd⟩
  cases h with
  | unbound args hz ht => exact hcall (hP.unbound hs) hargs
  | bind hc ho ht =>
    obtain ⟨hfunction, hreceiver, hrest⟩ := hP.receiverCall hc hcallee hargs
    have hbound := (hP.onObject ho hfunction).2 _ true (hP.opened hs)
    exact hcall ((hP.onto (l := .member "bind")).2 ⟨hbound, by simp [Layer.parts]⟩) (by simpa using ⟨hreceiver, hrest⟩)
  | method hc ho ht hd =>
    obtain ⟨hfunction, -, hrest⟩ := hP.receiverCall hc hcallee hargs
    exact hcall ((hP.onObject ho hfunction).2 _ true (hP.opened hs)) (hP.directArguments hd hrest)
  | @stored _ target _ _ _ hc htarget ho ht hd =>
    obtain ⟨-, -, hrest⟩ := hP.receiverCall hc hcallee hargs
    have hr : s.replacement = target := by simp [Substitution.replacement, htarget]
    rw [hr] at hs
    exact hcall hs (hP.directArguments hd hrest)

/-! ## Guards -/

theorem operand {t : Tree} {c : NullCheck} (h : NullCheck.of? t = some c) (ht : P t) : P c.operand := by
  obtain ⟨op, a, b, rfl, hab | hab, -⟩ := NullCheck.operand_mem h
  · rw [hab]
    exact (hP.binary.1 ht).1
  · rw [hab]
    exact (hP.binary.1 ht).2

theorem negated {t : Tree} (h : P t) : P t.negated := by
  refine negated_induct (motive := fun t u => P t → P u) ?_ ?_ ?_ ?_ ?_ t h
  · exact fun op op' a b _ h => hP.binary.2 (hP.binary.1 h)
  · exact fun t h => hP.unary.2 h
  · exact fun t h => hP.unary.1 h
  · exact fun a b iha ihb h => hP.logical.2 ⟨iha (hP.logical.1 h).1, ihb (hP.logical.1 h).2⟩
  · exact fun a b iha ihb h => hP.logical.2 ⟨iha (hP.logical.1 h).1, ihb (hP.logical.1 h).2⟩

theorem consists {t : Tree} (h : P t) : t.decision.Consists P P := by
  have hd := Decision.consists_ofValue ⟨fun _ _ _ => hP.logical.1, fun _ _ _ => hP.conditional.1⟩ h
  unfold decision Decision.oriented
  split
  · exact hd.negated fun _ => hP.negated
  · exact hd

/-! ## Restored `??` -/

theorem alternatives {t : Tree} (h : P t) : ∀ a ∈ t.alternatives, P a := of_mem_alternatives (fun h => hP.logical.1 h) h

theorem bindings {test : Tree} {s : Survey} (h : test.alternatives.foldlM Survey.addGuard {} = some s) (htest : P test) :
    ∀ b ∈ s.bindings, P b.access := by
  intro b hb
  obtain ⟨guard, hguard, c, hc, hop⟩ := (Survey.exists_of_mem_foldlM h b hb).resolve_left (by simp)
  have hoperand := hP.operand hc (hP.alternatives htest guard hguard)
  rw [hop] at hoperand
  exact (hP.assigned hoperand).2

theorem foldl_onObject (optional : String → Bool) {path : List (String × Tree)} (h : ∀ step ∈ path, P step.2) {t : Tree}
    (ht : P t) : P (path.foldl (fun chain step => step.2.onObject chain (optional step.1)) t) := by
  induction path generalizing t with
  | nil => exact ht
  | cons step path ih =>
    simp only [List.mem_cons, forall_eq_or_imp] at h
    refine ih h.2 ?_
    cases ho : step.2.object? with
    | some o => exact (hP.onObject ho h.1).2 _ _ ht
    | none =>
      have hself : step.2.onObject t (optional step.1) = step.2 := by
        unfold object? at ho
        unfold Tree.onObject
        split <;> simp_all
      simp only [hself]
      exact h.1

theorem guardedChain {value : Tree} {r : Replacement} (hvalue : P value) (h : value.guardedChain = some r) : P r.expr := by
  obtain ⟨test, yes, no, rfl⟩ := exists_conditional_of_guardedChain h
  obtain ⟨-, s, root, last, path, hs, -, -, hclimb, rfl⟩ := guardedChain_eq_some.1 h
  obtain ⟨htest, -, hno⟩ := hP.conditional.1 hvalue
  have hbindings := hP.bindings hs htest
  have haccesses : ∀ a ∈ path ++ [(last, no)], P a.2 := by
    intro a ha
    rcases List.mem_append.1 ha with ha | ha
    · obtain ⟨b, hb, heq⟩ := Survey.mem_climb hclimb a ha
      rw [← heq]
      exact hbindings b (List.mem_reverse.1 hb)
    · rw [List.mem_singleton.1 ha]
      exact hno
  exact hP.closed (hP.foldl_onObject _ haccesses (hP.reference root))

theorem notNullChecks {test : Tree} {first : NullCheck} {second : Option NullCheck} (h : test.notNullChecks = some (first, second))
    (htest : P test) : P first.operand := by
  obtain ⟨p, q, b, rfl, hp, -⟩ | ⟨hc, -⟩ := notNullChecks_eq_some h
  · exact hP.operand hp (hP.logical.1 htest).1
  · exact hP.operand hc htest

/-- A restored `??` has the property of the expanded one. -/
theorem coalesce {t : Tree} {r : Replacement} (ht : P t) (h : t.coalesce = some r) : P r.expr := by
  obtain ⟨test, fallback, name, first, second, rfl, hchecks, -, hcases⟩ := coalesce_eq_some h
  obtain ⟨htest, hname, hfallback⟩ := hP.conditional.1 ht
  rcases hcases with ⟨value, left, -, hop, rfl, -, rfl⟩ | ⟨-, rfl⟩
  · have hoperand := hP.notNullChecks hchecks htest
    rw [hop] at hoperand
    have hvalue := (hP.assigned hoperand).2
    refine hP.logical.2 ⟨?_, hfallback⟩
    cases hc : value.guardedChain with
    | none => exact hvalue
    | some r => exact hP.guardedChain hvalue hc
  · exact hP.logical.2 ⟨hname, hfallback⟩

/-! ## Folding -/

theorem foldCall {t : Tree} (h : P t) (name : String) : P (t.foldCall name) := by
  by_cases hc : ∃ callee args link, t = .call callee args link
  · obtain ⟨callee, args, link, rfl⟩ := hc
    rcases foldCall_cases name callee args link with
      heq | ⟨function, word, linked, object, value, method, receiver, rest, direct, rfl, -, ho, ha, hr, hd, heq⟩
    · rw [heq]
      exact h
    · obtain ⟨hcallee, hargs⟩ := (hP.onto (l := .call args)).1 h
      have hfunction := ((hP.onto (l := .member word)).1 hcallee).1
      obtain ⟨hobject, hon⟩ := hP.onObject ho hfunction
      obtain rfl := eq_cons_of_splitReceiver? hr
      have hrest : ∀ a ∈ rest, P a := fun a ha' => hargs a (List.mem_cons_of_mem _ ha')
      rw [heq]
      exact (hP.onto (l := .call direct)).2 ⟨hon value _ (hP.value ha hobject), hP.directArguments hd hrest⟩
  · unfold Tree.foldCall
    split
    · exact absurd ⟨_, _, _, rfl⟩ hc
    · exact h

theorem unwrapOne {t : Tree} (h : P t) (name : String) : P (t.unwrapOne name) := by
  unfold Tree.unwrapOne
  split
  · rename_i ha
    split
    · exact hP.value ha h
    · exact h
  · exact h

end Tree.Partwise

namespace Tree.Compositional

variable {P : Tree → Prop} (hP : Compositional P)

include hP

theorem searched {s : Substitution} (hs : P s.replacement) {t : Tree} {r : Rewritten} (h : s.Searched t r) (ht : P t) : P r.expr := by
  induction h with
  | known link h =>
    obtain ⟨hcallee, hargs⟩ := (hP.onto (l := .call _)).1 ht
    exact hP.known hs (Substitution.known_of_knownCall h) hcallee hargs
  | token l link _ => exact hP.onto.2 ⟨hP.under hs l, (hP.onto.1 ht).2⟩
  | above l link _ ih =>
    obtain ⟨ht, hl⟩ := hP.onto.1 ht
    exact hP.onto.2 ⟨ih ht, hl⟩
  | inside op hop _ ih => exact hP.unary.2 (hP.closed (ih (hP.opened (hP.unary.1 ht))))
  | assigned op value _ htarget =>
    obtain rfl := eq_of_asTarget? htarget
    exact hP.assign htarget hs (hP.assigned ht).2
  | kept t => exact ht

theorem rewrite {t token u : Tree} (ht : P t) (hu : P u) : P (t.rewrite token (some u)).expr :=
  hP.closed (hP.searched (s := ⟨token, some u⟩) hu (Substitution.searched_onSpine _ _) (hP.opened ht))

theorem relink {c : NullCheck} (hc : P c.operand) {t : Tree} (ht : P t) : P (c.relink t) := by
  have htarget : P c.target := by
    unfold NullCheck.target
    split
    · rename_i ha
      exact hP.value ha hc
    · exact hc
  unfold NullCheck.relink
  simp only
  split
  · exact hP.rewrite ht hc
  · exact hP.rewrite ht htarget

theorem foldEach {t : Tree} (h : P t) (names : List String) : P (t.foldEach names).1 := by
  induction names generalizing t with
  | nil => exact h
  | cons name names ih =>
    unfold Tree.foldEach
    simp only
    split
    · exact ih (hP.fold name h)
    · exact ih h

open Constructed in
theorem ofGuards {cs : List NullCheck} {value : Tree} {x : Constructed} (h : ofGuards cs value = some x)
    (hcs : ∀ c ∈ cs, P c.operand) (hvalue : P value) : P x.expr := by
  induction cs generalizing x with
  | nil =>
    obtain rfl := Option.some.inj h
    exact hP.foldEach hvalue _
  | cons c cs ih =>
    simp only [List.mem_cons, forall_eq_or_imp] at hcs
    obtain ⟨rest, hrest, hx⟩ := Option.bind_eq_some_iff.1 h
    obtain ⟨-, rfl⟩ := addGuard_eq_some.1 hx
    exact hP.foldEach (hP.relink hcs.1 (ih hrest hcs.2)) _

/-- What is reconstructed has the property of the expression. -/
theorem reconstruct {t : Tree} {o : Options} {r : Replacement} (ht : P t) (h : t.reconstruct o = some r) : P r.expr := by
  obtain ⟨-, c, x, -, -, hx, -, rfl⟩ := reconstruct_eq h
  have hd := hP.consists ht
  have hexpr : P x.expr := by
    refine hP.ofGuards hx (fun k hk => ?_) hd.guarded
    obtain ⟨condition, hcondition, hof⟩ := hd.of_mem_guardsFrom hk
    exact hP.operand hof hcondition
  have hconditions : ∀ c ∈ t.decision.alternatives, P c := fun c hc => hd.of_mem_alternativesFrom hc
  show P (t.decision.alternatives.foldr (.logical .or) x.expr)
  generalize t.decision.alternatives = cs at hconditions ⊢
  induction cs with
  | nil => exact hexpr
  | cons c cs ih =>
    simp only [List.mem_cons, forall_eq_or_imp] at hconditions
    exact hP.logical.2 ⟨hconditions.1, ih hconditions.2⟩

end Tree.Compositional

end Chainlift
