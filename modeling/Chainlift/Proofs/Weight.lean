import Chainlift.Proofs.Marks
import Chainlift.Proofs.Search
import Chainlift.Proofs.Survey

/-!
# What a rewrite weighs

What a rewrite puts together was there before: every part of the expression is used at most once, and at least one conditional,
`&&` or `||` goes. So nothing that can be counted node by node becomes more, and the result is lighter by the weight of a choice
(`Weight.reconstruct_le`, `Weight.coalesce_le`). What is counted at a function may depend on its parts, which are never looked
into.
-/

namespace Chainlift

open Tree

/-- Something that is counted at each reference, at each function, and at each conditional, `&&` and `||`. A choice between
branches counts the same wherever it stands; at a function the count may depend on the parts. -/
structure Weight where
  own : Form → List Tree → Nat
  choice : Nat
  own_branching : ∀ f ps, (node f ps).isBranching = true → own f ps = choice
  own_eq_zero : ∀ f ps, f.isFunction = false → (node f ps).isBranching = false → (∀ name, f ≠ .reference name) → own f ps = 0
  own_reference : ∀ name ps qs, own (.reference name) ps = own (.reference name) qs

namespace Weight

variable (w : Weight)

mutual
/-- The sum over all nodes of a tree. -/
def total : Tree → Nat
  | .node f ps => w.own f ps + totalAll ps

def totalAll : List Tree → Nat
  | [] => 0
  | t :: ts => total t + totalAll ts

end

theorem totalAll_eq_sum (ts : List Tree) : w.totalAll ts = (ts.map w.total).sum := by
  induction ts with
  | nil => rfl
  | cons t ts ih => rw [totalAll, ih, List.map_cons, List.sum_cons]

theorem total_node (f : Form) (ps : List Tree) : w.total (.node f ps) = w.own f ps + (ps.map w.total).sum := by
  rw [total, totalAll_eq_sum]

/-- A node that is neither a reference nor a function nor a choice is as much as its parts. -/
theorem total_of_form {f : Form} {ps : List Tree} (hf : f.isFunction = false) (hb : (node f ps).isBranching = false)
    (hr : ∀ name, f ≠ .reference name) : w.total (.node f ps) = (ps.map w.total).sum := by
  rw [total_node, w.own_eq_zero f ps hf hb hr, Nat.zero_add]

theorem total_of_isBranching {f : Form} {ps : List Tree} (h : (node f ps).isBranching = true) :
    w.total (.node f ps) = w.choice + (ps.map w.total).sum := by
  rw [total_node, w.own_branching f ps h]

theorem total_call (callee : Tree) (args : List Tree) (link : Bool) :
    w.total (.call callee args link) = w.total callee + (args.map w.total).sum := by
  rw [w.total_of_form rfl rfl (by simp), List.map_cons, List.sum_cons]

theorem total_unary (op : UnaryOp) (t : Tree) : w.total (.unary op t) = w.total t := by
  rw [w.total_of_form rfl rfl (by simp)]
  simp

theorem total_binary (op : BinaryOp) (a b : Tree) : w.total (.binary op a b) = w.total a + w.total b := by
  rw [w.total_of_form rfl rfl (by simp)]
  simp

theorem total_and (a b : Tree) : w.total (.logical .and a b) = w.choice + (w.total a + w.total b) := by
  rw [w.total_of_isBranching rfl]
  simp

theorem total_or (a b : Tree) : w.total (.logical .or a b) = w.choice + (w.total a + w.total b) := by
  rw [w.total_of_isBranching rfl]
  simp

theorem total_coalesce (a b : Tree) : w.total (.logical .coalesce a b) = w.total a + w.total b := by
  rw [w.total_of_form rfl rfl (by simp)]
  simp

theorem total_conditional (c yes no : Tree) :
    w.total (.conditional c yes no) = w.choice + (w.total c + w.total yes + w.total no) := by
  rw [w.total_of_isBranching rfl]
  simp [Nat.add_assoc]

theorem total_assign (op : AssignOp) (a b : Tree) : w.total (.assign op a b) = w.total a + w.total b := by
  rw [w.total_of_form rfl rfl (by simp)]
  simp

theorem total_chain (t : Tree) : w.total (.chain t) = w.total t := by
  rw [w.total_of_form rfl rfl (by simp)]
  simp

theorem total_onto (l : Layer) (link : Bool) (t : Tree) :
    w.total (l.onto link t) = w.total t + (l.parts.map w.total).sum := by
  cases l <;> rw [Layer.onto, w.total_of_form rfl rfl (by simp)] <;> simp [Layer.parts]

theorem total_opened (t : Tree) : w.total t.opened = w.total t := by
  unfold opened
  split
  · rfl
  · exact (w.total_chain _).symm
  · rfl

theorem total_closed (t : Tree) : w.total t.closed = w.total t := by
  unfold closed
  split
  · exact w.total_chain t
  · rfl

theorem total_unbound (t : Tree) : w.total t.unbound = w.total t := by
  have hzero : w.total (.number .zero) = 0 := by rw [w.total_of_form rfl rfl (by simp)]; rfl
  rw [unbound, w.total_of_form rfl rfl (by simp)]
  simp [hzero]

/-- The access on another object. -/
theorem total_onObject {t o : Tree} (h : t.object? = some o) (u : Tree) (link : Bool) :
    w.total (t.onObject u link) + w.total o = w.total t + w.total u := by
  obtain ⟨l, hl, hon⟩ := exists_onto_of_object? h
  have ht := congrArg w.total hl
  rw [total_onto] at ht
  rw [hon, total_onto]
  omega

/-! ## Folding -/

theorem total_directArguments {method : Method} {rest direct : List Tree} (h : method.directArguments rest = some direct) :
    (direct.map w.total).sum ≤ (rest.map w.total).sum := by
  obtain ⟨-, rfl⟩ | ⟨-, ⟨rfl, rfl⟩ | ⟨rfl, -⟩ | ⟨list, rfl, -, rfl⟩⟩ := directArguments_eq_some h
  · exact Nat.le_refl _
  · exact Nat.le_refl _
  · rw [List.map_cons, List.sum_cons, w.total_of_form rfl rfl (by simp)]
    exact Nat.le_add_right ..
  · rw [List.map_cons, List.sum_cons, w.total_of_form rfl rfl (by simp)]
    simp

theorem total_splitReceiver {args rest : List Tree} {receiver : Tree} (h : ReceiverCall.splitReceiver? args = some (receiver, rest)) :
    (args.map w.total).sum = w.total receiver + (rest.map w.total).sum := by
  rw [eq_cons_of_splitReceiver? h, List.map_cons, List.sum_cons]

theorem foldCall_le (name : String) (t : Tree) : w.total (t.foldCall name) ≤ w.total t := by
  by_cases hc : ∃ callee args link, t = .call callee args link
  · obtain ⟨callee, args, link, rfl⟩ := hc
    rcases foldCall_cases name callee args link with
      h | ⟨function, word, linked, object, value, method, receiver, rest, direct, rfl, -, ho, ha, hr, hd, h⟩
    · rw [h]
    · have hdirect := w.total_directArguments hd
      have hargs := w.total_splitReceiver hr
      have hfunction := w.total_onObject ho value function.isLink
      have hobject := congrArg w.total (eq_of_assignment? ha)
      have hcallee : w.total (.member function word linked) = w.total function := by
        rw [w.total_of_form rfl rfl (by simp)]
        simp
      rw [total_assign] at hobject
      rw [h, total_call, total_call, hcallee]
      omega
  · unfold foldCall
    split
    · exact absurd ⟨_, _, _, rfl⟩ hc
    · exact Nat.le_refl _

theorem unwrapOne_le (name : String) (t : Tree) : w.total (t.unwrapOne name) ≤ w.total t := by
  unfold unwrapOne
  split
  · rename_i heq
    split
    · rw [eq_of_assignment? heq, total_assign]
      exact Nat.le_add_left ..
    · exact Nat.le_refl _
  · exact Nat.le_refl _

/-- A node that is no function, with less in its parts. -/
theorem total_map_le {g : Tree → Tree} {f : Form} (hf : f.isFunction = false) {ps : List Tree}
    (h : ∀ p ∈ ps, w.total (g p) ≤ w.total p) : w.total (.node f (ps.map g)) ≤ w.total (.node f ps) := by
  rw [total_node, total_node, List.map_map]
  refine Nat.add_le_add (Nat.le_of_eq ?_) (List.sum_le_sum h)
  by_cases hr : ∃ name, f = .reference name
  · obtain ⟨name, rfl⟩ := hr
    exact w.own_reference ..
  have hr : ∀ name, f ≠ .reference name := fun name h => hr ⟨name, h⟩
  -- Whether a node is a choice is told by its form.
  cases hb : (node f ps).isBranching with
  | true => rw [w.own_branching f ps hb, w.own_branching f (ps.map g) hb]
  | false => rw [w.own_eq_zero f ps hf hb hr, w.own_eq_zero f (ps.map g) hf hb hr]

theorem foldCalls_le (name : String) (t : Tree) : w.total (t.foldCalls name) ≤ w.total t := by
  refine foldCalls_induct (motive := fun t u => w.total u ≤ w.total t) name ?_ ?_ t
  · exact fun _ _ _ => Nat.le_refl _
  · exact fun _ _ hf ih => (w.foldCall_le name _).trans (w.total_map_le hf ih)

theorem unwrap_le (name : String) (t : Tree) : w.total (t.unwrap name) ≤ w.total t := by
  refine unwrap_induct (motive := fun t u => w.total u ≤ w.total t) name ?_ ?_ t
  · exact fun _ _ _ => Nat.le_refl _
  · exact fun _ _ hf ih => (w.unwrapOne_le name _).trans (w.total_map_le hf ih)

theorem fold_le (name : String) (t : Tree) : w.total (t.fold name) ≤ w.total t := by
  unfold fold
  simp only
  split
  · exact (w.unwrap_le name _).trans (w.foldCalls_le name t)
  · exact w.foldCalls_le name t

theorem foldEach_le (t : Tree) (names : List String) : w.total (t.foldEach names).1 ≤ w.total t := by
  induction names generalizing t with
  | nil => exact Nat.le_refl _
  | cons name names ih =>
    unfold foldEach
    simp only
    split
    · exact (ih _).trans (w.fold_le name t)
    · exact ih t

/-! ## The spine -/

variable {s : Substitution}

theorem unboundCallee_eq (s : Substitution) : w.total s.unboundCallee = w.total s.replacement := by
  simp only [Substitution.unboundCallee]
  split <;> split
  · exact w.total_unbound _
  · rfl
  · exact w.total_unbound _
  · rfl

theorem total_receiver {callee : Tree} {args : List Tree} {c : ReceiverCall} (h : ReceiverCall.of? callee args = some c) :
    w.total callee = w.total c.function ∧ (args.map w.total).sum = w.total c.receiver + (c.rest.map w.total).sum := by
  unfold ReceiverCall.of? at h
  simp only [Option.bind_eq_bind, Option.bind_eq_some_iff] at h
  obtain ⟨⟨function, method⟩, hsplit, ⟨receiver, rest⟩, hr, h⟩ := h
  obtain rfl := Option.some.inj h
  refine ⟨?_, w.total_splitReceiver hr⟩
  unfold ReceiverCall.splitMethod? at hsplit
  split at hsplit
  · obtain ⟨method', -, hm⟩ := Option.map_eq_some_iff.1 hsplit
    obtain ⟨rfl, -⟩ := Prod.mk.inj hm
    rw [w.total_of_form rfl rfl (by simp)]
    simp
  · exact absurd hsplit (by simp)

theorem knownCall_le {callee : Tree} {args : List Tree} {u : Tree} (h : s.knownCall callee args = .rewritten u) :
    w.total u ≤ w.total callee + (args.map w.total).sum + w.total s.replacement := by
  cases Substitution.known_of_knownCall h with
  | unbound args hz ht =>
    rw [total_call, total_unbound]
    omega
  | bind hc ho ht =>
    obtain ⟨hcallee, hargs⟩ := w.total_receiver hc
    have hfunction := w.total_onObject ho s.replacement.opened true
    rw [total_opened] at hfunction
    rw [total_call, w.total_of_form rfl rfl (by simp)]
    simp only [List.map_cons, List.map_nil, List.sum_cons, List.sum_nil]
    omega
  | method hc ho ht hd =>
    obtain ⟨hcallee, hargs⟩ := w.total_receiver hc
    have hfunction := w.total_onObject ho s.replacement.opened true
    have hdirect := w.total_directArguments hd
    rw [total_opened] at hfunction
    rw [total_call]
    omega
  | @stored _ target _ _ _ hc htarget ho ht hd =>
    obtain ⟨hcallee, hargs⟩ := w.total_receiver hc
    have hdirect := w.total_directArguments hd
    have hr : s.replacement = target := by simp [Substitution.replacement, htarget]
    rw [total_call, hr]
    omega

theorem total_under (s : Substitution) (l : Layer) : w.total (s.under l) = w.total s.replacement := by
  cases l with
  | call args => exact w.unboundCallee_eq s
  | _ => exact w.total_opened _

/-- What is found on the spine is replaced once. -/
theorem searched_le {t : Tree} {r : Rewritten} (h : s.Searched t r) : w.total r.expr ≤ w.total t + w.total s.replacement := by
  induction h with
  | known link h =>
    rw [total_call]
    exact w.knownCall_le h
  | token l link ht =>
    rw [total_onto, total_onto, total_under]
    omega
  | above l link _ ih =>
    rw [total_onto, total_onto]
    omega
  | inside op hop _ ih =>
    rw [total_opened] at ih
    rw [total_unary, total_unary, total_closed]
    exact ih
  | assigned op value ht htarget =>
    rw [eq_of_asTarget? htarget, total_assign, total_assign]
    omega
  | kept t => exact Nat.le_add_right ..

theorem rewrite_le (t token u : Tree) : w.total (t.rewrite token (some u)).expr ≤ w.total t + w.total u := by
  have h := w.searched_le (Substitution.searched_onSpine ⟨token, some u⟩ t.opened)
  rw [total_opened] at h
  simp only [rewrite, total_closed]
  exact h

/-! ## Guards -/

theorem target_le (c : NullCheck) : w.total c.target ≤ w.total c.operand := by
  unfold NullCheck.target
  split
  · rename_i h
    rw [eq_of_assignment? h, total_assign]
    exact Nat.le_add_left ..
  · exact Nat.le_refl _

theorem relink_le (c : NullCheck) (t : Tree) : w.total (c.relink t) ≤ w.total t + w.total c.operand := by
  have htarget := w.target_le c
  unfold NullCheck.relink
  simp only
  split
  · exact w.rewrite_le ..
  · exact (w.rewrite_le ..).trans (Nat.add_le_add_left htarget _)

open Constructed in
theorem ofGuards_le {cs : List NullCheck} {value : Tree} {x : Constructed} (h : ofGuards cs value = some x) :
    w.total x.expr ≤ w.total value + (cs.map fun c => w.total c.operand).sum := by
  induction cs generalizing x with
  | nil =>
    obtain rfl := Option.some.inj h
    exact w.foldEach_le value _
  | cons c cs ih =>
    obtain ⟨rest, hrest, hx⟩ := Option.bind_eq_some_iff.1 h
    obtain ⟨-, rfl⟩ := addGuard_eq_some.1 hx
    have hfold := w.foldEach_le (c.relink rest.expr) (c.relink rest.expr).assigned
    have hrelink := w.relink_le c rest.expr
    have ih := ih hrest
    rw [List.map_cons, List.sum_cons]
    show w.total (c.relink rest.expr).foldAssigned.1 ≤ _
    unfold foldAssigned
    omega

theorem alternatives_eq (conditions : List Tree) (t : Tree) :
    w.total (conditions.foldr (.logical .or) t) = (conditions.map fun c => w.choice + w.total c).sum + w.total t := by
  induction conditions with
  | nil => simp
  | cons c cs ih =>
    rw [List.foldr_cons, total_or, ih, List.map_cons, List.sum_cons]
    omega

/-! ## Branches -/

/-- What a branch holds at most, with a choice for each of its tests. A marked leaf is the condition above it once more. -/
def branch : Decision → Nat
  | .leaf value none => w.total value
  | .leaf _ (some _) => 0
  | .test condition yes no => w.choice + w.total condition + max (branch yes) (branch no)

theorem branch_choose (condition : Tree) (yes no : Option Decision) : w.branch (.choose condition yes no) ≤
    w.choice + w.total condition + max ((yes.map w.branch).getD 0) ((no.map w.branch).getD 0) := by
  fun_induction Decision.choose condition yes no with
  | case1 yes no p q ihq ihp =>
    rw [total_and]
    simp only [Option.map_some, Option.getD_some] at ihp
    omega
  | case2 yes no p q ihq ihp =>
    rw [total_or]
    simp only [Option.map_some, Option.getD_some] at ihp
    omega
  | case3 yes no c => cases yes <;> cases no <;> simp [branch]

theorem branch_ofValue (t : Tree) : w.branch (.ofValue t) ≤ w.total t := by
  fun_induction Decision.ofValue t with
  | case1 c yes no ihy ihn =>
    have := w.branch_choose c (some (.ofValue yes)) (some (.ofValue no))
    rw [total_conditional]
    simp only [Option.map_some, Option.getD_some] at this
    omega
  | case2 p q ih =>
    have := w.branch_choose p (some (.ofValue q)) none
    rw [total_and]
    simp only [Option.map_some, Option.getD_some, Option.map_none, Option.getD_none] at this
    omega
  | case3 p q ih =>
    have := w.branch_choose p none (some (.ofValue q))
    rw [total_or]
    simp only [Option.map_some, Option.getD_some, Option.map_none, Option.getD_none] at this
    omega
  | case4 => exact Nat.le_refl _

theorem total_negated (t : Tree) : w.total t.negated = w.total t := by
  refine negated_induct (motive := fun t u => w.total u = w.total t) ?_ (w.total_unary .not) (fun t => (w.total_unary .not t).symm)
    ?_ ?_ t
  · intro op op' a b _
    rw [total_binary, total_binary]
  · intro a b iha ihb
    rw [total_or, total_and, iha, ihb]
  · intro a b iha ihb
    rw [total_and, total_or, iha, ihb]

theorem branch_negated (d : Decision) : w.branch d.negated = w.branch d := by
  induction d with
  | leaf => rfl
  | test condition yes no ihy ihn => rw [Decision.negated, branch, branch, ihy, ihn, total_negated, Nat.max_comm]

theorem branch_decision (t : Tree) : w.branch t.decision ≤ w.total t := by
  unfold Tree.decision Decision.oriented
  split
  · rw [branch_negated]
    exact w.branch_ofValue t
  · exact w.branch_ofValue t

theorem operand_le {condition : Tree} {c : NullCheck} (h : NullCheck.of? condition = some c) :
    w.total c.operand ≤ w.total condition := by
  obtain ⟨op, a, b, rfl, hab | hab, -⟩ := NullCheck.operand_mem h <;> rw [hab, total_binary]
  · exact Nat.le_add_right ..
  · exact Nat.le_add_left ..

/-- Alternatives, guards and what they protect are parts of one branch, and each alternative and each guard is a choice. -/
theorem parts_le_branch (d : Decision) (halved : Bool) (hlast : d.lastLeaf.2 = none) :
    ((d.alternativesFrom halved).map fun c => w.choice + w.total c).sum +
      ((d.guardsFrom halved).map fun c => w.choice + w.total c.operand).sum + w.total d.guarded ≤ w.branch d := by
  induction d generalizing halved with
  | leaf value stop =>
    obtain rfl : stop = none := hlast
    simp [Decision.alternativesFrom, Decision.guardsFrom, branch, Decision.guarded, Decision.lastLeaf]
  | test condition yes no ihy ihn =>
    have hguarded : (Decision.test condition yes no).guarded = no.guarded := rfl
    cases halved with
    | true =>
      have ih := ihn false hlast
      simp only [Decision.alternativesFrom, Decision.guardsFrom, branch, hguarded]
      omega
    | false =>
      simp only [Decision.alternativesFrom, Decision.guardsFrom, branch, hguarded]
      cases hc : (NullCheck.of? condition).filter NullCheck.begins with
      | some c =>
        have ih := ihn c.strict hlast
        have hoperand := w.operand_le (Option.filter_eq_some_iff.1 hc).1
        simp only [List.map_nil, List.sum_nil, List.map_cons, List.sum_cons]
        omega
      | none =>
        have ih := ihn false hlast
        simp only [List.map_cons, List.sum_cons]
        omega

/-- Guards lose at least one choice where there are any. -/
theorem operands_le {cs : List NullCheck} (h : cs ≠ []) : (cs.map fun c => w.total c.operand).sum + w.choice ≤
    (cs.map fun c => w.choice + w.total c.operand).sum := by
  cases cs with
  | nil => exact absurd rfl h
  | cons c cs =>
    have hrest : (cs.map fun c => w.total c.operand).sum ≤ (cs.map fun c => w.choice + w.total c.operand).sum :=
      List.sum_le_sum fun c _ => Nat.le_add_left ..
    rw [List.map_cons, List.map_cons, List.sum_cons, List.sum_cons]
    omega

/-- A reconstructed expression is lighter by a choice than the expression it stands for. -/
theorem reconstruct_le {t : Tree} {o : Options} {r : Replacement} (h : t.reconstruct o = some r) :
    w.total r.expr + w.choice ≤ w.total t := by
  obtain ⟨-, c, x, hc, -, hx, hm, rfl⟩ := reconstruct_eq h
  have hg : t.decision.guards ≠ [] := by
    intro hnil
    rw [hnil] at hx
    obtain rfl := Option.some.inj hx
    exact absurd hm (by simp [Constructed.ofLeaf])
  have hlast := Decision.lastLeaf_decision hc hg hx
  have hparts := w.parts_le_branch t.decision false hlast
  have hoperands := w.operands_le hg
  have hguards := w.ofGuards_le hx
  have hbranch := w.branch_decision t
  show w.total (t.decision.alternatives.foldr (.logical .or) x.expr) + w.choice ≤ _
  rw [alternatives_eq]
  unfold Decision.alternatives
  unfold Decision.guards at hguards hoperands
  omega

/-! ## Restored `??` -/

theorem onObject_le (t u : Tree) (link : Bool) : w.total (t.onObject u link) ≤ w.total t + w.total u := by
  cases ho : t.object? with
  | some o =>
    have := w.total_onObject ho u link
    omega
  | none =>
    have hself : t.onObject u link = t := by
      unfold object? at ho
      unfold onObject
      split <;> simp_all
    rw [hself]
    exact Nat.le_add_right ..

theorem alternatives_le (t : Tree) : (t.alternatives.map w.total).sum ≤ w.total t := by
  fun_induction Tree.alternatives t with
  | case1 a b iha ihb =>
    rw [List.map_append, List.sum_append, total_or]
    omega
  | case2 => simp

/-- What a survey has taken from the guards: the root, and what the temporaries hold. -/
def surveyed (s : Survey) : Nat :=
  (s.root.map fun name => w.total (.reference name)).getD 0 + (s.bindings.map fun b => w.total b.access).sum

theorem surveyed_addVariable {s s' : Survey} {name : String} (h : s.addVariable name = some s') :
    w.surveyed s' ≤ w.surveyed s + w.total (.reference name) := by
  rcases Survey.addVariable_eq_some h with ⟨hroot, hbindings, rfl⟩ | ⟨-, rfl⟩
  · simp only [surveyed, hroot, hbindings, Option.map_some, Option.getD_some]
    omega
  · exact Nat.le_add_right ..

theorem surveyed_addBinding {s s' : Survey} {c : NullCheck} (h : s.addBinding c = some s') :
    w.surveyed s' ≤ w.surveyed s + w.total c.operand := by
  obtain ⟨name, parent, access, hop, -, -, -, rfl⟩ := Survey.addBinding_eq_some h
  rw [hop, total_assign]
  simp only [surveyed, List.map_append, List.map_cons, List.map_nil, List.sum_append, List.sum_cons, List.sum_nil]
  omega

theorem surveyed_addGuard {s s' : Survey} {guard : Tree} (h : s.addGuard guard = some s') :
    w.surveyed s' ≤ w.surveyed s + w.total guard := by
  obtain ⟨c, hc, -, ⟨name, hname, h⟩ | ⟨-, h⟩⟩ := Survey.addGuard_eq_some h
  · have hoperand := w.operand_le hc
    rw [hname] at hoperand
    exact (w.surveyed_addVariable h).trans (Nat.add_le_add_left hoperand _)
  · exact (w.surveyed_addBinding h).trans (Nat.add_le_add_left (w.operand_le hc) _)

theorem surveyed_foldlM {guards : List Tree} {s s' : Survey} (h : guards.foldlM Survey.addGuard s = some s') :
    w.surveyed s' ≤ w.surveyed s + (guards.map w.total).sum := by
  induction guards generalizing s with
  | nil =>
    obtain rfl := Option.some.inj h
    exact Nat.le_add_right ..
  | cons g gs ih =>
    rw [List.foldlM_cons] at h
    obtain ⟨s₁, hs, h⟩ := Option.bind_eq_some_iff.1 h
    have hguard := w.surveyed_addGuard hs
    have hrest := ih h
    rw [List.map_cons, List.sum_cons]
    omega

theorem climb_le {root : String} {bs : List TemporaryBinding} {current : String} {accesses : List (String × Tree)}
    (h : Survey.climb root bs current = some accesses) :
    (accesses.map fun a => w.total a.2).sum ≤ (bs.map fun b => w.total b.access).sum := by
  induction bs generalizing current accesses with
  | nil =>
    unfold Survey.climb at h
    split at h
    · obtain rfl := Option.some.inj h
      exact Nat.le_refl _
    · exact absurd h (by simp)
  | cons b bs ih =>
    unfold Survey.climb at h
    rw [List.map_cons, List.sum_cons]
    split at h
    · obtain rfl := Option.some.inj h
      exact Nat.zero_le _
    · simp only at h
      split at h
      · obtain ⟨before, hb, h⟩ := Option.bind_eq_some_iff.1 h
        obtain rfl := Option.some.inj h
        have := ih hb
        simp only [List.map_append, List.map_cons, List.map_nil, List.sum_append, List.sum_cons, List.sum_nil]
        omega
      · have := ih h
        omega

theorem foldl_onObject_le (linked : String → Bool) (accesses : List (String × Tree)) (start : Tree) :
    w.total (accesses.foldl (fun chain a => a.2.onObject chain (linked a.1)) start) ≤
      w.total start + (accesses.map fun a => w.total a.2).sum := by
  induction accesses generalizing start with
  | nil => exact Nat.le_add_right ..
  | cons a as ih =>
    rw [List.foldl_cons, List.map_cons, List.sum_cons]
    have hobject := w.onObject_le a.2 start (linked a.1)
    have hrest := ih (a.2.onObject start (linked a.1))
    omega

theorem guardedChain_le {value : Tree} {r : Replacement} (h : value.guardedChain = some r) : w.total r.expr ≤ w.total value := by
  obtain ⟨test, yes, no, rfl⟩ := exists_conditional_of_guardedChain h
  obtain ⟨-, s, root, last, path, hs, hroot, -, hclimb, rfl⟩ := guardedChain_eq_some.1 h
  have hsurvey := w.surveyed_foldlM hs
  have halternatives := w.alternatives_le test
  have hclimb := w.climb_le hclimb
  have hfold := w.foldl_onObject_le s.checked.contains (path ++ [(last, no)]) (.reference root)
  rw [List.map_reverse, List.sum_reverse] at hclimb
  simp only [surveyed, hroot, Option.map_some, Option.getD_some, Option.map_none, Option.getD_none, List.map_nil,
    List.sum_nil] at hsurvey
  simp only [List.map_append, List.map_cons, List.map_nil, List.sum_append, List.sum_cons, List.sum_nil] at hfold
  rw [total_conditional, chainAlong, total_closed]
  refine hfold.trans ?_
  omega

theorem notNullChecks_le {test : Tree} {first : NullCheck} {second : Option NullCheck}
    (h : test.notNullChecks = some (first, second)) : w.total first.operand ≤ w.total test := by
  obtain ⟨p, q, b, rfl, hp, -⟩ | ⟨hc, -⟩ := notNullChecks_eq_some h
  · have := w.operand_le hp
    rw [total_and]
    omega
  · exact w.operand_le hc

/-- A restored `??` is lighter by a choice than the expression it stands for. -/
theorem coalesce_le {t : Tree} {r : Replacement} (h : t.coalesce = some r) : w.total r.expr + w.choice ≤ w.total t := by
  obtain ⟨test, fallback, name, first, second, rfl, hchecks, -, hcases⟩ := coalesce_eq_some h
  rw [total_conditional]
  rcases hcases with ⟨value, left, -, hop, rfl, -, rfl⟩ | ⟨-, rfl⟩
  · have hleft : w.total (value.guardedChain.getD ⟨value, []⟩).expr ≤ w.total value := by
      cases hc : value.guardedChain with
      | none => exact Nat.le_refl _
      | some r => exact w.guardedChain_le hc
    have hoperand := w.notNullChecks_le hchecks
    rw [hop, total_assign] at hoperand
    rw [total_coalesce]
    omega
  · rw [total_coalesce]
    omega

end Weight

end Chainlift
