import Chainlift.Proofs.Accounts

/-!
# What a rewrite consumes

The temporaries that a rewrite consumes are variables that the expression assigned. The one case in which this is not seen at once
is that of an assignment whose target is replaced: `v = x` comes from `t = x`, and if `t` is not used anywhere else then `v` is
assigned where it was not before. But then `t = x` would have been folded already: after folding, every variable that is still
assigned is read (`Tree.readsAssigned_foldAssigned`).
-/

namespace Chainlift

open Tree

namespace Tree

variable {m name : String}

/-! ## Variables that are not read -/

/-- A variable that is not read in a node is not read in its parts, or it is assigned by the node. -/
theorem Unread.cases {f : Form} {ps : List Tree} (h : (node f ps).Unread m) (hf : f.isFunction = false)
    (ht : (node f ps).AssignsTargets) :
    (∀ p ∈ ps, p.Unread m) ∨ ∃ v, node f ps = .assign .plain (.reference m) v ∧ v.Unread m := by
  by_cases hown : m ∈ ownAssignments f ps
  · obtain ⟨v, heq⟩ := ht.exists_value hown
    rw [heq] at h ⊢
    exact .inr ⟨v, rfl, unread_assign h⟩
  · exact .inl (unread_parts hf hown h)

theorem foldCalls_of_unread {t : Tree} (ht : t.AssignsTargets) (h : t.Unread m) : t.foldCalls m = t := by
  induction t with
  | node f ps ih =>
    cases hf : f.isFunction with
    | true => rw [foldCalls, if_pos hf]
    | false =>
      have htargets := (assignsTargets_node.1 ht).2
      rw [foldCalls_node hf]
      have hparts : ps.map (foldCalls m) = ps := by
        refine (List.map_congr_left fun p hp => ?_).trans (List.map_id ps)
        rcases h.cases hf ht with hparts | ⟨v, heq, hv⟩
        · exact ih p hp (htargets p hp) (hparts p hp)
        · obtain ⟨-, rfl⟩ := node.inj heq
          simp only [List.mem_cons, List.not_mem_nil, or_false] at hp
          rcases hp with rfl | rfl
          · simp [foldCalls, foldCallsAll, foldCall, Form.isFunction]
          · exact ih p (by simp) (htargets p (by simp)) hv
      rw [hparts]
      by_contra hne
      obtain ⟨callee, args, link, heq⟩ := exists_call_of_foldCall hne
      obtain ⟨rfl, rfl⟩ := node.inj heq
      obtain ⟨_, _, _, _, _, _, _, _, -, -, -, -, rfl, -⟩ := exists_of_foldCall hne
      exact not_unread_reference m (unread_node rfl rfl h _ (by simp))

theorem uses_foldEach_le (m : String) (t : Tree) (names : List String) : (t.foldEach names).1.uses m ≤ t.uses m :=
  Measure.uses_le ((Measure.uses m).weight.foldEach_le t names)

/-- A variable that is not read is folded. -/
theorem uses_fold_of_unread {t : Tree} (ht : t.AssignsTargets) (h : t.Unread m) : (t.fold m).uses m = 0 := by
  unfold fold
  simp only [foldCalls_of_unread ht h]
  rw [if_pos (beq_iff_eq.2 h)]
  exact (unread_iff_unwrap ht).1 h

theorem assignmentCount_foldEach_le {t : Tree} (ht : t.AssignsTargets) (m : String) (names : List String) :
    (t.foldEach names).1.assignmentCount m ≤ t.assignmentCount m := by
  obtain ⟨-, hfolded, hothers⟩ := foldEach_counts ht names
  by_cases hm : m ∈ (t.foldEach names).2
  · have hle := assignmentCount_le_uses m (t.foldEach names).1
    have hgone := hfolded m hm
    omega
  · exact Nat.le_of_eq (hothers m hm).2

/-- Folding other variables takes no read away. -/
theorem Unread.of_foldEach {t : Tree} (ht : t.AssignsTargets) {names : List String} (hm : m ∉ names)
    (h : (t.foldEach names).1.Unread m) : t.Unread m := by
  obtain ⟨hsub, -, hothers⟩ := foldEach_counts ht names
  obtain ⟨huses, hcount⟩ := hothers m fun hmem => hm (hsub.subset hmem)
  unfold Unread at h ⊢
  omega

/-- Of the variables that folding was tried with, those that are not read afterwards are gone. -/
theorem uses_foldEach_of_unread {t : Tree} (ht : t.AssignsTargets) {names : List String} (hnames : names.Nodup) (hm : m ∈ names)
    (h : (t.foldEach names).1.Unread m) : (t.foldEach names).1.uses m = 0 := by
  induction names generalizing t with
  | nil => exact absurd hm (by simp)
  | cons name names ih =>
    rw [List.nodup_cons] at hnames
    have hfolded := (KeepsTargets.fold name t ht).1
    unfold foldEach at h ⊢
    simp only at h ⊢
    split
    · rename_i huses
      rw [if_pos huses] at h
      rcases List.mem_cons.1 hm with rfl | hm
      · have hle := uses_foldEach_le m (t.fold m) names
        rw [beq_iff_eq] at huses
        exact Nat.le_zero.1 (huses ▸ hle)
      · exact ih hfolded hnames.2 hm h
    · rename_i huses
      rw [if_neg huses] at h
      rcases List.mem_cons.1 hm with rfl | hm
      · exact absurd (uses_fold_of_unread ht (.of_foldEach ht hnames.1 h)) (by simpa using huses)
      · exact ih ht hnames.2 hm h

/-- Every variable that is assigned is read. -/
def ReadsAssigned (t : Tree) : Prop := ∀ m, 0 < t.assignmentCount m → ¬ t.Unread m

theorem readsAssigned_foldAssigned {t : Tree} (ht : t.AssignsTargets) : t.foldAssigned.1.ReadsAssigned := by
  intro m hm h
  have hassigned : m ∈ t.assigned := by
    rw [assigned, List.mem_eraseDups]
    exact List.count_pos_iff.1 (Nat.lt_of_lt_of_le hm (assignmentCount_foldEach_le ht m _))
  have hnodup : t.assigned.Nodup := nodup_eraseDups _
  have hgone := uses_foldEach_of_unread ht hnodup hassigned h
  have hle := assignmentCount_le_uses m t.foldAssigned.1
  unfold foldAssigned at hle hm
  omega

end Tree

/-! ## Links -/

theorem Substitution.eq_reference_of_isTokenTarget {s : Substitution} {n : String} (hs : s.token = .reference n) {t : Tree}
    (h : s.isTokenTarget t = true) : t = .reference n := by
  unfold isTokenTarget at h
  rw [Bool.and_eq_true, Bool.or_eq_true, isToken, hs] at h
  obtain ⟨hform, hsame⟩ := h
  rcases hform with hvariable | haccess
  · obtain ⟨x, hx⟩ := Option.isSome_iff_exists.1 hvariable
    obtain rfl := eq_of_asVariable? hx
    simpa [same, bare, bareAll] using hsame
  · unfold isAccess object? at haccess
    split at haccess
    · exact absurd hsame (by simp [same, bare])
    · exact absurd hsame (by simp [same, bare])
    · exact absurd hsame (by simp [same, bare])
    · exact absurd haccess (by simp)

theorem Tree.rewrite_counts (t token u : Tree) :
    (∀ {μ : Tree → Nat}, Additive μ → μ (t.rewrite token (some u)).expr ≤ μ t + μ u) ∨
    ∃ op target value, (Substitution.mk token (some u)).isTokenTarget target = true ∧
      ∀ {μ : Tree → Nat}, Additive μ →
        μ (t.rewrite token (some u)).expr + μ (.assign op target value) = μ t + μ (.assign op u value) := by
  rcases (Substitution.searched_onSpine ⟨token, some u⟩ t.opened).counts with
    hle | ⟨op, target, u', value, htarget, hu, heq⟩
  · refine .inl fun hμ => ?_
    have := hle hμ
    rw [hμ.opened] at this
    rw [rewrite]
    simp only [hμ.closed]
    exact this
  · obtain rfl : u' = u := eq_of_asTarget? hu
    refine .inr ⟨op, target, value, htarget, fun hμ => ?_⟩
    have := heq hμ
    rw [hμ.opened] at this
    rw [rewrite]
    simp only [hμ.closed]
    exact this

theorem Tree.assignmentCount_assign_of_ne {op : AssignOp} {target : Tree} (h : ¬ (op = .plain ∧ ∃ n, target = .reference n))
    (value : Tree) (m : String) :
    (Tree.assign op target value).assignmentCount m = target.assignmentCount m + value.assignmentCount m := by
  have hown : ownAssignments (.assign op) [target, value] = [] := by
    refine List.eq_nil_iff_forall_not_mem.2 fun n hn => h ?_
    obtain ⟨hop, rest, heq⟩ := mem_ownAssignments.1 hn
    exact ⟨Form.assign.inj hop, n, (List.cons.inj heq).1⟩
  rw [assignmentCount_node rfl, hown]
  simp

theorem Tree.assignmentCount_le_assign (op : AssignOp) (target value : Tree) (m : String) :
    value.assignmentCount m ≤ (Tree.assign op target value).assignmentCount m := by
  rw [assignmentCount_node rfl]
  simp only [List.map_cons, List.map_nil, List.sum_cons, List.sum_nil]
  omega

/-- A variable is assigned more often only if an assignment to the token has become one to it. -/
theorem Tree.assignmentCount_rewrite (t token u : Tree) (m : String) :
    (t.rewrite token (some u)).expr.assignmentCount m ≤ t.assignmentCount m + u.assignmentCount m ∨
    u = .reference m ∧ ∃ target value, (Substitution.mk token (some u)).isTokenTarget target = true ∧
      ∀ {μ : Tree → Nat}, Additive μ →
        μ (t.rewrite token (some u)).expr + μ (.assign .plain target value) = μ t + μ (.assign .plain (.reference m) value) := by
  rcases t.rewrite_counts token u with hle | ⟨op, target, value, htarget, heq⟩
  · exact .inl (hle (additive_assignmentCount m))
  by_cases hplain : op = .plain ∧ ∃ n, u = .reference n
  · obtain ⟨rfl, n, rfl⟩ := hplain
    by_cases hm : n = m
    · subst hm
      exact .inr ⟨rfl, target, value, htarget, heq⟩
    · refine .inl ?_
      have hcount := heq (additive_assignmentCount m)
      have hle := assignmentCount_le_assign .plain target value m
      simp only [assignmentCount_assign, List.count_singleton, beq_eq_false_iff_ne.2 hm] at hcount
      simp at hcount
      omega
  · refine .inl ?_
    have hcount := heq (additive_assignmentCount m)
    have hle := assignmentCount_le_assign op target value m
    simp only [assignmentCount_assign_of_ne hplain] at hcount
    omega

namespace NullCheck

variable {c : NullCheck} {m : String}

theorem assignmentCount_target_le (c : NullCheck) (m : String) : c.target.assignmentCount m ≤ c.operand.assignmentCount m := by
  unfold target
  split
  · rename_i ha
    rw [eq_of_assignment? ha, assignmentCount_assign]
    exact Nat.le_add_left _ _
  · exact Nat.le_refl _

theorem assignmentCount_temporary (h : c.temporary? = some m) : 0 < c.operand.assignmentCount m := by
  obtain ⟨⟨n, v⟩, ha, rfl⟩ := Option.map_eq_some_iff.1 h
  rw [eq_of_assignment? ha, assignmentCount_assign, List.count_singleton_self]
  omega

/-- A link puts no assignment in but those of the guard. -/
theorem assigned_of_relink {t : Tree} (ht : t.ReadsAssigned) (h : 0 < (c.relink t).assignmentCount m) :
    0 < t.assignmentCount m ∨ 0 < c.operand.assignmentCount m := by
  unfold relink at h
  simp only at h
  split at h
  · rename_i hread
    rcases t.assignmentCount_rewrite c.token c.operand m with hle | ⟨hoperand, -⟩
    · omega
    · rw [temporary?, hoperand] at hread
      exact absurd hread (by simp [assignment?])
  · rename_i hread
    rcases t.assignmentCount_rewrite c.token c.target m with hle | ⟨htarget, target, value, htoken, heq⟩
    · have := c.assignmentCount_target_le m
      omega
    have hcount := heq (additive_assignmentCount m)
    cases ha : c.operand.assignment? with
    | none =>
      have htoken' : c.token = .reference m := by
        rw [← htarget, token, NullCheck.target, ha]
      obtain rfl := Substitution.eq_reference_of_isTokenTarget htoken' htoken
      omega
    | some a =>
      obtain ⟨n, v⟩ := a
      have hoperand := eq_of_assignment? ha
      have htoken' : c.token = .reference n := by rw [token, ha]
      by_cases hn : n = m
      · refine .inr ?_
        rw [hoperand, assignmentCount_assign, hn, List.count_singleton_self]
        omega
      -- The token is gone, and it was used only where it was assigned.
      · obtain rfl := Substitution.eq_reference_of_isTokenTarget htoken' htoken
        have huses := heq (additive_uses n)
        have hcount := heq (additive_assignmentCount n)
        have hgone : (t.rewrite c.token (some c.target)).expr.uses n = 0 := by
          rw [temporary?, ha] at hread
          simpa using hread
        simp only [uses_assign, assignmentCount_assign, List.count_singleton_self, List.count_singleton,
          beq_eq_false_iff_ne.2 (Ne.symm hn)] at huses hcount
        simp at huses hcount
        have hle := assignmentCount_le_uses n t
        refine absurd ?_ (ht n (by omega))
        unfold Unread
        omega

end NullCheck

/-! ## Guards -/

/-- The expression is put together from assignments to certain variables, and every one that is left is read. -/
structure Constructed.Assigns (names : String → Prop) (x : Constructed) : Prop where
  targets : x.expr.AssignsTargets
  reads : x.expr.ReadsAssigned
  assigned : ∀ m, 0 < x.expr.assignmentCount m → names m
  consumed : ∀ m ∈ x.consumed, names m

namespace Constructed

variable {names : String → Prop}

/-- Folding is the last step of a construction. -/
theorem assigns_foldAssigned {t : Tree} (ht : t.AssignsTargets) (hnames : ∀ m, 0 < t.assignmentCount m → names m)
    {matched : Bool} {consumed : List String} (hconsumed : ∀ m ∈ consumed, names m) :
    Assigns names ⟨t.foldAssigned.1, matched, consumed ++ t.foldAssigned.2⟩ where
  targets := compositional_assignsTargets.foldEach ht _
  reads := readsAssigned_foldAssigned ht
  assigned m hm := hnames m (Nat.lt_of_lt_of_le hm (assignmentCount_foldEach_le ht m _))
  consumed m hm := by
    rcases List.mem_append.1 hm with hm | hm
    · exact hconsumed m hm
    · have hm := (foldEach_counts ht _).1.subset hm
      rw [Tree.assigned, List.mem_eraseDups] at hm
      exact hnames m (List.count_pos_iff.2 hm)

theorem assigns_ofGuards {cs : List NullCheck} {value : Tree} {x : Constructed} (h : ofGuards cs value = some x)
    (hvalue : value.AssignsTargets) (hcs : ∀ c ∈ cs, c.operand.AssignsTargets) (hnames : ∀ m, 0 < value.assignmentCount m → names m)
    (hguards : ∀ c ∈ cs, ∀ m, 0 < c.operand.assignmentCount m → names m) : x.Assigns names := by
  induction cs generalizing x with
  | nil =>
    obtain rfl := Option.some.inj h
    have hnone : ∀ m ∈ ([] : List String), names m := by simp
    exact assigns_foldAssigned hvalue hnames hnone
  | cons c cs ih =>
    simp only [List.mem_cons, forall_eq_or_imp] at hcs hguards
    obtain ⟨rest, hrest, hx⟩ := Option.bind_eq_some_iff.1 h
    obtain ⟨-, rfl⟩ := addGuard_eq_some.1 hx
    have hassigns := ih hrest hcs.2 hguards.2
    refine assigns_foldAssigned (compositional_assignsTargets.relink hcs.1 hassigns.targets) (fun m hm => ?_) fun m hm => ?_
    · rcases NullCheck.assigned_of_relink hassigns.reads hm with hm | hm
      · exact hassigns.assigned m hm
      · exact hguards.1 m hm
    · rcases List.mem_append.1 hm with hm | hm
      · exact hassigns.consumed m hm
      · exact hguards.1 m (NullCheck.assignmentCount_temporary (Option.mem_toList.1 hm))

end Constructed

/-- What has assignments to certain variables only. -/
theorem Tree.partwise_assigns (names : String → Prop) : Partwise fun t => ∀ m, 0 < t.assignmentCount m → names m where
  operation := by
    intro f ps hf ha
    simp only [assignmentCount_operation hf ha, Nat.pos_iff_ne_zero, Ne, List.sum_eq_zero_iff, List.forall_mem_map, not_forall,
      forall_exists_index]
    exact ⟨fun h p hp m hm => h m p hp hm, fun h m p hp hm => h p hp m hm⟩
  assigned h := by
    refine ⟨fun m hm => h m (Nat.lt_of_lt_of_le hm ?_), fun m hm => h m (Nat.lt_of_lt_of_le hm (assignmentCount_le_assign ..))⟩
    rw [assignmentCount_node rfl]
    simp only [List.map_cons, List.map_nil, List.sum_cons, List.sum_nil]
    omega

theorem Tree.consumed_reconstruct {t : Tree} {o : Options} {r : Replacement} (ht : t.AssignsTargets) (h : t.reconstruct o = some r) :
    ∀ m ∈ r.consumed, 0 < t.assignmentCount m := by
  obtain ⟨-, c, x, -, -, hx, -, rfl⟩ := reconstruct_eq h
  have htargets := partwise_assignsTargets.consists ht
  have hassigns := (partwise_assigns fun m => 0 < t.assignmentCount m).consists (t := t) fun _ => id
  refine (Constructed.assigns_ofGuards hx htargets.guarded (fun k hk => ?_) hassigns.guarded fun k hk => ?_).consumed
  · obtain ⟨condition, hcondition, hof⟩ := htargets.of_mem_guardsFrom hk
    exact partwise_assignsTargets.operand hof hcondition
  · obtain ⟨condition, hcondition, hof⟩ := hassigns.of_mem_guardsFrom hk
    exact (partwise_assigns _).operand hof hcondition

theorem Tree.consumed_guardedChain {value : Tree} {r : Replacement} (h : value.guardedChain = some r) :
    ∀ m ∈ r.consumed, 0 < value.assignmentCount m := by
  obtain ⟨test, yes, no, rfl⟩ := exists_conditional_of_guardedChain h
  obtain ⟨-, s, root, last, path, hs, -, -, -, rfl⟩ := guardedChain_eq_some.1 h
  have hassigns := partwise_assigns fun m => 0 < (Tree.conditional test yes no).assignmentCount m
  have hself : ∀ m, 0 < (Tree.conditional test yes no).assignmentCount m → 0 < (Tree.conditional test yes no).assignmentCount m :=
    fun _ => id
  obtain ⟨htest, -⟩ := hassigns.conditional.1 hself
  intro m hm
  obtain ⟨b, hb, rfl⟩ := List.mem_map.1 hm
  obtain ⟨guard, hguard, c, hc, hop⟩ := (Survey.exists_of_mem_foldlM hs b hb).resolve_left (by simp)
  exact hassigns.operand hc (hassigns.alternatives htest guard hguard) b.name
    (NullCheck.assignmentCount_temporary (by rw [NullCheck.temporary?, hop]; rfl))

theorem Tree.consumed_coalesce {t : Tree} {r : Replacement} (h : t.coalesce = some r) :
    ∀ m ∈ r.consumed, 0 < t.assignmentCount m := by
  obtain ⟨test, fallback, name, first, second, rfl, hchecks, -, hcases⟩ := coalesce_eq_some h
  have hassigns := partwise_assigns fun m => 0 < (Tree.conditional test (.reference name) fallback).assignmentCount m
  have hself : ∀ m, 0 < (Tree.conditional test (.reference name) fallback).assignmentCount m →
      0 < (Tree.conditional test (.reference name) fallback).assignmentCount m := fun _ => id
  obtain ⟨htest, -⟩ := hassigns.conditional.1 hself
  rcases hcases with ⟨value, left, -, hop, rfl, -, rfl⟩ | ⟨-, rfl⟩
  · have hoperand := hassigns.notNullChecks hchecks htest
    rw [hop] at hoperand
    have hvalue := (hassigns.assigned hoperand).2
    intro m hm
    rcases List.mem_cons.1 hm with rfl | hm
    · refine hoperand m ?_
      rw [assignmentCount_assign, List.count_singleton_self]
      omega
    · cases hc : value.guardedChain with
      | none =>
        rw [hc] at hm
        exact absurd hm (by simp)
      | some r =>
        rw [hc] at hm
        exact hvalue m (consumed_guardedChain hc m hm)
  · simp

end Chainlift
