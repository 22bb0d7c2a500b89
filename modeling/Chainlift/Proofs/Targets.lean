import Chainlift.Proofs.Levels
import Chainlift.Proofs.Statements

/-!
# What is assigned to

Grammar has variables, properties and patterns at the left of an assignment, and no assignment and no choice between values. A sweep
makes none of what stands there: it is not rewritten, and nothing is folded into it (`Sweep.preserves_keepsTargets`).

This is the last of three things that are so in every program as it is read and after any number of sweeps
(`Sweep.IsGrammatical`).
-/

namespace Chainlift

open Tree

/-- What all parts have from their node, an expression has from the tree around it. -/
theorem Enclosure.of_fillAll {P : Tree → Prop} (hP : ∀ f ps, P (.node f ps) → ∀ p ∈ ps, P p) {ls : List Enclosure} {t : Tree}
    (h : P (fillAll ls t)) : P t := by
  induction ls generalizing t with
  | nil => exact h
  | cons l ls ih => exact hP _ _ (ih h) t (by simp [parts])

/-- What is neither an assignment nor a choice between values, as whatever stands at the left of an assignment is. -/
def Form.standsLeft : Form → Bool
  | .assign _ | .conditional | .logical _ => false
  | _ => true

namespace Tree

/-- If the node is an assignment, then of a value, and to something that can stand at its left. -/
def hasTarget : Form → List Tree → Bool
  | .assign _, [target, _] => target.form.standsLeft
  | .assign _, _ => false
  | _, _ => true

/-- Every assignment in the tree has something at its left that can stand there. -/
def AssignsTargets (t : Tree) : Prop := ∀ u ∈ t.nodes, hasTarget u.form u.parts = true

instance (t : Tree) : Decidable t.AssignsTargets := inferInstanceAs (Decidable (∀ u ∈ t.nodes, hasTarget u.form u.parts = true))

variable {f : Form} {ps : List Tree}

theorem assignsTargets_node : (node f ps).AssignsTargets ↔ hasTarget f ps = true ∧ ∀ p ∈ ps, p.AssignsTargets := forall_nodes_node

theorem AssignsTargets.exists_target {op : AssignOp} (h : (node (.assign op) ps).AssignsTargets) :
    ∃ target value, ps = [target, value] ∧ target.form.standsLeft = true := by
  have hown := (assignsTargets_node.1 h).1
  unfold hasTarget at hown
  split at hown
  · exact ⟨_, _, rfl, hown⟩
  · exact absurd hown (by simp)
  · rename_i hne _
    exact absurd rfl (hne op)

/-- An assignment to a variable is one of a value. -/
theorem AssignsTargets.exists_value {name : String} (h : (node f ps).AssignsTargets) (hmem : name ∈ ownAssignments f ps) :
    ∃ v, node f ps = .assign .plain (.reference name) v := by
  obtain ⟨rfl, rest, rfl⟩ := mem_ownAssignments.1 hmem
  obtain ⟨_, v, heq, -⟩ := h.exists_target
  obtain ⟨-, rfl⟩ := List.cons.inj heq
  exact ⟨v, rfl⟩

theorem assignsTargets_of_form (hf : f.isAssignment = false) : (node f ps).AssignsTargets ↔ ∀ p ∈ ps, p.AssignsTargets := by
  rw [assignsTargets_node, and_iff_right]
  unfold hasTarget
  split
  · exact absurd hf (by simp [Form.isAssignment])
  · exact absurd hf (by simp [Form.isAssignment])
  · rfl

theorem standsLeft_of_isBranching {t : Tree} (h : t.isBranching = true) : t.form.standsLeft = false := by
  unfold isBranching at h
  split at h
  any_goals
    rename_i heq
    rw [heq]
    rfl
  exact absurd h (by simp)

theorem standsLeft_of_asTarget? {t target : Tree} (h : t.asTarget? = some target) : target.form.standsLeft = true := by
  obtain rfl := eq_of_asTarget? h
  unfold asTarget? at h
  split at h
  · rename_i hor
    rw [Bool.or_eq_true, isAccess] at hor
    unfold asVariable? object? at hor
    split at hor
    · rfl
    · split at hor
      · rfl
      · rfl
      · rfl
      · exact absurd hor (by simp)
  · exact absurd h (by simp)

theorem partwise_assignsTargets : Partwise AssignsTargets where
  operation _ hf := assignsTargets_of_form hf
  assigned h := by simpa using (assignsTargets_node.1 h).2

theorem statementwise_assignsTargets : Statementwise AssignsTargets where
  node hf := assignsTargets_of_form (by
    rename_i f _
    cases f with
    | assign op => exact absurd hf (by simp [Form.isStatements, holdsStatements])
    | _ => rfl)
  absent := (assignsTargets_of_form rfl).2 (by simp)
  empty := (assignsTargets_of_form rfl).2 (by simp)

/-- What stands in the place of a tree has as good targets, and is one if the tree is. -/
def KeepsTargets (t u : Tree) : Prop := t.AssignsTargets → u.AssignsTargets ∧ (t.form.standsLeft = true → u.form.standsLeft = true)

namespace KeepsTargets

theorem refl (t : Tree) : KeepsTargets t t := fun h => ⟨h, id⟩

theorem trans {t u v : Tree} (h : KeepsTargets t u) (h' : KeepsTargets u v) : KeepsTargets t v := fun ht =>
  ⟨(h' (h ht).1).1, (h' (h ht).1).2 ∘ (h ht).2⟩

theorem node {qs : List Tree} (h : List.Forall₂ KeepsTargets ps qs) : KeepsTargets (.node f ps) (.node f qs) := by
  intro ht
  obtain ⟨hown, hps⟩ := assignsTargets_node.1 ht
  refine ⟨assignsTargets_node.2 ⟨?_, ?_⟩, id⟩
  · cases f with
    | assign op =>
      clear ht
      obtain _ | ⟨h, _ | ⟨-, _ | _⟩⟩ := h
      any_goals exact hown
      exact (h (hps _ (by simp))).2 hown
    | _ => rfl
  · clear ht hown
    induction h with
    | nil => exact hps
    | cons h _ ih =>
      simp only [List.mem_cons, forall_eq_or_imp] at hps ⊢
      exact ⟨(h hps.1).1, ih hps.2⟩

theorem map {g : Tree → Tree} (h : ∀ p ∈ ps, KeepsTargets p (g p)) : KeepsTargets (.node f ps) (.node f (ps.map g)) :=
  .node (List.forall₂_map_right_iff.2 (List.forall₂_same.2 h))

theorem foldCall (name : String) (t : Tree) : KeepsTargets t (t.foldCall name) := by
  refine fun ht => ⟨partwise_assignsTargets.foldCall ht name, fun hform => ?_⟩
  by_cases hc : ∃ callee args link, t = .call callee args link
  · obtain ⟨callee, args, link, rfl⟩ := hc
    rcases foldCall_cases name callee args link with heq | ⟨_, _, _, _, _, _, _, _, _, -, -, -, -, -, -, heq⟩
    · rwa [heq]
    · rw [heq]
      rfl
  · unfold Tree.foldCall
    split
    · exact absurd ⟨_, _, _, rfl⟩ hc
    · exact hform

theorem unwrapOne (name : String) (t : Tree) : KeepsTargets t (t.unwrapOne name) := by
  refine fun ht => ⟨partwise_assignsTargets.unwrapOne ht name, fun hform => ?_⟩
  unfold Tree.unwrapOne
  split
  · rename_i ha
    rw [eq_of_assignment? ha] at hform
    exact absurd hform (by simp [form, Form.standsLeft])
  · exact hform

theorem foldCalls (name : String) (t : Tree) : KeepsTargets t (t.foldCalls name) :=
  foldCalls_induct name (fun _ _ _ => .refl _) (fun _ _ _ ih => (map ih).trans (foldCall name _)) t

theorem unwrap (name : String) (t : Tree) : KeepsTargets t (t.unwrap name) :=
  unwrap_induct name (fun _ _ _ => .refl _) (fun _ _ _ ih => (map ih).trans (unwrapOne name _)) t

theorem fold (name : String) (t : Tree) : KeepsTargets t (t.fold name) := by
  unfold Tree.fold
  simp only
  split
  · exact (foldCalls name t).trans (unwrap name _)
  · exact foldCalls name t

end KeepsTargets

theorem compositional_assignsTargets : Compositional AssignsTargets where
  toPartwise := partwise_assignsTargets
  assign ht htarget hvalue := assignsTargets_node.2 ⟨standsLeft_of_asTarget? ht, by simpa using ⟨htarget, hvalue⟩⟩
  fold name ht := (KeepsTargets.fold name _ ht).1

end Tree

namespace Sweep

variable {o : Options}

theorem preserves_keepsTargets (o : Options) : Preserves o KeepsTargets where
  refl := .refl
  trans := .trans
  node := .node
  rewrite h ht := by
    have hb := isBranching_of_tryRewrite h
    obtain ⟨r, kind, hr, haccept⟩ := accept_of_tryRewrite h
    obtain ⟨rfl, -⟩ := rewrites_accept haccept
    refine ⟨?_, fun hform => ?_⟩
    · rcases hr with hr | ⟨-, hr⟩
      · exact compositional_assignsTargets.coalesce ht hr
      · exact compositional_assignsTargets.reconstruct ht hr
    · rw [standsLeft_of_isBranching hb] at hform
      exact absurd hform (by simp)
  leave s f ps ht := by
    cases hscope : Scope.of? f ps with
    | none =>
      rw [leave_of_none hscope]
      exact ⟨ht, id⟩
    | some scope =>
      have hf : f.isAssignment = false := by
        cases f with
        | assign op => exact absurd hscope (by simp [Scope.of?])
        | _ => rfl
      obtain ⟨qs, heq, hqs⟩ := statementwise_assignsTargets.leave ((assignsTargets_of_form hf).1 ht) s
      rw [heq]
      exact ⟨(assignsTargets_of_form hf).2 hqs, id⟩

/-! ## Programs -/

/-- What is so in every program as it is read: scopes are where they should be, and nothing stands where it cannot. -/
structure IsGrammatical (ss : List Tree) : Prop where
  regular : ∀ t ∈ ss, t.IsRegular
  orderly : (node (.body []) ss).IsOrderly
  targets : ∀ t ∈ ss, t.AssignsTargets

instance (ss : List Tree) : Decidable (IsGrammatical ss) :=
  decidable_of_iff ((∀ t ∈ ss, t.IsRegular) ∧ (node (.body []) ss).IsOrderly ∧ ∀ t ∈ ss, t.AssignsTargets)
    ⟨fun ⟨hregular, horderly, htargets⟩ => ⟨hregular, horderly, htargets⟩, fun h => ⟨h.regular, h.orderly, h.targets⟩⟩

namespace IsGrammatical

variable {ss : List Tree} (h : IsGrammatical ss)

include h

theorem orderly_overStatements : (node (.body []) (overStatements o ss).1).IsOrderly := by
  have hvisited := forall₂_of_isOrderly ((preserves_declaresAlike o).visitAll (sizeAll ss) ss (entered ss))
    fun p hp => (isOrderly_node.1 h.orderly p hp).2
  have hbody : (node (.body []) (visitAll o (sizeAll ss) ss (entered ss)).1).IsStatement :=
    ⟨(DeclaresAlike.node h.orderly hvisited).orderly, by simp [form]⟩
  have hstatements : ∀ t ∈ (⟨none, (visitAll o (sizeAll ss) ss (entered ss)).1⟩ : Scope).statements, t.IsStatement :=
    Scope.isStatement_bodyStatements hbody
  obtain ⟨names, hpruned⟩ := pruned_leaveScope (visitAll o (sizeAll ss) ss (entered ss)).2 hstatements
  exact (Scope.isStatement_withStatements hbody hpruned.statement).1

/-- It is so after a sweep. -/
theorem overStatements : IsGrammatical (Sweep.overStatements o ss).1 where
  regular := isRegular_of_overStatements h.regular
  orderly := h.orderly_overStatements
  targets := by
    have hvisited := (preserves_keepsTargets o).visitAll (sizeAll ss) ss (entered ss)
    have hbody := (KeepsTargets.node (f := .body []) hvisited ((assignsTargets_of_form rfl).2 h.targets)).1
    have hstatements : ∀ t ∈ (⟨none, (visitAll o (sizeAll ss) ss (entered ss)).1⟩ : Scope).statements, t.AssignsTargets :=
      (assignsTargets_of_form rfl).1 hbody
    exact statementwise_assignsTargets.leaveScope hstatements _

theorem sweeps (n : Nat) : IsGrammatical (Sweep.sweeps o n ss) := by
  induction n with
  | zero => exact h
  | succ n ih =>
    rw [sweeps_succ]
    exact ih.overStatements

end IsGrammatical

/-- Where an expression is tried, what is assigned to can be. -/
theorem Attempts.assignsTargets {ss : List Tree} {ls : List Level} {u : Tree} {s : Sweep} (h : Attempts o ss ls u s)
    (hss : ∀ t ∈ ss, t.AssignsTargets) : u.AssignsTargets := by
  cases h with
  | mk visited _ passes =>
    have hfilled := ((preserves_keepsTargets o).entered passes (hss _ (by simp))).1
    exact Enclosure.of_fillAll (fun _ _ h => (assignsTargets_node.1 h).2) hfilled

end Sweep

end Chainlift
