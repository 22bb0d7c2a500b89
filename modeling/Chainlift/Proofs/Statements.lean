import Chainlift.Proofs.Cleaning

/-!
# Properties that cleaning hands on

Cleaning takes declarators out of the statements of a scope and leaves everything else as it is. So a property that a node of
statements has exactly if all its parts have it is handed on to the node that is left (`Tree.Statementwise.leave`).
-/

namespace Chainlift

open Tree

/-- Statements of the same scope, or declarators, stand in the node. -/
def Form.isStatements : Form → Bool
  | .declaration _ | .body _ => true
  | f => holdsStatements f

/-- A node of statements has the property if and only if all its parts have it. -/
structure Tree.Statementwise (P : Tree → Prop) : Prop where
  node : ∀ {f : Form} {ps : List Tree}, f.isStatements = true → (P (.node f ps) ↔ ∀ p ∈ ps, P p)
  absent : P .absent
  empty : P (.node .emptyStmt [])

namespace Tree.Statementwise

variable {P : Tree → Prop} (hP : Statementwise P)

include hP

theorem pruned {t : Tree} (h : P t) (name : String) : P (t.pruned name) := by
  induction t with
  | node f ps ih =>
    by_cases hdeclaration : ∃ kind, f = .declaration kind
    · obtain ⟨kind, rfl⟩ := hdeclaration
      rw [Tree.pruned]
      exact (hP.node rfl).2 fun p hp => (hP.node rfl).1 h p (List.mem_of_mem_filter hp)
    by_cases hf : holdsStatements f = true
    · have hstatements : f.isStatements = true := by
        unfold Form.isStatements
        split
        · rfl
        · rfl
        · exact hf
      have hparts := (hP.node hstatements).1 h
      rw [(pruned_of_holdsStatements name hf ps).1]
      refine (hP.node hstatements).2 fun q hq => ?_
      rcases mem_parts_pruned hq with rfl | rfl | ⟨p, hp, rfl | rfl⟩
      · exact hP.absent
      · exact hP.empty
      · exact hparts q hp
      · exact ih p hp (hparts p hp)
    · rw [(pruned_eq_self name (by simpa using hf) (fun kind h => hdeclaration ⟨kind, h⟩) ps).1]
      exact h

theorem removeUnused {s : Scope} (h : ∀ t ∈ s.statements, P t) (name : String) : ∀ t ∈ (s.removeUnused name).2, P t := by
  rcases s.removeUnused_cases name with ⟨-, heq⟩ | ⟨heq, -⟩
  · rw [heq]
    exact h
  · rw [heq]
    intro t ht
    rw [prunedAll, prunedParts_false] at ht
    obtain ⟨u, hu, rfl⟩ := List.mem_map.1 (List.mem_of_mem_filter ht)
    exact hP.pruned (h u hu) name

theorem leaveScope {scope : Scope} (h : ∀ t ∈ scope.statements, P t) (s : Sweep) : ∀ t ∈ (s.leaveScope scope).1, P t := by
  have hfold : ∀ (names : List String) (c : Sweep.Cleaned), (∀ t ∈ c.statements, P t) →
      ∀ t ∈ (names.foldl (Sweep.Cleaned.add scope.parameters) c).statements, P t := by
    intro names
    induction names with
    | nil => exact fun c hc => hc
    | cons name names ih =>
      intro c hc
      refine ih _ ?_
      rw [Sweep.Cleaned.add_statements]
      exact hP.removeUnused (s := c.scope scope.parameters) hc name
  unfold Sweep.leaveScope
  split
  · exact h
  · exact hfold _ _ h

variable {f : Form} {ps ss : List Tree} {scope : Scope}

theorem bodyStatements {body : Tree} : (∀ t ∈ body.bodyStatements, P t) ↔ P body := by
  unfold Tree.bodyStatements
  split
  · exact (hP.node rfl).symm
  · simp

theorem withStatements {body : Tree} (hbody : P body) (h : ∀ t ∈ ss, P t) : P (body.withStatements ss) := by
  unfold Tree.withStatements
  split
  · exact (hP.node rfl).2 h
  · exact h _ (by simp)
  · exact hbody

theorem statements (h : Scope.of? f ps = some scope) (hps : ∀ p ∈ ps, P p) : ∀ t ∈ scope.statements, P t := by
  unfold Scope.of? at h
  split at h
  · obtain rfl := Option.some.inj h
    exact hP.bodyStatements.2 (hps _ (by simp))
  · obtain rfl := Option.some.inj h
    exact hP.bodyStatements.2 (hps _ (by simp))
  · obtain rfl := Option.some.inj h
    exact hps
  · exact absurd h (by simp)

theorem put (hps : ∀ p ∈ ps, P p) (hss : ∀ t ∈ ss, P t) : ∀ p ∈ Scope.put f ps ss, P p := by
  unfold Scope.put
  split
  · simp only [List.mem_cons, forall_eq_or_imp] at hps ⊢
    obtain ⟨hname, hparameters, htype, hbody, hnil⟩ := hps
    exact ⟨hname, hparameters, htype, hP.withStatements hbody hss, hnil⟩
  · simp only [List.mem_cons, forall_eq_or_imp] at hps ⊢
    obtain ⟨hparameters, htype, hbody, hnil⟩ := hps
    exact ⟨hparameters, htype, hP.withStatements hbody hss, hnil⟩
  · exact hss
  · exact hps

/-- The parts of a node that is left have the property if they had it before. -/
theorem leave (hps : ∀ p ∈ ps, P p) (s : Sweep) : ∃ qs, (s.leave f ps).1 = .node f qs ∧ ∀ q ∈ qs, P q := by
  unfold Sweep.leave
  split
  · rename_i hscope
    exact ⟨_, rfl, hP.put hps (hP.leaveScope (hP.statements hscope hps) s)⟩
  · exact ⟨_, rfl, hps⟩

end Tree.Statementwise

end Chainlift
