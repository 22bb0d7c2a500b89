import Chainlift.Proofs.Measure
import Chainlift.Sweep.State

/-!
# Cleaning adds nothing

When a scope is left, declarators of dead variables are taken out of its statements. Emptied declarations go with them, or an empty
statement takes their place. So nothing that is counted node by node becomes more (`Weight.leave_le`).
-/

namespace Chainlift

open Tree

namespace Weight

variable (w : Weight)

/-- Part of a list is not more than the list. -/
theorem filter_le (p : Tree → Bool) (ts : List Tree) : ((ts.filter p).map w.total).sum ≤ (ts.map w.total).sum :=
  (List.filter_sublist.map w.total).sum_le_sum fun _ _ => Nat.zero_le _

theorem filled_le (t : Tree) : w.total t.filled ≤ w.total t := by
  unfold filled
  split
  · rw [w.total_of_form rfl rfl (by simp)]
    exact Nat.zero_le _
  · exact Nat.le_refl _

theorem tidied_le (f : Form) (ps : List Tree) : ((tidied f ps).map w.total).sum ≤ (ps.map w.total).sum := by
  have hfilled : ∀ ts : List Tree, ((ts.map Tree.filled).map w.total).sum ≤ (ts.map w.total).sum := by
    intro ts
    rw [List.map_map]
    exact List.sum_le_sum fun t _ => w.filled_le t
  have habsent : w.total .absent = 0 := by
    rw [w.total_of_form rfl rfl (by simp)]
    rfl
  unfold tidied
  split
  · exact w.filter_le _ _
  · exact w.filter_le _ _
  · rename_i head ps
    have := hfilled ps
    rw [List.map_cons, List.map_cons, List.sum_cons, List.sum_cons]
    split
    · omega
    · omega
  any_goals exact hfilled _
  exact Nat.le_refl _

theorem total_of_holdsStatements {f : Form} (h : holdsStatements f = true) (ps : List Tree) :
    w.total (.node f ps) = (ps.map w.total).sum := by
  refine w.total_of_form ?_ ?_ ?_
  · cases f <;> simp_all [holdsStatements, Form.isFunction]
  · cases f <;> simp_all [holdsStatements, isBranching, form]
  · rintro name rfl
    exact absurd h (by simp [holdsStatements])

theorem prunedParts_le (name : String) (fixedHead : Bool) {ps : List Tree} (h : ∀ p ∈ ps, w.total (p.pruned name) ≤ w.total p) :
    ((prunedParts name fixedHead ps).map w.total).sum ≤ (ps.map w.total).sum := by
  induction ps generalizing fixedHead with
  | nil => exact Nat.le_refl _
  | cons p ps ih =>
    simp only [List.mem_cons, forall_eq_or_imp] at h
    have hrest := ih false h.2
    rw [prunedParts, List.map_cons, List.map_cons, List.sum_cons, List.sum_cons]
    split
    · omega
    · have := h.1
      omega

theorem pruned_le (name : String) (t : Tree) : w.total (t.pruned name) ≤ w.total t := by
  induction t with
  | node f ps ih =>
    unfold pruned
    split
    · rw [w.total_of_form rfl rfl (by simp), w.total_of_form rfl rfl (by simp)]
      exact w.filter_le _ _
    · split
      · rename_i h
        rw [w.total_of_holdsStatements h, w.total_of_holdsStatements h]
        exact (w.tidied_le f _).trans (w.prunedParts_le name _ ih)
      · exact Nat.le_refl _

theorem removeUnused_le (s : Scope) (name : String) :
    (((s.removeUnused name).2).map w.total).sum ≤ (s.statements.map w.total).sum := by
  unfold Scope.removeUnused
  split
  · exact Nat.le_refl _
  · split
    · exact Nat.le_refl _
    · split
      · exact Nat.le_refl _
      · split
        · exact Nat.le_refl _
        · exact (w.filter_le _ _).trans (w.prunedParts_le name false fun p _ => w.pruned_le name p)

theorem clean_le (scope : Scope) (names : List String) :
    ((Sweep.clean scope names).statements.map w.total).sum ≤ (scope.statements.map w.total).sum := by
  have hfold : ∀ (names : List String) (c : Sweep.Cleaned),
      ((names.foldl (Sweep.Cleaned.add scope.parameters) c).statements.map w.total).sum ≤ (c.statements.map w.total).sum := by
    intro names
    induction names with
    | nil => exact fun c => Nat.le_refl _
    | cons name names ih =>
      intro c
      refine (ih _).trans ?_
      have h := w.removeUnused_le ⟨scope.parameters, c.statements⟩ name
      unfold Sweep.Cleaned.add
      split
      · rename_i heq
        rw [heq] at h
        exact h
      · exact Nat.le_refl _
      · exact Nat.le_refl _
  exact hfold _ _

theorem withStatements_le {body : Tree} {ss : List Tree}
    (h : (ss.map w.total).sum ≤ (body.bodyStatements.map w.total).sum) : w.total (body.withStatements ss) ≤ w.total body := by
  unfold withStatements
  split
  · rw [w.total_of_form rfl rfl (by simp), w.total_of_form rfl rfl (by simp)]
    exact h
  · rename_i hbody
    have hstatements : body.bodyStatements = [body] := by
      unfold bodyStatements
      split
      · exact absurd rfl (hbody _ _)
      · rfl
    rw [hstatements] at h
    simpa using h
  · exact Nat.le_refl _

/-- The node with less in its scope. -/
theorem put_le {f : Form} {ps ss : List Tree} {scope : Scope} (hs : Scope.of? f ps = some scope)
    (hown : w.own f (Scope.put f ps ss) ≤ w.own f ps) (h : (ss.map w.total).sum ≤ (scope.statements.map w.total).sum) :
    w.total (.node f (Scope.put f ps ss)) ≤ w.total (.node f ps) := by
  rw [total_node, total_node]
  refine Nat.add_le_add hown ?_
  unfold Scope.of? at hs
  split at hs
  · obtain rfl := Option.some.inj hs
    have := w.withStatements_le h
    simp only [Scope.put, List.map_cons, List.sum_cons]
    omega
  · obtain rfl := Option.some.inj hs
    have := w.withStatements_le h
    simp only [Scope.put, List.map_cons, List.sum_cons]
    omega
  · obtain rfl := Option.some.inj hs
    exact h
  · exact absurd hs (by simp)

theorem leaveScope_le (s : Sweep) (scope : Scope) :
    (((s.leaveScope scope).1).map w.total).sum ≤ (scope.statements.map w.total).sum := by
  unfold Sweep.leaveScope
  split
  · exact Nat.le_refl _
  · exact w.clean_le scope _

/-- Leaving a node adds nothing to it. -/
theorem leave_le (s : Sweep) (f : Form) (ps : List Tree) (hown : ∀ ss, w.own f (Scope.put f ps ss) ≤ w.own f ps) :
    w.total (s.leave f ps).1 ≤ w.total (.node f ps) := by
  unfold Sweep.leave
  split
  · rename_i scope hs
    exact w.put_le hs (hown _) (w.leaveScope_le s scope)
  · exact Nat.le_refl _

end Weight

namespace Measure

variable (m : Measure)

theorem map_weight_total (ts : List Tree) : ts.map m.weight.total = ts.map m.total :=
  List.map_congr_left fun t _ => m.total_weight t

theorem leaveScope_le (s : Sweep) (scope : Scope) :
    (((s.leaveScope scope).1).map m.total).sum ≤ (scope.statements.map m.total).sum := by
  rw [← map_weight_total, ← map_weight_total]
  exact m.weight.leaveScope_le s scope

/-- Leaving a node adds nothing to it. -/
theorem leave_le (s : Sweep) (f : Form) (ps : List Tree) (hown : ∀ ss, m.own f (Scope.put f ps ss) ≤ m.own f ps) :
    m.total (s.leave f ps).1 ≤ m.total (.node f ps) := by
  rw [← total_weight, ← total_weight]
  exact m.weight.leave_le s f ps hown

end Measure

/-! ## Names and types -/

/-- The part belongs to the scope that the node opens: the name of a function and the types do not. -/
def Form.encloses : Form → Nat → Bool
  | .function .., i => i == 1 || i == 3
  | .arrow .., i => i != 1
  | _, _ => true

namespace Tree

mutual

/-- Nothing in the tree opens a scope or chooses between branches. -/
def isQuiet : Tree → Bool
  | .node f ps => !f.opensScope && !(Tree.node f ps).isBranching && allQuiet ps

def allQuiet : List Tree → Bool
  | [] => true
  | t :: ts => t.isQuiet && allQuiet ts

end

theorem isQuiet_node {f : Form} {ps : List Tree} : (Tree.node f ps).isQuiet = true ↔
    f.opensScope = false ∧ (Tree.node f ps).isBranching = false ∧ ∀ p ∈ ps, p.isQuiet = true := by
  have hall : ∀ ps : List Tree, allQuiet ps = true ↔ ∀ p ∈ ps, p.isQuiet = true := by
    intro ps
    induction ps with
    | nil => simp [allQuiet]
    | cons p ps ih => simp [allQuiet, ih]
  rw [isQuiet, Bool.and_eq_true, Bool.and_eq_true, Bool.not_eq_true', Bool.not_eq_true', hall, and_assoc]

/-- How many of the parts, counted from the index, lie outside the scope of their node and are not quiet. -/
def strayFrom (f : Form) : (i : Nat) → List Tree → Nat
  | _, [] => 0
  | i, t :: ts => (if f.encloses i || t.isQuiet then 0 else 1) + strayFrom f (i + 1) ts

theorem strayFrom_append (f : Form) (i : Nat) (ts us : List Tree) :
    strayFrom f i (ts ++ us) = strayFrom f i ts + strayFrom f (i + ts.length) us := by
  induction ts generalizing i with
  | nil => exact (Nat.zero_add _).symm
  | cons t ts ih =>
    rw [List.cons_append, strayFrom, strayFrom, ih, Nat.add_assoc (ite _ _ _), List.length_cons, Nat.add_assoc i, Nat.add_comm 1]

theorem encloses_of_isFunction {f : Form} (hf : f.isFunction = false) (i : Nat) : f.encloses i = true := by
  unfold Form.encloses
  split
  · exact absurd hf (by simp [Form.isFunction])
  · exact absurd hf (by simp [Form.isFunction])
  · rfl

theorem strayFrom_eq_zero {f : Form} (hf : f.isFunction = false) (i : Nat) (ts : List Tree) : strayFrom f i ts = 0 := by
  induction ts generalizing i with
  | nil => rfl
  | cons t ts ih =>
    rw [strayFrom, encloses_of_isFunction hf, ih]
    rfl

end Tree

/-- The parts outside the scope of their function that are not quiet. -/
def Measure.stray : Measure where
  own f ps := strayFrom f 0 ps
  own_eq_zero _ ps hf _ := strayFrom_eq_zero hf 0 ps
  own_reference _ _ _ := (strayFrom_eq_zero rfl 0 _).trans (strayFrom_eq_zero rfl 0 _).symm

/-- The names and types of functions are quiet everywhere in the tree, as grammar has them. -/
def Tree.IsRegular (t : Tree) : Prop := Measure.stray.total t = 0

instance (t : Tree) : Decidable t.IsRegular := inferInstanceAs (Decidable (_ = 0))

theorem Scope.strayFrom_put (f : Form) (ps ss : List Tree) : strayFrom f 0 (Scope.put f ps ss) ≤ strayFrom f 0 ps := by
  unfold Scope.put
  split
  · exact Nat.le_refl _
  · exact Nat.le_refl _
  · rw [strayFrom_eq_zero rfl]
    exact Nat.zero_le _
  · exact Nat.le_refl _

theorem Tree.isRegular_node {f : Form} {ps : List Tree} :
    (Tree.node f ps).IsRegular ↔ strayFrom f 0 ps = 0 ∧ ∀ p ∈ ps, p.IsRegular := by
  have h := Measure.stray.total_node f ps
  unfold Tree.IsRegular
  rw [h, Nat.add_eq_zero_iff, List.sum_eq_zero_iff]
  simp [Measure.stray]

end Chainlift
