import Chainlift.Proofs.Weight

/-!
# Rewriting adds nothing

A measure is a weight that choices between branches do not have (`Measure.weight`): the uses of a variable (`Measure.uses`), or
anything about nested functions. A rewrite makes no measure more (`Measure.reconstruct_le`, `Measure.coalesce_le`).
-/

namespace Chainlift

open Tree

/-- Something that is counted at each reference and at each function; at a function it may depend on the parts. -/
structure Measure where
  own : Form → List Tree → Nat
  own_eq_zero : ∀ f ps, f.isFunction = false → (∀ name, f ≠ .reference name) → own f ps = 0
  own_reference : ∀ name ps qs, own (.reference name) ps = own (.reference name) qs

namespace Measure

/-- The uses of a variable. -/
def uses (name : String) : Measure where
  own f _ := (ownReferences f).count name
  own_eq_zero f ps _ hr := by rw [ownReferences_eq hr, List.count_nil]
  own_reference _ _ _ := rfl

variable (m : Measure)

mutual

/-- The sum over all nodes of a tree. -/
def total : Tree → Nat
  | .node f ps => m.own f ps + totalAll ps

def totalAll : List Tree → Nat
  | [] => 0
  | t :: ts => total t + totalAll ts

end

theorem totalAll_eq_sum (ts : List Tree) : m.totalAll ts = (ts.map m.total).sum := by
  induction ts with
  | nil => rfl
  | cons t ts ih => rw [totalAll, ih, List.map_cons, List.sum_cons]

theorem total_node (f : Form) (ps : List Tree) : m.total (.node f ps) = m.own f ps + (ps.map m.total).sum := by
  rw [total, totalAll_eq_sum]

theorem total_uses (name : String) (t : Tree) : (uses name).total t = t.uses name := by
  induction t with
  | node f ps ih =>
    rw [total_node, uses_node, List.map_congr_left ih]
    rfl

/-- Choices count nothing. -/
def weight : Weight where
  own := m.own
  choice := 0
  own_branching f ps h := by
    refine m.own_eq_zero f ps ?_ ?_
    · cases f with
      | function | arrow => exact absurd h (by simp [isBranching, form])
      | _ => rfl
    · rintro name rfl
      exact absurd h (by simp [isBranching, form])
  own_eq_zero f ps hf _ hr := m.own_eq_zero f ps hf hr
  own_reference := m.own_reference

theorem total_weight (t : Tree) : m.weight.total t = m.total t := by
  induction t with
  | node f ps ih =>
    rw [m.total_node, m.weight.total_node, List.map_congr_left ih]
    rfl

/-- What weighs no more by the uses of a variable does not use it more. -/
theorem uses_le {name : String} {t u : Tree} (h : (uses name).weight.total u ≤ (uses name).weight.total t) :
    u.uses name ≤ t.uses name := by
  rwa [total_weight, total_weight, total_uses, total_uses] at h

/-- A reconstructed expression has nothing more than the expression it stands for. -/
theorem reconstruct_le {t : Tree} {o : Options} {r : Replacement} (h : t.reconstruct o = some r) :
    m.total r.expr ≤ m.total t := by
  rw [← total_weight, ← total_weight]
  exact m.weight.reconstruct_le h

/-- A restored `??` has nothing more than the expression it stands for. -/
theorem coalesce_le {t : Tree} {r : Replacement} (h : t.coalesce = some r) : m.total r.expr ≤ m.total t := by
  rw [← total_weight, ← total_weight]
  exact m.weight.coalesce_le h

end Measure

end Chainlift
