import Chainlift.Proofs.Congruence

/-!
# Variables that are not read

If everything that a machine does by itself overlooks a variable (`Machine.Overlooks`), then so does every expression that does
not read it, whatever its form: the variable is idle (`Machine.idle_of_unread`). This is what allows the assignments to a
temporary to go while other expressions of any kind stay.
-/

namespace Chainlift

open Eval Tree

variable {W : Type}

/-- No operation depends on the variable, and no expression that is left to the machine does if it does not read it. -/
structure Machine.Overlooks (M : Machine W) (name : String) : Prop extends M.Ignores name where
  write : ∀ object key v, (M.write object key v).Ignores name
  remove : ∀ object key, (M.remove object key).Ignores name
  iterate : ∀ v, (M.iterate v).Ignores name
  other : ∀ t, t.Unread name → Idle name (M.other t) (M.other t)

/-- The variable is not read in the parts that are evaluated either. -/
theorem Tree.unread_evaluated {name : String} {f : Form} {ps : List Tree} (ho : f.isOpened ps = true ∨ f = .spread)
    (h : (node f ps).Unread name) : ∀ p ∈ f.evaluated ps, p.Unread name := by
  have hf : f.isFunction = false := by
    rcases ho with ho | rfl
    · unfold Form.isOpened at ho
      split at ho
      all_goals first | rfl | exact absurd ho (by simp)
    · rfl
  by_cases hassign : ∃ n v, node f ps = .assign .plain (.reference n) v
  · obtain ⟨n, v, heq⟩ := hassign
    obtain ⟨rfl, rfl⟩ := node.inj heq
    intro p hp
    obtain rfl : p = v := by simpa [Form.evaluated] using hp
    exact unread_assign h
  · have hown : ownAssignments f ps = [] := by
      unfold ownAssignments
      split
      · rename_i n vs
        rcases ho with ho | ho
        · obtain ⟨v, rfl⟩ : ∃ v, vs = [v] := by
            unfold Form.isOpened at ho
            split at ho <;> simp_all
          exact absurd ⟨n, v, rfl⟩ hassign
        · exact absurd ho (by simp)
      · rfl
    exact fun p hp => unread_node hf hown h p (f.evaluated_subset ps hp)

namespace Machine

variable {M : Machine W} {name : String} (hM : M.Overlooks name)

include hM

theorem Overlooks.respectsIn : M.RespectsIn (State.Agree [name]) (Unread name) where
  read object key := idle_perform (hM.read object key) _
  write object key v := idle_perform (hM.write object key v) _
  remove object key := idle_perform (hM.remove object key) _
  call function receiver args := idle_perform (hM.call function receiver args) _
  iterate v := idle_perform (hM.iterate v) _
  looselyEqual a b := idle_perform (hM.looselyEqual a b) _
  setVariable := idle_setVariable
  parts _ _ ho h := unread_evaluated ho h
  readVariable m hm := by
    refine idle_readVariable ?_
    rintro rfl
    exact not_unread_reference _ hm
  other := hM.other

theorem Overlooks.respects : M.Respects (State.Agree [name]) := hM.respectsIn.toRespects

/-- A variable that is not read in an expression is idle in it. -/
theorem idle_of_unread {t : Tree} (hu : t.Unread name) : Idle name (M.refer t) (M.refer t) := hM.respectsIn.refer hu

end Machine

theorem Machine.constant_overlooks (v : Value) (name : String) : (Machine.constant v).Overlooks name where
  toIgnores := constant_ignores v name
  write _ _ _ _ _ h := ⟨rfl, h⟩
  remove _ _ _ _ h := ⟨rfl, h⟩
  iterate _ _ _ h := ⟨rfl, h⟩
  other _ _ := idle_pure name v

end Chainlift
