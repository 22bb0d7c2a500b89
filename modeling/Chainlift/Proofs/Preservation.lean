import Chainlift.Proofs.Moments

/-!
# What a sweep preserves

A relation between trees that holds from node to node when it holds from part to part, and that neither a rewrite nor the
leaving of a node breaks (`Sweep.Preserves`), holds between each tree and what the sweep makes of it
(`Sweep.Preserves.visit`, `Sweep.Preserves.visitAll`).

The same of states: a relation that holds before and after a rewrite, and around a node if it holds in it (`Sweep.Advances`), holds
before and after each visit (`Sweep.Advances.again`, `Sweep.Advances.visitAll`).
-/

namespace Chainlift

open Tree

namespace Sweep

/-- The relation holds between a tree and what one step of a sweep makes of it, and it can be put together from steps and from
parts. -/
structure Preserves (o : Options) (R : Tree → Tree → Prop) : Prop where
  refl : ∀ t, R t t
  trans : ∀ {t u v}, R t u → R u v → R t v
  node : ∀ {f : Form} {ps qs : List Tree}, List.Forall₂ R ps qs → R (.node f ps) (.node f qs)
  rewrite : ∀ {t u : Tree} {s s' : Sweep}, tryRewrite o t s = some (u, s') → R t u
  leave : ∀ (s : Sweep) (f : Form) (ps : List Tree), R (.node f ps) (s.leave f ps).1

theorem forall₂_visitAllWith {o : Options} {R : Tree → Tree → Prop} {next : List Tree → Sweep → List Tree × Sweep} {ps : List Tree}
    (h : ∀ p ∈ ps, ∀ s, R p (visitWith o next p s).1) (s : Sweep) : List.Forall₂ R ps (visitAllWith o next ps s).1 := by
  induction ps generalizing s with
  | nil => exact .nil
  | cons p ps ih =>
    simp only [List.mem_cons, forall_eq_or_imp] at h
    rw [visitAllWith]
    exact .cons (h.1 s) (ih h.2 _)

namespace Preserves

variable {o : Options} {R : Tree → Tree → Prop} (hR : Preserves o R)

include hR

theorem forall₂_refl (ps : List Tree) : List.Forall₂ R ps ps := List.forall₂_same.2 fun p _ => hR.refl p

/-- A node is left after its parts, and perhaps tried once more. -/
theorem finish {f : Form} {ps : List Tree} {before : Sweep} {visited : List Tree × Sweep} (h : List.Forall₂ R ps visited.1) :
    R (.node f ps) (finish o before f visited).1 := by
  have hleft := hR.trans (hR.node (f := f) h) (hR.leave visited.2 f visited.1)
  unfold Sweep.finish
  simp only
  split
  · cases ht : tryRewrite o (visited.2.leave f visited.1).1 (visited.2.leave f visited.1).2 with
    | none => exact hleft
    | some x => exact hR.trans hleft (hR.rewrite ht)
  · exact hleft

theorem visitWith {next : List Tree → Sweep → List Tree × Sweep} (hnext : ∀ ps s, List.Forall₂ R ps (next ps s).1) (t : Tree) (s : Sweep) :
    R t (visitWith o next t s).1 := by
  induction t generalizing s with
  | node f ps ih =>
    rw [visitWith.eq_def]
    simp only
    split
    · rename_i heq
      exact hR.trans (hR.rewrite heq) (hR.finish (hnext _ _))
    · exact hR.finish (forall₂_visitAllWith ih _)

theorem again (depth : Nat) (ps : List Tree) (s : Sweep) : List.Forall₂ R ps (again o depth ps s).1 := by
  induction depth generalizing ps s with
  | zero => exact hR.forall₂_refl ps
  | succ n ih =>
    rw [Sweep.again, visitAll_eq]
    exact forall₂_visitAllWith (fun p _ => hR.visitWith ih p) s

/-- What the visit of a tree makes of it. -/
theorem visit (depth : Nat) (t : Tree) (s : Sweep) : R t (Sweep.visitWith o (Sweep.again o depth) t s).1 :=
  hR.visitWith (hR.again depth) t s

theorem visitAll (depth : Nat) (ps : List Tree) (s : Sweep) : List.Forall₂ R ps (visitAll o depth ps s).1 :=
  hR.again (depth + 1) ps s

end Preserves

/-! ## States -/

/-- The relation holds between the states before and after one step of a sweep, and it can be put together. What a node is left with are
as many parts as it was entered with. -/
structure Advances (o : Options) (R : Sweep → Sweep → Prop) : Prop where
  refl : ∀ s, R s s
  trans : ∀ {s s' s''}, R s s' → R s' s'' → R s s''
  rewrite : ∀ {t u : Tree} {s s' : Sweep}, tryRewrite o t s = some (u, s') → R s s'
  leave : ∀ {f : Form} {ps ps' : List Tree} {s s' : Sweep}, ps'.length = ps.length → R (s.enter f ps) s' → R s (s'.leave f ps').2

namespace Advances

variable {o : Options} {R : Sweep → Sweep → Prop} (hR : Advances o R)

include hR

/-- A node is left after its parts, and perhaps tried once more. -/
theorem finish {f : Form} {ps : List Tree} {s before : Sweep} {visited : List Tree × Sweep} (hlength : visited.1.length = ps.length)
    (h : R (s.enter f ps) visited.2) : R s (finish o before f visited).2 := by
  have hleft := hR.leave hlength h
  unfold Sweep.finish
  simp only
  split
  · cases ht : tryRewrite o (visited.2.leave f visited.1).1 (visited.2.leave f visited.1).2 with
    | none => exact hleft
    | some x => exact hR.trans hleft (hR.rewrite ht)
  · exact hleft

section

variable {next : List Tree → Sweep → List Tree × Sweep}

theorem visitAllWith {ps : List Tree} (h : ∀ p ∈ ps, ∀ s, R s (visitWith o next p s).2) (s : Sweep) :
    R s (visitAllWith o next ps s).2 ∧ (visitAllWith o next ps s).1.length = ps.length := by
  induction ps generalizing s with
  | nil => exact ⟨hR.refl s, rfl⟩
  | cons p ps ih =>
    simp only [List.mem_cons, forall_eq_or_imp] at h
    obtain ⟨hrest, hlength⟩ := ih h.2 (visitWith o next p s).2
    rw [Sweep.visitAllWith]
    exact ⟨hR.trans (h.1 s) hrest, congrArg (· + 1) hlength⟩

theorem visitWith (hnext : ∀ (ps : List Tree) (s : Sweep), R s (next ps s).2 ∧ (next ps s).1.length = ps.length) (t : Tree)
    (s : Sweep) : R s (visitWith o next t s).2 := by
  induction t generalizing s with
  | node f ps ih =>
    rw [visitWith.eq_def]
    simp only
    split
    · rename_i heq
      exact hR.trans (hR.rewrite heq) (hR.finish (hnext _ _).2 (hnext _ _).1)
    · obtain ⟨hparts, hlength⟩ := hR.visitAllWith ih (s.enter f ps)
      exact hR.finish hlength hparts

end

theorem again (depth : Nat) (ps : List Tree) (s : Sweep) :
    R s (again o depth ps s).2 ∧ (Sweep.again o depth ps s).1.length = ps.length := by
  induction depth generalizing ps s with
  | zero => exact ⟨hR.refl s, rfl⟩
  | succ n ih =>
    rw [Sweep.again, visitAll_eq]
    exact hR.visitAllWith (fun p _ => hR.visitWith ih p) s

theorem visit (depth : Nat) (t : Tree) (s : Sweep) : R s (Sweep.visitWith o (Sweep.again o depth) t s).2 :=
  hR.visitWith (hR.again depth) t s

theorem turns {d d' : Nat} {t u : Tree} {s s' : Sweep} (h : Turns o d t s d' u s') : R s s' := by
  cases h with
  | kept _ => exact hR.refl s
  | replaced h => exact hR.rewrite h

theorem visitAll (depth : Nat) (ps : List Tree) (s : Sweep) :
    R s (visitAll o depth ps s).2 ∧ (Sweep.visitAll o depth ps s).1.length = ps.length := hR.again (depth + 1) ps s

end Advances

end Sweep

end Chainlift
