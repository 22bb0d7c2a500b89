import Chainlift.Proofs.Frames
import Chainlift.Sweep.Pass

/-!
# Every rewrite makes progress

Each rewrite takes at least one conditional, `&&` or `||` out of the program, and the removal of declarations puts none in. What
a program has of them (`Program.branchings`) therefore pays for all the rewrites of a run: their number is bounded by it, and
with more sweeps than that the last one finds nothing to do (`Program.lift_progress`). A visit that spends no more than it is
given (`Sweep.Pays`) is made of visits that do not.
-/

namespace Chainlift

open Tree

/-- How many conditionals, `&&` and `||` there are in a tree, nested functions included. -/
def Tree.branchings (t : Tree) : Nat := t.nodes.countP Tree.isBranching

def Program.branchings (p : Program) : Nat := (p.body.map Tree.branchings).sum

/-- Every choice counts one, and nothing else counts. -/
def Weight.branchings : Weight where
  own f ps := if (node f ps).isBranching then 1 else 0
  choice := 1
  own_branching _ _ h := if_pos h
  own_eq_zero _ _ _ h _ := if_neg (by simp [h])
  own_reference _ _ _ := rfl

/-- What a node counts itself is told by its form. -/
theorem Weight.own_branchings (f : Form) (ps qs : List Tree) : branchings.own f ps = branchings.own f qs := rfl

namespace Tree

theorem branchings_node (f : Form) (ps : List Tree) :
    (node f ps).branchings = Weight.branchings.own f ps + (ps.map branchings).sum := by
  have hall : ∀ ps : List Tree, (nodesAll ps).countP isBranching = (ps.map branchings).sum := by
    intro ps
    induction ps with
    | nil => rfl
    | cons p ps ih => rw [nodesAll, List.countP_append, ih, List.map_cons, List.sum_cons, branchings]
  rw [branchings, nodes, List.countP_cons, hall, Nat.add_comm]
  rfl

theorem total_branchings (t : Tree) : Weight.branchings.total t = t.branchings := by
  induction t with
  | node f ps ih => rw [Weight.total_node, branchings_node, List.map_congr_left ih]

theorem map_total_branchings (ts : List Tree) : ts.map Weight.branchings.total = ts.map branchings :=
  List.map_congr_left fun t _ => total_branchings t

/-- What stands around an expression counts the same whatever the expression is. -/
theorem branchings_fillAll (around : List Enclosure) (t u : Tree) :
    (Enclosure.fillAll around t).branchings + u.branchings = (Enclosure.fillAll around u).branchings + t.branchings := by
  induction around generalizing t u with
  | nil => exact Nat.add_comm ..
  | cons l ls ih =>
    have hls := ih (l.fill t) (l.fill u)
    have hl : (l.fill t).branchings + u.branchings = (l.fill u).branchings + t.branchings := by
      have hown := Weight.own_branchings l.form (l.parts t) (l.parts u)
      simp only [Enclosure.fill, branchings_node, Enclosure.parts, List.map_append, List.sum_append, List.map_cons,
        List.sum_cons] at hown ⊢
      omega
    rw [Enclosure.fillAll, Enclosure.fillAll]
    omega

end Tree

namespace Sweep

/-! ## What a rewrite pays, and what leaving costs -/

theorem rewrites_leaveBehind (s : Sweep) (names : List String) : (s.leaveBehind names).rewrites = s.rewrites := by
  unfold leaveBehind
  split <;> rfl

theorem rewrites_accept {s s' : Sweep} {t u : Tree} {r : Replacement} {kind : RewriteKind}
    (h : s.accept t r kind = some (u, s')) : u = r.expr ∧ s'.rewrites = s.rewrites + 1 := by
  obtain ⟨-, rfl, rfl⟩ := accept_eq_some h
  refine ⟨rfl, ?_⟩
  have hcount : ∀ s : Sweep, (s.count kind).rewrites = s.rewrites + 1 := by
    intro s
    cases kind <;> simp only [count, rewrites] <;> omega
  rw [hcount, rewrites_leaveBehind]
  rfl

/-- A rewrite that is made takes a choice away, and is counted. -/
theorem branchings_of_tryRewrite {o : Options} {t u : Tree} {s s' : Sweep} (h : tryRewrite o t s = some (u, s')) :
    u.branchings + 1 ≤ t.branchings ∧ s'.rewrites = s.rewrites + 1 := by
  obtain ⟨r, kind, hr, ha⟩ := accept_of_tryRewrite h
  obtain ⟨rfl, hcount⟩ := rewrites_accept ha
  refine ⟨?_, hcount⟩
  rw [← total_branchings, ← total_branchings]
  rcases hr with hr | ⟨-, hr⟩
  · exact Weight.branchings.coalesce_le hr
  · exact Weight.branchings.reconstruct_le hr

theorem rewrites_enter (s : Sweep) (f : Form) (ps : List Tree) : (s.enter f ps).rewrites = s.rewrites := by
  unfold enter
  split <;> rfl

/-- Leaving a scope puts no choice into it, and counts no rewrite. -/
theorem branchings_leaveScope (s : Sweep) (scope : Scope) :
    ((s.leaveScope scope).1.map Tree.branchings).sum ≤ (scope.statements.map Tree.branchings).sum ∧
      (s.leaveScope scope).2.rewrites = s.rewrites := by
  constructor
  · rw [← map_total_branchings, ← map_total_branchings]
    exact Weight.branchings.leaveScope_le s scope
  · unfold leaveScope
    split
    · rfl
    · rw [rewrites_leaveBehind]
      rfl

theorem branchings_leave (s : Sweep) (f : Form) (ps : List Tree) :
    (s.leave f ps).1.branchings ≤ (node f ps).branchings ∧ (s.leave f ps).2.rewrites = s.rewrites := by
  constructor
  · rw [← total_branchings, ← total_branchings]
    exact Weight.branchings.leave_le s f ps fun _ => Nat.le_of_eq (Weight.own_branchings ..)
  · unfold leave
    split
    · exact (branchings_leaveScope s _).2
    · rfl

/-! ## Visits -/

/-- What has become of a tree, and the rewrites made in it, were paid for with the choices of the tree. -/
def Pays (t : Tree) (s : Sweep) (visited : Tree × Sweep) : Prop :=
  visited.1.branchings + visited.2.rewrites ≤ t.branchings + s.rewrites

/-- The same of trees in a row. -/
def PaysAll (ts : List Tree) (s : Sweep) (visited : List Tree × Sweep) : Prop :=
  (visited.1.map Tree.branchings).sum + visited.2.rewrites ≤ (ts.map Tree.branchings).sum + s.rewrites

variable {o : Options}

/-- A node is left after its parts, and perhaps tried once more. -/
theorem finish_pays {f : Form} {ps : List Tree} {s before : Sweep} {visited : List Tree × Sweep}
    (h : PaysAll ps (s.enter f ps) visited) : Pays (.node f ps) s (finish o before f visited) := by
  obtain ⟨qs, s₁⟩ := visited
  obtain ⟨hleft, hcount⟩ := branchings_leave s₁ f qs
  have hpaid : Pays (.node f ps) s (s₁.leave f qs) := by
    have hown := Weight.own_branchings f ps qs
    unfold PaysAll at h
    rw [branchings_node] at hleft
    rw [Pays, hcount, branchings_node]
    rw [rewrites_enter] at h
    simp only at h
    omega
  unfold finish
  simp only
  split
  · cases ht : tryRewrite o (s₁.leave f qs).1 (s₁.leave f qs).2 with
    | none => exact hpaid
    | some x =>
      obtain ⟨hless, hmore⟩ := branchings_of_tryRewrite ht
      unfold Pays at hpaid
      show x.1.branchings + x.2.rewrites ≤ _
      omega
  · exact hpaid

section

variable {next : List Tree → Sweep → List Tree × Sweep}

theorem visitAllWith_pays {ps : List Tree} (h : ∀ p ∈ ps, ∀ s, Pays p s (visitWith o next p s)) (s : Sweep) :
    PaysAll ps s (visitAllWith o next ps s) := by
  induction ps generalizing s with
  | nil => exact Nat.le_refl _
  | cons p ps ih =>
    simp only [List.mem_cons, forall_eq_or_imp] at h
    have hp := h.1 s
    have hps := ih h.2 (visitWith o next p s).2
    unfold Pays at hp
    unfold PaysAll at hps ⊢
    rw [visitAllWith]
    simp only [List.map_cons, List.sum_cons]
    omega

theorem visitWith_pays (hnext : ∀ ps s, PaysAll ps s (next ps s)) (t : Tree) (s : Sweep) : Pays t s (visitWith o next t s) := by
  induction t generalizing s with
  | node f ps ih =>
    rw [visitWith.eq_def]
    simp only
    split
    · rename_i f' ps' s' heq
      obtain ⟨hless, hmore⟩ := branchings_of_tryRewrite heq
      have hrest : Pays (.node f' ps') s' (finish o s' f' (next ps' (s'.enter f' ps'))) :=
        finish_pays (hnext ps' (s'.enter f' ps'))
      unfold Pays at hrest ⊢
      omega
    · exact finish_pays (visitAllWith_pays ih _)

end

theorem visitAll_pays (o : Options) (depth : Nat) (ts : List Tree) (s : Sweep) : PaysAll ts s (visitAll o depth ts s) := by
  induction depth generalizing ts s with
  | zero => exact visitAllWith_pays (fun p _ => visitWith_pays (fun _ _ => Nat.le_refl _) p) s
  | succ n ih => exact visitAllWith_pays (fun p _ => visitWith_pays ih p) s

/-! ## Sweeps -/

/-- The rewrites of a sweep were paid for by the program. -/
theorem overStatements_pays (o : Options) (ss : List Tree) :
    ((overStatements o ss).1.map Tree.branchings).sum + (overStatements o ss).2.rewrites ≤ (ss.map Tree.branchings).sum := by
  have hvisited := visitAll_pays o (sizeAll ss) ss { start with frames := [.ofScope ⟨none, ss⟩] }
  obtain ⟨hleft, hcount⟩ := branchings_leaveScope (visitAll o (sizeAll ss) ss { start with frames := [.ofScope ⟨none, ss⟩] }).2
    ⟨none, (visitAll o (sizeAll ss) ss { start with frames := [.ofScope ⟨none, ss⟩] }).1⟩
  unfold PaysAll at hvisited
  rw [overStatements]
  simp only [rewrites, start] at hvisited hleft hcount ⊢
  omega

/-- The rewrites of all sweeps were paid for by the program. -/
theorem passes_pays (o : Options) (pass n : Nat) (ss : List Tree) (stats : Stats) :
    ((passes o pass n ss stats).1.map Tree.branchings).sum + (passes o pass n ss stats).2.rewrites ≤
      (ss.map Tree.branchings).sum + stats.rewrites := by
  induction n generalizing pass ss stats with
  | zero => exact Nat.le_refl _
  | succ n ih =>
    have hsweep := overStatements_pays o ss
    have hstats : (stats.addSweep pass (overStatements o ss).2).rewrites = stats.rewrites + (overStatements o ss).2.rewrites := by
      simp only [Stats.addSweep, Stats.rewrites, rewrites]
      omega
    rw [passes]
    simp only
    split
    · dsimp only
      omega
    · have hrest := ih (pass + 1) (overStatements o ss).1 (stats.addSweep pass (overStatements o ss).2)
      omega

/-- More sweeps than there are choices come to an end. -/
theorem passes_converged {o : Options} {pass n : Nat} {ss : List Tree} {stats : Stats}
    (h : (ss.map Tree.branchings).sum < n) : (passes o pass n ss stats).2.converged = true := by
  induction n generalizing pass ss stats with
  | zero => exact absurd h (Nat.not_lt_zero _)
  | succ n ih =>
    have hsweep := overStatements_pays o ss
    rw [passes]
    simp only
    split
    · rename_i hnone
      exact hnone
    · rename_i hsome
      rw [beq_iff_eq] at hsome
      exact ih (by omega)

end Sweep

/-- Every rewrite makes progress, and every run comes to an end: wherever in a program a replacement is made, there are fewer
conditionals, `&&` and `||` afterwards, and wherever declarations are removed there are no more; so a run makes at most as many
rewrites as the program has of them, and with more sweeps than that it ends because nothing is left to rewrite. -/
theorem Program.lift_progress (p : Program) (o : Options) (stats : Stats) :
    (∀ (around : List Enclosure) (t u : Tree) (s s' : Sweep), Sweep.tryRewrite o t s = some (u, s') →
      (Enclosure.fillAll around u).branchings < (Enclosure.fillAll around t).branchings) ∧
    (∀ (around : List Enclosure) (f : Form) (ps : List Tree) (s : Sweep),
      (Enclosure.fillAll around (s.leave f ps).1).branchings ≤ (Enclosure.fillAll around (.node f ps)).branchings) ∧
    (∀ s : Sweep, { p with body := (s.leaveScope (.ofProgram p)).1 }.branchings ≤ p.branchings) ∧
    (p.lift o stats).1.branchings + (p.lift o stats).2.rewrites ≤ p.branchings + stats.rewrites ∧
    (p.branchings < o.maxPasses → (p.lift o stats).2.converged = true) := by
  refine ⟨fun around t u s s' h => ?_, fun around f ps s => ?_, fun s => ?_, ?_, fun h => ?_⟩
  · have hless := (Sweep.branchings_of_tryRewrite h).1
    have hfill := branchings_fillAll around t u
    omega
  · have hless := (s.branchings_leave f ps).1
    have hfill := branchings_fillAll around (.node f ps) (s.leave f ps).1
    omega
  · exact (s.branchings_leaveScope (.ofProgram p)).1
  · exact Sweep.passes_pays o 1 (max o.maxPasses 1) p.body { stats with converged := false }
  · exact Sweep.passes_converged (show p.branchings < max o.maxPasses 1 by omega)

namespace Program.LiftProgress

/-- `a == null ? void 0 : a.b` -/
def guarded : Tree :=
  .conditional (.binary .eq (.reference "a") .null) (.unary .void (.number .zero)) (.member (.reference "a") "b" false)

/-- `a?.b` -/
def linked : Tree := .chain (.member (.reference "a") "b" true)

/-- `a == null ? void 0 : a.b;` -/
def program : Program := ⟨none, [], [.node .expressionStmt [guarded]]⟩

end Program.LiftProgress

open Program.LiftProgress in
theorem Program.lift_progress_guarded :
    (∃ s', Sweep.tryRewrite {} guarded .start = some (linked, s')) ∧
    (Enclosure.fillAll [⟨.expressionStmt, [], [], none⟩] linked).branchings < program.branchings ∧
    program.branchings < ({} : Options).maxPasses ∧ (program.lift {} {}).2.converged = true := by
  obtain ⟨s', hr⟩ : ∃ s', Sweep.tryRewrite {} guarded .start = some (linked, s') := ⟨_, rfl⟩
  obtain ⟨hfewer, -, -, -, hend⟩ := Program.lift_progress program {} {}
  have hpasses : program.branchings < ({} : Options).maxPasses := by decide
  exact ⟨⟨s', hr⟩, hfewer [⟨.expressionStmt, [], [], none⟩] guarded linked .start s' hr, hpasses, hend hpasses⟩

end Chainlift
