import Chainlift.Proofs.Preservation
import Chainlift.Proofs.Progress
import Chainlift.Proofs.Statements

/-!
# Closed programs

A sweep puts closed expressions in the place of closed ones, and takes declarators out of statements. Neither breaks a chain, so a
closed program is closed after any number of sweeps (`Program.isClosed_lift`).

What is visited may be a part of a spine, and the spine above it counts on its links; a visit therefore keeps a tree in the
sense of `Tree.Kept`, and not only closed.
-/

namespace Chainlift

open Tree

/-! ## Cleaning -/

theorem Tree.statementwise_isClosed : Statementwise IsClosed where
  node hf := isClosed_node (by
    rename_i f _
    cases f <;> first | rfl | exact absurd hf (by simp [Form.isStatements, holdsStatements]))
  absent := (isClosed_node rfl).2 (by simp)
  empty := (isClosed_node rfl).2 (by simp)

namespace Sweep

theorem kept_leave (s : Sweep) (f : Form) (ps : List Tree) : Kept (.node f ps) (s.leave f ps).1 := by
  unfold leave
  split
  · rename_i scope hscope
    have hnone : ∀ n, f.isSpinal n = false := by
      intro n
      cases f <;> first | rfl | exact absurd hscope (by simp [Scope.of?])
    refine .of_isSpinal (hnone _) (hnone _) fun hps => statementwise_isClosed.put hps ?_
    exact statementwise_isClosed.leaveScope (statementwise_isClosed.statements hscope hps) s
  · exact .refl _

/-! ## Rewrites -/

/-- A rewrite never meets an open chain: what is rewritten is no part of a spine. -/
theorem kept_tryRewrite {o : Options} {t u : Tree} {s s' : Sweep} (h : tryRewrite o t s = some (u, s')) : Kept t u := by
  obtain ⟨r, kind, hr, haccept⟩ := accept_of_tryRewrite h
  obtain ⟨rfl, -⟩ := rewrites_accept haccept
  refine .of_isClosed (fun inside ht => ?_) fun ht => ?_
  · have hb := isBranching_of_tryRewrite h
    refine isClosed_of_hasLink ht ?_
    unfold Tree.hasLink
    split <;> first | rfl | exact absurd hb (by simp [isBranching, form])
  · rcases hr with hr | ⟨-, hr⟩
    · exact isClosed_coalesce ht hr
    · exact isClosed_reconstruct ht hr

theorem preserves_kept (o : Options) : Preserves o Kept where
  refl := .refl
  trans := .trans
  node := .node
  rewrite := kept_tryRewrite
  leave := kept_leave

/-! ## Sweeps -/

variable {o : Options}

theorem isClosed_overStatements {ss : List Tree} (h : ∀ t ∈ ss, t.IsClosed) : ∀ t ∈ (overStatements o ss).1, t.IsClosed := by
  have hvisited := Kept.isClosed_all ((preserves_kept o).visitAll (sizeAll ss) ss (entered ss)) h
  exact statementwise_isClosed.leaveScope (show ∀ t ∈ Scope.statements ⟨none, _⟩, t.IsClosed from hvisited) _

theorem isClosed_passes {ss : List Tree} (h : ∀ t ∈ ss, t.IsClosed) (pass n : Nat) (stats : Stats) :
    ∀ t ∈ (passes o pass n ss stats).1, t.IsClosed := by
  induction n generalizing pass ss stats with
  | zero => exact h
  | succ n ih =>
    have hswept := isClosed_overStatements (o := o) h
    rw [passes]
    simp only
    split
    · exact hswept
    · exact ih hswept _ _

end Sweep

/-- Every statement of the program is closed. -/
def Program.IsClosed (p : Program) : Prop := ∀ t ∈ p.body, t.IsClosed

instance (p : Program) : Decidable p.IsClosed := inferInstanceAs (Decidable (∀ t ∈ p.body, t.IsClosed))

/-- Chains stay well formed. Rewriting, folding, the reconstruction of chains and that of `??` make closed expressions of closed
ones, and a closed program is closed after any number of sweeps. -/
theorem Program.isClosed_lift :
    (∀ (t token : Tree) (target : Option Tree), t.IsClosed → token.IsClosed → (∀ u ∈ target, u.IsClosed) →
      (t.rewrite token target).expr.IsClosed) ∧
    (∀ (t : Tree) (name : String), t.IsClosed → (t.fold name).IsClosed) ∧
    (∀ t : Tree, t.IsClosed → t.foldAssigned.1.IsClosed) ∧
    (∀ (t : Tree) (o : Options) (r : Replacement), t.IsClosed → t.reconstruct o = some r → r.expr.IsClosed) ∧
    (∀ (t : Tree) (r : Replacement), t.IsClosed → t.coalesce = some r → r.expr.IsClosed) ∧
    (∀ (p : Program) (o : Options), p.IsClosed →
      (∀ n : Nat, { p with body := (fun ss => (Sweep.overStatements o ss).1)^[n] p.body }.IsClosed) ∧
      ∀ stats : Stats, (p.lift o stats).1.IsClosed) := by
  refine ⟨fun t token target => isClosed_rewrite, fun t name => (Kept.fold name t).isClosed,
    fun t => (Kept.foldEach t _).isClosed, fun t o r => isClosed_reconstruct, fun t r => isClosed_coalesce,
    fun p o hp => ⟨fun n => ?_, fun stats => Sweep.isClosed_passes hp 1 (max o.maxPasses 1) _⟩⟩
  show ∀ t ∈ (fun ss => (Sweep.overStatements o ss).1)^[n] p.body, t.IsClosed
  induction n with
  | zero => exact hp
  | succ n ih =>
    rw [Function.iterate_succ_apply']
    exact Sweep.isClosed_overStatements ih

namespace Program.IsClosedLift

/-- `a?.b` -/
def linked : Tree := .chain (.member (.reference "a") "b" true)

/-- `t = a?.b` -/
def assigned : Tree := .assign .plain (.reference "t") linked

/-- `(t = a?.b) == null ? void 0 : t.c` -/
def guarded : Tree :=
  .conditional (.binary .eq assigned .null) (.unary .void (.number .zero)) (.member (.reference "t") "c" false)

/-- `null != (t = a?.b) ? t : x` -/
def expanded : Tree := .conditional (.binary .ne .null assigned) (.reference "t") (.reference "x")

/-- `(t = a?.b) == null ? void 0 : t.c;` -/
def program : Program := ⟨none, [], [.node .expressionStmt [guarded]]⟩

end Program.IsClosedLift

open Program.IsClosedLift in
theorem Program.isClosed_lift_merged :
    ((Tree.member (.reference "t") "c" false).rewrite (.reference "t") (some linked)).expr.IsClosed ∧
    (assigned.fold "t").IsClosed ∧ assigned.foldAssigned.1.IsClosed ∧
    (∃ r, guarded.reconstruct {} = some r ∧ r.expr.IsClosed) ∧ (∃ r, expanded.coalesce = some r ∧ r.expr.IsClosed) ∧
    { program with body := (fun ss => (Sweep.overStatements {} ss).1)^[2] program.body }.IsClosed ∧
    (program.lift {} {}).1.IsClosed := by
  obtain ⟨hrewrite, hfold, hassigned, hreconstruct, hcoalesce, hprogram⟩ := Program.isClosed_lift
  have hlinked : linked.IsClosed := by decide
  have hchain : guarded.reconstruct {} = some ⟨.chain (.member (.member (.reference "a") "b" true) "c" true), ["t"]⟩ := rfl
  have hnullish : expanded.coalesce = some ⟨.logical .coalesce linked (.reference "x"), ["t"]⟩ := rfl
  obtain ⟨hsweeps, hlift⟩ := hprogram program {} (by decide)
  exact ⟨hrewrite _ _ _ (by decide) (by decide) (by simpa using hlinked), hfold _ _ (by decide), hassigned _ (by decide),
    ⟨_, hchain, hreconstruct _ _ _ (by decide) hchain⟩, ⟨_, hnullish, hcoalesce _ _ (by decide) hnullish⟩, hsweeps 2, hlift {}⟩

end Chainlift
