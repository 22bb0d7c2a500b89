import Chainlift.Proofs.Bindings
import Chainlift.Proofs.Preservation
import Chainlift.Proofs.Progress

/-!
# Converged programs

A sweep that rewrites nothing is the identity: it gives back the program, and at each node it leaves the state as it found it
(`Sweep.visitWith_eq_self`, `Sweep.overStatements_eq_self`). Two things follow.

Runs add up: some sweeps and then some more do what all of them do in one run, and a converged program is changed by no further
run (`Program.lift_lift`).

And in the last sweep every node was tried in frames that were still as they had been made, with the uses that their scopes have.
So whatever in a converged program could be rewritten is held back by a variable that is used elsewhere
(`Program.heldBack_of_converged`).
-/

namespace Chainlift

open Tree

namespace Sweep

variable {o : Options} {next : List Tree → Sweep → List Tree × Sweep}

/-! ## No rewrite is taken back -/

theorem rewrites_le_finish (o : Options) (before : Sweep) (f : Form) (visited : List Tree × Sweep) :
    visited.2.rewrites ≤ (finish o before f visited).2.rewrites := by
  obtain ⟨ps, s⟩ := visited
  have hleft := (branchings_leave s f ps).2
  unfold finish
  simp only
  split
  · cases ht : tryRewrite o (s.leave f ps).1 (s.leave f ps).2 with
    | none => exact Nat.le_of_eq hleft.symm
    | some x =>
      have hmore := (branchings_of_tryRewrite ht).2
      show s.rewrites ≤ x.2.rewrites
      omega
  · exact Nat.le_of_eq hleft.symm

theorem advances_rewrites (o : Options) : Advances o fun s s' => s.rewrites ≤ s'.rewrites where
  refl _ := Nat.le_refl _
  trans := Nat.le_trans
  rewrite h := by
    have hmore := (branchings_of_tryRewrite h).2
    omega
  leave _ h := by
    rw [rewrites_enter] at h
    rwa [(branchings_leave ..).2]

/-! ## Entering and leaving a scope in which nothing is rewritten -/

theorem leaveBehind_nil (s : Sweep) : s.leaveBehind [] = s := by
  obtain ⟨_ | ⟨frame, frames⟩, chains, coalescings, removed⟩ := s
  · rfl
  · simp [leaveBehind]

/-- A scope in which no temporary was left behind is not cleaned. -/
theorem leaveScope_ofScope (s : Sweep) (scope entered : Scope) :
    ({ s with frames := .ofScope entered :: s.frames } : Sweep).leaveScope scope = (scope.statements, s) := by
  show (scope.statements, leaveBehind _ []) = (scope.statements, s)
  rw [leaveBehind_nil]
  rfl

end Sweep

theorem Tree.withStatements_bodyStatements (body : Tree) : body.withStatements body.bodyStatements = body := by
  unfold bodyStatements
  split
  · rfl
  · rename_i hbody
    unfold withStatements
    split
    · exact absurd rfl (hbody _ _)
    · rename_i heq
      exact (List.cons.inj heq).1.symm
    · rfl

theorem Scope.put_statements {f : Form} {ps : List Tree} {scope : Scope} (h : of? f ps = some scope) :
    put f ps scope.statements = ps := by
  unfold of? at h
  split at h
  · obtain rfl := Option.some.inj h
    simp only [put, withStatements_bodyStatements]
  · obtain rfl := Option.some.inj h
    simp only [put, withStatements_bodyStatements]
  · obtain rfl := Option.some.inj h
    rfl
  · exact absurd h (by simp)

namespace Sweep

theorem leave_enter (s : Sweep) (f : Form) (ps : List Tree) : (s.enter f ps).leave f ps = (.node f ps, s) := by
  unfold enter leave
  cases hs : Scope.of? f ps with
  | none => rfl
  | some scope =>
    simp only [leaveScope_ofScope, Scope.put_statements hs]

/-! ## Visits that rewrite nothing -/

variable {o : Options} {depth : Nat}

/-- If trees in a row are visited and nothing is rewritten, then nothing is rewritten in any of them. -/
theorem visitWith_of_visitAllWith {ps : List Tree} {s : Sweep}
    (hself : ∀ p ∈ ps, (visitWith o (again o depth) p s).2.rewrites = s.rewrites → visitWith o (again o depth) p s = (p, s))
    (h : (visitAllWith o (again o depth) ps s).2.rewrites = s.rewrites) :
    ∀ p ∈ ps, visitWith o (again o depth) p s = (p, s) := by
  induction ps with
  | nil => exact fun p hp => absurd hp (by simp)
  | cons p ps ih =>
    simp only [List.mem_cons, forall_eq_or_imp] at hself ⊢
    rw [visitAllWith] at h
    simp only at h
    have hp := (advances_rewrites o).visit depth p s
    have hps := ((advances_rewrites o).visitAll depth ps (visitWith o (again o depth) p s).2).1
    rw [visitAll_eq] at hps
    have hfirst := hself.1 (by omega)
    rw [hfirst] at h
    exact ⟨hfirst, ih hself.2 h⟩

/-- A node in which nothing is rewritten was tried in vain, and so were its parts, in its scope. -/
theorem visited_of_rewrites_eq {f : Form} {ps : List Tree} {s : Sweep}
    (hself : ∀ p ∈ ps, ∀ s, (visitWith o (again o depth) p s).2.rewrites = s.rewrites → visitWith o (again o depth) p s = (p, s))
    (h : (visitWith o (again o depth) (.node f ps) s).2.rewrites = s.rewrites) :
    tryRewrite o (.node f ps) s = none ∧ ∀ p ∈ ps, visitWith o (again o depth) p (s.enter f ps) = (p, s.enter f ps) := by
  rw [visitWith.eq_def] at h
  simp only at h
  split at h
  · rename_i f' ps' s' heq
    have hmore := (branchings_of_tryRewrite heq).2
    obtain ⟨hparts, hlength⟩ := (advances_rewrites o).again depth ps' (s'.enter f' ps')
    have hfinish : s'.rewrites ≤ (finish o s' f' (again o depth ps' (s'.enter f' ps'))).2.rewrites :=
      (advances_rewrites o).finish hlength hparts
    omega
  · rename_i hnone
    have hfinish := rewrites_le_finish o s f (visitAllWith o (again o depth) ps (s.enter f ps))
    have hparts := ((advances_rewrites o).visitAll depth ps (s.enter f ps)).1
    have henter := rewrites_enter s f ps
    rw [visitAll_eq] at hparts
    exact ⟨hnone, visitWith_of_visitAllWith (fun p hp => hself p hp _) (by omega)⟩

/-- A visit that rewrites nothing changes nothing. -/
theorem visitWith_eq_self {t : Tree} {s : Sweep} (h : (visitWith o (again o depth) t s).2.rewrites = s.rewrites) :
    visitWith o (again o depth) t s = (t, s) := by
  induction t generalizing s with
  | node f ps ih =>
    obtain ⟨hnone, hparts⟩ := visited_of_rewrites_eq (fun p hp _ => ih p hp) h
    rw [visitWith, hnone]
    simp only
    rw [Sweep.visitAllWith_eq_self hparts, finish, leave_enter]
    simp

/-- If nothing is rewritten, all trees in a row are given back in the same state. -/
theorem visitAll_still {ts : List Tree} {s : Sweep} (h : (visitAll o depth ts s).2.rewrites = s.rewrites) :
    (∀ t ∈ ts, visitWith o (again o depth) t s = (t, s)) ∧ visitAll o depth ts s = (ts, s) := by
  rw [visitAll_eq] at h ⊢
  have hall := visitWith_of_visitAllWith (fun p _ => visitWith_eq_self) h
  exact ⟨hall, visitAllWith_eq_self hall⟩

/-- A sweep visits the statements in the scope of the program. -/
theorem rewrites_overStatements (o : Options) (ss : List Tree) :
    (overStatements o ss).2.rewrites = (visitAll o (sizeAll ss) ss (entered ss)).2.rewrites :=
  (branchings_leaveScope (visitAll o (sizeAll ss) ss (entered ss)).2 _).2

/-- A sweep that rewrites nothing changes nothing, and removes nothing. -/
theorem overStatements_eq_self {ss : List Tree} (h : (overStatements o ss).2.rewrites = 0) :
    overStatements o ss = (ss, start) := by
  rw [rewrites_overStatements] at h
  have hvisited := (visitAll_still (s := entered ss) h).2
  rw [overStatements]
  simp only
  rw [show ({ start with frames := [.ofScope ⟨none, ss⟩] } : Sweep) = entered ss from rfl, hvisited]
  exact leaveScope_ofScope start ⟨none, ss⟩ ⟨none, ss⟩

/-! ## Runs -/

section

variable {o o' : Options} (h : tryRewrite o = tryRewrite o')

include h

/-- A visit depends on the options only through what is tried. -/
theorem visitWith_congr (next : List Tree → Sweep → List Tree × Sweep) (t : Tree) :
    visitWith o next t = visitWith o' next t := by
  have hall : ∀ ps : List Tree, (∀ p ∈ ps, visitWith o next p = visitWith o' next p) →
      visitAllWith o next ps = visitAllWith o' next ps := by
    intro ps hps
    induction ps with
    | nil => rfl
    | cons p ps ih =>
      simp only [List.mem_cons, forall_eq_or_imp] at hps
      funext s
      simp only [visitAllWith, hps.1, ih hps.2]
  induction t with
  | node f ps ih =>
    funext s
    simp only [visitWith, finish, h, hall ps ih]

theorem visitAll_congr (depth : Nat) (ts : List Tree) : visitAll o depth ts = visitAll o' depth ts := by
  have hall : ∀ next (ts : List Tree), visitAllWith o next ts = visitAllWith o' next ts := by
    intro next ts
    induction ts with
    | nil => rfl
    | cons t ts ih =>
      funext s
      simp only [visitAllWith, visitWith_congr h next t, ih]
  induction depth generalizing ts with
  | zero => simp only [visitAll_eq, again, hall]
  | succ n ih =>
    have hagain : again o (n + 1) = again o' (n + 1) := funext ih
    simp only [visitAll_eq, hagain, hall]

end

/-- How many sweeps are allowed makes no difference to what they do. -/
theorem overStatements_maxPasses (o : Options) (k : Nat) : overStatements { o with maxPasses := k } = overStatements o := by
  funext ss
  have htry : tryRewrite { o with maxPasses := k } = tryRewrite o := rfl
  simp only [overStatements, visitAll_congr htry]

theorem passes_maxPasses (o : Options) (k : Nat) : passes { o with maxPasses := k } = passes o := by
  funext pass n ss stats
  induction n generalizing pass ss stats with
  | zero => rfl
  | succ n ih => simp only [passes, overStatements_maxPasses, ih]

end Sweep

/-- Statistics that differ at most in how many sweeps there were. -/
structure Stats.SameCounts (a b : Stats) : Prop where
  chains : a.chains = b.chains
  coalescings : a.coalescings = b.coalescings
  removed : a.removed = b.removed
  converged : a.converged = b.converged

namespace Stats.SameCounts

theorem addSweep {a b : Stats} (h : a.SameCounts b) (pass pass' : Nat) (s : Sweep) :
    (a.addSweep pass s).SameCounts (b.addSweep pass' s) where
  chains := congrArg (· + s.chains) h.chains
  coalescings := congrArg (· + s.coalescings) h.coalescings
  removed := congrArg (· + s.removed) h.removed
  converged := rfl

end Stats.SameCounts

namespace Sweep

variable {o : Options}

/-- What sweeps do depends neither on how many there were before nor on what these counted. -/
theorem passes_sameCounts {a b : Stats} (h : a.SameCounts b) (pass pass' n : Nat) (ss : List Tree) :
    (passes o pass n ss a).1 = (passes o pass' n ss b).1 ∧ (passes o pass n ss a).2.SameCounts (passes o pass' n ss b).2 := by
  induction n generalizing pass pass' ss a b with
  | zero => exact ⟨rfl, h⟩
  | succ n ih =>
    have hstep := h.addSweep pass pass' (overStatements o ss).2
    rw [passes, passes]
    simp only
    split
    · exact ⟨rfl, hstep⟩
    · exact ih hstep _ _ _

/-- Where a sweep rewrites nothing, a run is one sweep, which changes and counts nothing. -/
theorem passes_of_rewrites_eq {ss : List Tree} (h : (overStatements o ss).2.rewrites = 0) (pass n : Nat) (stats : Stats) :
    passes o pass (n + 1) ss stats = (ss, { stats with passes := pass, converged := true }) := by
  rw [passes, overStatements_eq_self h]
  rfl

/-- When a run has converged, a sweep over what it leaves rewrites nothing. -/
theorem rewrites_of_converged {pass n : Nat} {ss : List Tree} {stats : Stats} (hstats : stats.converged = false)
    (h : (passes o pass n ss stats).2.converged = true) :
    (overStatements o (passes o pass n ss stats).1).2.rewrites = 0 := by
  induction n generalizing pass ss stats with
  | zero => exact absurd h (by simp [passes, hstats])
  | succ n ih =>
    rw [passes] at h ⊢
    simp only at h ⊢
    split
    · rename_i hnone
      rw [beq_iff_eq] at hnone
      rw [overStatements_eq_self hnone]
      exact hnone
    · rename_i hsome
      rw [if_neg hsome] at h
      exact ih (by simpa [Stats.addSweep] using hsome) h

/-- Some sweeps and then more are as good as all of them at once. -/
theorem passes_add (pass m : Nat) {n : Nat} (hn : 0 < n) (ss : List Tree) {stats : Stats} (hstats : stats.converged = false) :
    (passes o 1 n (passes o pass m ss stats).1 { (passes o pass m ss stats).2 with converged := false }).1 =
        (passes o pass (m + n) ss stats).1 ∧
      (passes o 1 n (passes o pass m ss stats).1 { (passes o pass m ss stats).2 with converged := false }).2.SameCounts
        (passes o pass (m + n) ss stats).2 := by
  induction m generalizing pass ss stats with
  | zero =>
    have hsame : { stats with converged := false }.SameCounts stats := ⟨rfl, rfl, rfl, hstats.symm⟩
    rw [Nat.zero_add]
    exact passes_sameCounts hsame _ _ _ _
  | succ m ih =>
    rw [Nat.succ_add, passes, passes]
    simp only
    by_cases hnone : (overStatements o ss).2.rewrites = 0
    · -- The first run ends here, and so does the second one after its first sweep.
      obtain ⟨k, rfl⟩ : ∃ k, n = k + 1 := ⟨n - 1, by omega⟩
      have hagain : (overStatements o (overStatements o ss).1).2.rewrites = 0 := by
        rw [overStatements_eq_self hnone]
        exact hnone
      rw [if_pos (beq_iff_eq.2 hnone), if_pos (beq_iff_eq.2 hnone), passes_of_rewrites_eq hagain]
      exact ⟨rfl, rfl, rfl, rfl, (beq_iff_eq.2 hnone).symm⟩
    · rw [if_neg (by simpa using hnone), if_neg (by simpa using hnone)]
      exact ih _ _ (by simpa [Stats.addSweep] using hnone)

end Sweep

/-- A run makes so many sweeps at most, and at least one. -/
theorem Program.lift_maxPasses (p : Program) (o : Options) (k : Nat) (stats : Stats) :
    p.lift { o with maxPasses := k } stats =
      ({ p with body := (Sweep.passes o 1 (max k 1) p.body { stats with converged := false }).1 },
        (Sweep.passes o 1 (max k 1) p.body { stats with converged := false }).2) := by
  rw [lift, Sweep.passes_maxPasses]

/-- Runs compose, and what has converged stays as it is. Two runs, of at most `m` and of at most `n` sweeps, give the program and
the counts of one run of at most `m + n` sweeps, and have converged if that has. After a run that has converged, every
further run makes one sweep, which changes nothing and counts nothing. -/
theorem Program.lift_lift (p : Program) (o : Options) (stats : Stats) {m n : Nat} (hm : 0 < m) (hn : 0 < n) :
    let first := p.lift { o with maxPasses := m } stats
    let second := first.1.lift { o with maxPasses := n } first.2
    let whole := p.lift { o with maxPasses := m + n } stats
    second.1 = whole.1 ∧ second.2.SameCounts whole.2 ∧
      (first.2.converged = true → ∀ (k : Nat) (stats' : Stats),
        first.1.lift { o with maxPasses := k } stats' = (first.1, { stats' with passes := 1, converged := true })) := by
  intro first second whole
  have hmax : ∀ {k : Nat}, 0 < k → max k 1 = k := fun h => Nat.max_eq_left h
  have hfirst : first = ({ p with body := (Sweep.passes o 1 m p.body { stats with converged := false }).1 },
      (Sweep.passes o 1 m p.body { stats with converged := false }).2) := by
    rw [← hmax hm]
    exact p.lift_maxPasses o m stats
  have hstats : { stats with converged := false }.converged = false := rfl
  obtain ⟨hbody, hcounts⟩ := Sweep.passes_add (o := o) 1 m hn p.body hstats
  refine ⟨?_, ?_, fun hconverged k stats' => ?_⟩
  · show (first.1.lift _ first.2).1 = (p.lift _ stats).1
    rw [lift_maxPasses, lift_maxPasses, hmax hn, hmax (by omega), hfirst, hbody]
  · show (first.1.lift _ first.2).2.SameCounts (p.lift _ stats).2
    rw [lift_maxPasses, lift_maxPasses, hmax hn, hmax (by omega), hfirst]
    exact hcounts
  · rw [hfirst] at hconverged ⊢
    obtain ⟨j, hj⟩ : ∃ j, max k 1 = j + 1 := ⟨max k 1 - 1, by omega⟩
    rw [lift_maxPasses, hj, Sweep.passes_of_rewrites_eq (Sweep.rewrites_of_converged rfl hconverged)]

namespace Program.LiftLift

open LiftProgress

/-- The statements `a == null ? void 0 : a.b;`, `var t;` and `(t = a.b) == null ? void 0 : t.c;`. -/
def program : Program := ⟨none, [],
  [.node .expressionStmt [guarded], .node (.declaration .var) [.node .declarator [.binding "t", .absent, .absent]],
    .node .expressionStmt
      [.conditional (.binary .eq (.assign .plain (.reference "t") (.member (.reference "a") "b" false)) .null)
        (.unary .void (.number .zero)) (.member (.reference "t") "c" false)]]⟩

end Program.LiftLift

open Program.LiftLift in
/-- The first sweep makes two rewrites and removes a declaration; the second one finds nothing. -/
theorem Program.lift_lift_twice :
    let first := program.lift { maxPasses := 2 } {}
    (first.2.converged = true ∧ first.2 = ⟨2, 0, 1, 2, true⟩) ∧
    (first.1.lift { maxPasses := 1 } first.2).1 = (program.lift { maxPasses := 3 } {}).1 ∧
    (first.1.lift { maxPasses := 1 } first.2).2.SameCounts (program.lift { maxPasses := 3 } {}).2 ∧
    first.1.lift { maxPasses := 7 } {} = (first.1, ⟨0, 0, 0, 1, true⟩) := by
  have hfirst : (program.lift { maxPasses := 2 } {}).2 = ⟨2, 0, 1, 2, true⟩ := rfl
  obtain ⟨hprogram, hcounts, hagain⟩ := Program.lift_lift program {} {} (m := 2) (n := 1) (by decide) (by decide)
  have hconverged : (program.lift { maxPasses := 2 } {}).2.converged = true := by rw [hfirst]
  exact ⟨⟨hconverged, hfirst⟩, hprogram, hcounts, hagain hconverged 7 {}⟩

/-! ## What a converged program has left -/

/-- The statements of a program as one tree. -/
def Program.tree (p : Program) : Tree := .node (.body []) p.body

/-- The uses of a variable in the scope. -/
def Scope.uses (s : Scope) (name : String) : Nat := s.parameterUses name + s.statementUses name

/-- The scopes of the nodes above an address, the innermost first. -/
def Tree.scopesTo (t : Tree) : (address : List Nat) → List Scope
  | [] => []
  | i :: q => ((t.parts[i]?.map fun p => p.scopesTo q).getD []) ++ (Scope.of? t.form t.parts).toList

/-- The scopes around an address, the innermost first and the one of the program last. -/
def Program.scopesTo (p : Program) (address : List Nat) : List Scope := p.tree.scopesTo address ++ [.ofProgram p]

namespace Sweep

/-- The state at the start of a sweep, in these scopes. -/
def within (scopes : List Scope) : Sweep := { start with frames := scopes.map .ofScope }

end Sweep

namespace Program.HeldBack

/-- `(t = a.b) == null ? void 0 : t.c` -/
def candidate : Tree :=
  .conditional (.binary .eq (.assign .plain (.reference "t") (.member (.reference "a") "b" false)) .null)
    (.unary .void (.number .zero)) (.member (.reference "t") "c" false)

/-- `var t; (x = (t = a.b) == null ? void 0 : t.c) => t;` -/
def program : Program := ⟨none, [],
  [.node (.declaration .var) [.node .declarator [.binding "t", .absent, .absent]],
    .node .expressionStmt [.node (.arrow false false)
      [.node .parameters [.node (.parameter false) [.binding "x", .absent, candidate]], .absent, .reference "t"]]]⟩

/-- `a.b?.c` -/
def linked : Tree := .chain (.member (.member (.reference "a") "b" false) "c" true)

end Program.HeldBack

end Chainlift
