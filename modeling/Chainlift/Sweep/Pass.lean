import Chainlift.Stats
import Chainlift.Sweep.State

/-!
# Sweeps over a program

Each expression is tried before its parts and, if something in its parts was rewritten, once more after them. The parts of a
rewritten expression are visited in its place. How often that can happen one below the other is bounded by a depth: a rewrite
takes a conditional, `&&` or `||` away, so the size of the program is depth enough.

Sweeps are repeated until one rewrites nothing, or as often as the options allow.
-/

namespace Chainlift

namespace Sweep

/-- Leave a node whose parts have been visited, and try it again if something was rewritten in them. -/
def finish (o : Options) (before : Sweep) (f : Form) (visited : List Tree × Sweep) : Tree × Sweep :=
  let (t, s) := visited.2.leave f visited.1
  if before.rewrites < s.rewrites then (tryRewrite o t s).getD (t, s) else (t, s)

mutual

/-- Visit a tree; `again` visits the parts of an expression that was rewritten. -/
def visitWith (o : Options) (again : List Tree → Sweep → List Tree × Sweep) : Tree → Sweep → Tree × Sweep
  | .node f ps, s =>
    match tryRewrite o (.node f ps) s with
    | some (.node f' ps', s') => finish o s' f' (again ps' (s'.enter f' ps'))
    | none => finish o s f (visitAllWith o again ps (s.enter f ps))

def visitAllWith (o : Options) (again : List Tree → Sweep → List Tree × Sweep) : List Tree → Sweep → List Tree × Sweep
  | [], s => ([], s)
  | t :: ts, s =>
    let (t, s) := visitWith o again t s
    let (ts, s) := visitAllWith o again ts s
    (t :: ts, s)

end

/-- Visit trees in which at most `depth` rewrites stand one below the other. -/
def visitAll (o : Options) : (depth : Nat) → List Tree → Sweep → List Tree × Sweep
  | 0, ts, s => visitAllWith o (fun ts s => (ts, s)) ts s
  | n + 1, ts, s => visitAllWith o (fun ts s => visitAll o n ts s) ts s

/-- Sweep over the statements of a program once. -/
def overStatements (o : Options) (ss : List Tree) : List Tree × Sweep :=
  let scope : Scope := ⟨none, ss⟩
  let entered : Sweep := { start with frames := [.ofScope scope] }
  let (ss, s) := visitAll o (Tree.sizeAll ss) ss entered
  s.leaveScope ⟨none, ss⟩

end Sweep

/-- The statistics after one more sweep. -/
def Stats.addSweep (stats : Stats) (pass : Nat) (s : Sweep) : Stats :=
  { chains := stats.chains + s.chains
    coalescings := stats.coalescings + s.coalescings
    removed := stats.removed + s.removed
    passes := pass
    converged := s.rewrites == 0 }

/-- Sweep over statements until nothing is rewritten, at most so many times. -/
def Sweep.passes (o : Options) (pass : Nat) : (remaining : Nat) → List Tree → Stats → List Tree × Stats
  | 0, ss, stats => (ss, stats)
  | n + 1, ss, stats =>
    let (ss, s) := Sweep.overStatements o ss
    let stats := stats.addSweep pass s
    if s.rewrites == 0 then (ss, stats) else Sweep.passes o (pass + 1) n ss stats

/-- Lift the guards of a program into links and `??`. The statistics go on counting from those given. -/
def Program.lift (p : Program) (o : Options) (stats : Stats) : Program × Stats :=
  let (body, stats) := Sweep.passes o 1 (max o.maxPasses 1) p.body { stats with converged := false }
  ({ p with body }, stats)

end Chainlift
