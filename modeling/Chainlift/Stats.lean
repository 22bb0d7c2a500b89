/-!
# Statistics

What the rewriting of one or several documents has done.
-/

namespace Chainlift

structure Stats where
  chains : Nat := 0
  coalescings : Nat := 0
  removed : Nat := 0
  /-- How many sweeps there were; of several documents, the most. -/
  passes : Nat := 0
  /-- The last sweep found nothing left to rewrite. -/
  converged : Bool := false
  deriving DecidableEq, Repr

namespace Stats

/-- Chains and `??` together. -/
def rewrites (s : Stats) : Nat := s.chains + s.coalescings

/-- The statistics of two documents together. -/
def merge (s t : Stats) : Stats :=
  { chains := s.chains + t.chains
    coalescings := s.coalescings + t.coalescings
    removed := s.removed + t.removed
    passes := max s.passes t.passes
    converged := s.converged && t.converged }

/-- The statistics of a run over documents, before the first one. -/
def start : Stats := { converged := true }

end Stats

end Chainlift
