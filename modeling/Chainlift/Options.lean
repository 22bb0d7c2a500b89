/-!
# Options

What the rewriting accepts, and how often it is repeated.
-/

namespace Chainlift

structure Options where
  /-- How many sweeps over a document there are at most. -/
  maxPasses : Nat := 5
  /-- A guarded branch may also yield `null`, or the falsy operand of `&&`. -/
  looseLeaves : Bool := true
  /-- With loose leaves, it may also yield `false` or `!1`, though a chain never does. -/
  falseLeaves : Bool := false
  /-- Restore `??` too. -/
  coalescing : Bool := true
  deriving DecidableEq, Repr

/-- The options that a user chooses by leaving the defaults. -/
def Options.chosen (maxPasses : Option Nat) (strictLeaves falseLeaves noNullish : Bool) : Options :=
  { maxPasses := maxPasses.getD 5
    looseLeaves := !strictLeaves
    falseLeaves
    coalescing := !noNullish }

end Chainlift
