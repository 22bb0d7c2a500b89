import Chainlift.Tree.Names

/-!
# Tallies

A tally holds how often each variable is used. It is counted once; afterwards the uses that a rewrite takes away are
subtracted.
-/

namespace Chainlift

/-- Counts by name; each name stands in it once. -/
structure Tally where
  counts : List (String × Nat)
  deriving DecidableEq, Repr

namespace Tally

/-- The counts of the names in a list. -/
def ofNames (names : List String) : Tally := ⟨names.eraseDups.map fun n => (n, names.count n)⟩

/-- The uses of variables in some trees. -/
def ofTrees (ts : List Tree) : Tally := ofNames (Tree.referencesAll ts)

def get (t : Tally) (name : String) : Nat := (t.counts.lookup name).getD 0

/-- Take uses of a variable away; never more than there are. -/
def subtract (t : Tally) (name : String) (n : Nat) : Tally :=
  ⟨t.counts.map fun (name', count) => (name', if name' == name then count - n else count)⟩

/-- Take uses of several variables away. -/
def subtractAll (t : Tally) (removed : List (String × Nat)) : Tally :=
  removed.foldl (fun t (name, n) => t.subtract name n) t

/-- The counts in the order of the names. -/
def sorted (t : Tally) : List (String × Nat) := t.counts.mergeSort fun a b => !(b.1 < a.1)

end Tally

/-- Each name once, in the order of code points. -/
def sortedNames (names : List String) : List String := names.eraseDups.mergeSort fun a b => !(b < a)

end Chainlift
