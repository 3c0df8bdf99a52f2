/-!
# Sets of code points

Classes of characters as tables of runs: in turn, how many code points are passed before the next
run, and how many are in it.
-/

namespace ModuleBridge

/-- The first and last code points of the runs of a table, when `start` is the next code point. -/
def rangesFrom (start : Nat) : List Nat → List (Nat × Nat)
  | passed :: length :: runs =>
    let first := start + passed
    (first, first + length - 1) :: rangesFrom (first + length) runs
  | _ => []

def rangesOf (runs : List Nat) : List (Nat × Nat) :=
  rangesFrom 0 runs

def isInRanges (ranges : List (Nat × Nat)) (c : Char) : Bool :=
  ranges.any fun (low, high) => low ≤ c.toNat && c.toNat ≤ high

/-- The ranges of several classes, each with its class. -/
def classRanges {α : Type} (classes : List (α × List Nat)) : List (Nat × Nat × α) :=
  classes.flatMap fun (value, runs) => (rangesOf runs).map fun (low, high) => (low, high, value)

end ModuleBridge
