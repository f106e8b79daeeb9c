import FlatBundle.Distinct
import FlatBundle.Record.Table

/-!
Modules that depend on themselves, over any number of steps. Each module starts a walk along all
chains of dependencies; a chain ends where it comes back to itself or reaches a module that an
earlier chain has come back to.
-/

namespace FlatBundle

structure Cycles where
  /-- The modules on the paths, in the order in which they were found to be there. -/
  members : List Nat := []
  /-- From a module back to itself. -/
  paths : List (List Nat) := []
  /-- The modules that paths start at. -/
  heads : List Nat := []
deriving DecidableEq, Repr

namespace Cycles

/-- Adds a loop that leads from its first module back to it. -/
def close (c : Cycles) (head : Nat) (loop : List Nat) : Cycles where
  members := firstOccurrences (c.members ++ loop)
  paths := c.paths ++ [loop ++ [head]]
  heads := head :: c.heads

/-- Follows the chain `chain` on to a module; `fresh` holds the modules that are not in the
chain. -/
def follow (deps : Nat → List Nat) (fresh chain : List Nat) (i : Nat) (c : Cycles) : Cycles :=
  if chain.contains i then c.close i (chain.dropWhile (· ≠ i))
  else if c.heads.contains i then c
  else if _h : i ∈ fresh then
    (deps i).foldl (fun c dep => follow deps (fresh.erase i) (chain ++ [i]) dep c) c
  else c
termination_by fresh.length
decreasing_by
  have := List.length_erase_of_mem _h
  have := List.length_pos_of_mem _h
  omega

/-- The cycles of a graph on the numbers below `size`. -/
def find (size : Nat) (deps : Nat → List Nat) : Cycles :=
  (List.range size).foldl (fun c i => follow deps (List.range size) [] i c) {}

end Cycles

def Table.cycles (t : Table) : Cycles :=
  Cycles.find t.size t.internalDeps

/-- What a cycle is reported as. -/
def Table.cycleWarning (t : Table) (path : List Nat) : String :=
  "Circular dependency: " ++ " -> ".intercalate (path.map fun i => (t.get i).id.text) ++ "."

end FlatBundle
