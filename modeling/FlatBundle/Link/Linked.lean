import FlatBundle.Link.Names
import FlatBundle.Link.OnDemand
import FlatBundle.Link.Order

/-!
Linking: what the modules of a build decide together.
-/

namespace FlatBundle

/-- All modules of a bundle and how they go together. -/
structure Linked where
  /-- By index. -/
  modules : List ModuleFacts
  /-- The modules that run when they are first needed and not in place. -/
  onDemand : List Nat
  /-- The modules as the bundle lists them: those on demand first, so that they can be called from
  everywhere, and each part in the order of running. -/
  order : List Nat
  /-- For each module, the top-level bindings whose names another module has taken. -/
  renamed : List (Nat × List Nat)
  warnings : List String
deriving Repr

namespace Linked

def facts (l : Linked) (i : Nat) : ModuleFacts :=
  l.modules.getD i default

def isOnDemand (l : Linked) (i : Nat) : Bool :=
  l.onDemand.contains i

def renamedBindings (l : Linked) (i : Nat) : List Nat :=
  (l.renamed.lookup i).getD []

/-- Links the modules of a table, given the facts about them. -/
def ofModules (t : Table) (modules : List ModuleFacts) : Linked :=
  let cycles := t.cycles
  let onDemand := onDemandModules cycles.members modules
  let factsOf := fun i => modules.getD i default
  let sorted := t.sorted fun i => (factsOf i).firstCallEnd
  let (front, rest) := sorted.partition onDemand.contains
  { modules, onDemand
    order := front ++ rest
    renamed := claimAll (globalNames modules) (sorted.map fun i => (i, (factsOf i).scopes))
    warnings := cycles.paths.map t.cycleWarning }

end Linked

end FlatBundle
