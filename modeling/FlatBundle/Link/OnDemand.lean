import FlatBundle.Link.Cycles
import FlatBundle.Link.Facts

/-!
Modules that cannot run in place, since they may be needed late, never, or before they are done.
-/

namespace FlatBundle

/-- The modules that calls need unpredictably before any of them needs them predictably; `settled`
holds those that earlier calls needed predictably. -/
def unpredictableTargets (settled : List Nat) : List Requirement → List Nat
  | [] => []
  | ⟨call, .internal i⟩ :: rest =>
    if !call.unpredictable then unpredictableTargets (i :: settled) rest
    else if settled.contains i then unpredictableTargets settled rest
    else i :: unpredictableTargets settled rest
  | ⟨_, .external _⟩ :: rest => unpredictableTargets settled rest

/-- The modules that run on demand, given those on cycles. -/
def onDemandModules (cyclic : List Nat) (modules : List ModuleFacts) : List Nat :=
  firstOccurrences (cyclic ++ modules.flatMap fun m => unpredictableTargets [] m.requirements)

end FlatBundle
