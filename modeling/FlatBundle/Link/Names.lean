import FlatBundle.Link.Facts

/-!
Which top-level names have to change for modules to share one scope.
-/

namespace FlatBundle

/-- Takes names in order; those that are taken already have to change. Gives the names taken in the
end and the bindings that change. -/
def claimNames (taken : List String) : List (String × Nat) → List String × List Nat
  | [] => (taken, [])
  | (name, binding) :: rest =>
    if taken.contains name then
      let (taken, renamed) := claimNames taken rest
      (taken, binding :: renamed)
    else claimNames (name :: taken) rest

/-- The bindings to change in each of some modules, which take their names in order. -/
def claimAll (taken : List String) : List (Nat × ScopeTree) → List (Nat × List Nat)
  | [] => []
  | (i, scopes) :: rest =>
    let (taken, renamed) := claimNames taken scopes.programBindings
    (i, renamed) :: claimAll taken rest

/-- The names that modules use without declaring them. They are taken from the start, so that a
module does not hide a global that only a later one uses. -/
def globalNames (modules : List ModuleFacts) : List String :=
  modules.flatMap (·.scopes.undeclaredNames)

end FlatBundle
