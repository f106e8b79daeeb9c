/-!
Lists without repetitions.
-/

namespace FlatBundle

/-- The distinct elements of a list, each where it occurs first. -/
def firstOccurrences {α : Type} [BEq α] (xs : List α) : List α :=
  xs.foldl (fun seen x => if seen.contains x then seen else seen ++ [x]) []

end FlatBundle
