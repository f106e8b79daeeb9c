import FlatBundle.Text.Quoted

/-!
Module ids: their order, their text, and how generated code writes them.
-/

namespace FlatBundle

/-- The stable name of a module: a number or a text. -/
inductive ModuleId
  | number (n : Nat)
  | name (s : String)
deriving DecidableEq, Repr, Inhabited

namespace ModuleId

def text : ModuleId → String
  | number n => toString n
  | name s => s

/-- The id as a literal of generated code. -/
def literal : ModuleId → String
  | number n => toString n
  | name s => Text.quote s

/-- Numbers come before names; numbers by value and names by their characters. -/
def le : ModuleId → ModuleId → Bool
  | number m, number n => m ≤ n
  | number _, name _ => true
  | name _, number _ => false
  | name s, name t => s ≤ t

end ModuleId

end FlatBundle
