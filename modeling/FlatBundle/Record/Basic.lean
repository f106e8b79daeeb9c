import FlatBundle.Record.Id

/-!
The records that a build starts from.
-/

namespace FlatBundle

/-- A wish for a place in the order of modules, as the bits of a double. -/
structure Rank where
  bits : UInt64
deriving DecidableEq, Repr

/-- Doubles in their total order, as integers: negative ones by falling magnitude, so that `-0.0`
comes right before `0.0`. -/
def Rank.key (r : Rank) : Int :=
  let n := r.bits.toNat
  if n < 0x8000000000000000 then n else (0x8000000000000000 : Int) - n - 1

/-- One module as the walk over a program's dependencies found it. -/
structure Record where
  id : ModuleId
  file : Option String := none
  source : String
  /-- What each specifier leads to, in the order the record lists them; `none` where the walk
  resolved nothing. Each specifier occurs once. -/
  deps : List (String × Option ModuleId) := []
  entry : Bool := false
  expose : Option String := none
  order : Option Rank := none
  /-- The file's name in source maps. -/
  sourceFile : Option String := none
  noMap : Bool := false
deriving Repr, Inhabited

/-- The id, with the file where there is one. -/
def Record.label (r : Record) : String :=
  match r.file with
  | some file => r.id.text ++ " (" ++ file ++ ")"
  | none => r.id.text

end FlatBundle
