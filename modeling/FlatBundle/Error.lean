import FlatBundle.Record.Id
import FlatBundle.Edit.Basic

/-!
Why a bundle cannot be built.
-/

namespace FlatBundle

/-- A failure and the contexts it happened in, outermost first, as one line. -/
def chainText (chain : List String) : String :=
  ": ".intercalate chain

inductive BuildError
  | duplicateId (id : ModuleId)
  /-- A module with a label stands for a copy of one that is missing. -/
  | danglingDuplicate (label : String) (target : String)
  | unparsable (label : String)
  | badEdit (label : String) (error : EditError)
deriving DecidableEq, Repr

namespace BuildError

/-- The contexts and the cause, outermost first. -/
def chain : BuildError → List String
  | duplicateId id => ["Duplicate module id " ++ id.text]
  | danglingDuplicate label target =>
    ["Module " ++ label ++ " is a duplicate of module " ++ target ++
      ", which is not part of the bundle"]
  | unparsable label => ["module " ++ label]
  | badEdit label error => ["module " ++ label, error.message]

def message (e : BuildError) : String :=
  chainText e.chain

end BuildError

/-- One line for each failure of a build. -/
def reportText (chains : List (List String)) : String :=
  "\n".intercalate (chains.map chainText)

end FlatBundle
