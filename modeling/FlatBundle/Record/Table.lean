import FlatBundle.Record.Basic
import FlatBundle.Error

/-!
The closed set of modules of one build: ids are distinct, and modules whose body was replaced by a
reference to an identical one have it back.
-/

namespace FlatBundle

/-- Where a specifier of a module leads. -/
inductive Target
  | internal (index : Nat)
  /-- Not part of the bundle. -/
  | external (id : ModuleId)
deriving DecidableEq, Repr

/-- What a body is that only refers to an identical module: `arguments[4][<digits>]`. -/
def duplicateMarker : List Char :=
  "arguments[4][".toList

/-- The digits of the id a marker refers to. -/
def duplicateOf? (source : String) : Option String :=
  let s := source.toList
  if duplicateMarker.isPrefixOf s then
    let rest := s.drop duplicateMarker.length
    let digits := rest.takeWhile Char.isDigit
    match digits, rest.drop digits.length with
    | _ :: _, ']' :: _ => some (String.ofList digits)
    | _, _ => none
  else none

/-- Splits records into those with a new id and the ids that repeat an earlier one. -/
def separateRepeats (seen : List ModuleId) : List Record → List Record × List ModuleId
  | [] => ([], [])
  | r :: rest =>
    if seen.contains r.id then
      let (kept, repeats) := separateRepeats seen rest
      (kept, r.id :: repeats)
    else
      let (kept, repeats) := separateRepeats (r.id :: seen) rest
      (r :: kept, repeats)

/-- A record with its body put back from the record that its marker names. -/
def restoreSource (all : List Record) (r : Record) : Except BuildError Record :=
  match duplicateOf? r.source with
  | none => .ok r
  | some target =>
    match all.find? (·.id.text == target) with
    | some twin => .ok { r with source := twin.source }
    | none => .error (.danglingDuplicate r.label target)

/-- The successes and the failures of a list of results, each in order. -/
def partitionResults {ε α : Type} : List (Except ε α) → List ε × List α
  | [] => ([], [])
  | .ok a :: rest => let (es, as) := partitionResults rest; (es, a :: as)
  | .error e :: rest => let (es, as) := partitionResults rest; (e :: es, as)

structure Table where
  modules : List Record
deriving Repr, Inhabited

namespace Table

/-- Fails with every repeated id, then every marker that names no module. -/
def ofRecords (records : List Record) : Except (List BuildError) Table :=
  let (kept, repeats) := separateRepeats [] records
  let (dangling, restored) := partitionResults (kept.map (restoreSource kept))
  match repeats.map BuildError.duplicateId ++ dangling with
  | [] => .ok ⟨restored⟩
  | errors => .error errors

def size (t : Table) : Nat :=
  t.modules.length

/-- The module at an index; the indices in use are below `size`. -/
def get (t : Table) (i : Nat) : Record :=
  t.modules.getD i default

def indexOf? (t : Table) (id : ModuleId) : Option Nat :=
  t.modules.findIdx? (·.id == id)

/-- Specifiers that the walk resolved to nothing, or to nothing in the bundle, are external. -/
def resolve (t : Table) (importer : Nat) (specifier : String) : Target :=
  match (t.get importer).deps.lookup specifier with
  | some (some id) =>
    match t.indexOf? id with
    | some i => .internal i
    | none => .external id
  | _ => .external (.name specifier)

/-- The modules of the bundle that a module depends on, in the order its record lists them. -/
def internalDeps (t : Table) (importer : Nat) : List Nat :=
  (t.get importer).deps.filterMap fun (_, id?) => id?.bind t.indexOf?

end Table

end FlatBundle
