import FlatBundle.Record.Table
import FlatBundle.Scope.Analysis
import FlatBundle.Text.Identifier
import FlatBundle.Text.Path

/-!
What each module of a build is to the others: the variable that will hold its exports, and the
modules it calls for.
-/

namespace FlatBundle

/-- Where a module uses what it receives from the function it runs in. -/
structure WrapperUse where
  /-- `module` in `module.exports`. -/
  moduleExports : List Reference
  exports : List Reference
  /-- `module` everywhere else. -/
  module : List Reference
  require : List Reference
deriving Repr, Inhabited

namespace WrapperUse

def ofScopes (t : ScopeTree) : WrapperUse :=
  let (moduleExports, module) :=
    (t.referencesOf ScopeTree.moduleBinding).partition (·.property? == some "exports")
  { moduleExports, module
    exports := t.referencesOf ScopeTree.exportsBinding
    require := t.referencesOf ScopeTree.requireBinding }

def hasExports (u : WrapperUse) : Bool :=
  !u.moduleExports.isEmpty || !u.exports.isEmpty

/-- The statement `module.exports = ..`, with its `module`, if a module exports by it alone. -/
def soleExport? (u : WrapperUse) : Option (Reference × MemberAssignment) :=
  match u.moduleExports, u.exports, u.module with
  | [r], [], [] =>
    match r.member?.bind (·.assignment) with
    | some assignment => if assignment.isStatement then some (r, assignment) else none
    | none => none
  | _, _, _ => none

end WrapperUse

/-- A variable for the exports of a module with a name and an id. -/
def exportsIdentifier (name : String) (id : ModuleId) : String :=
  match Text.toIdentifier ("_$" ++ name ++ "_" ++ id.text) with
  | some identifier => identifier
  | none => (Text.toIdentifier ("_$module_" ++ id.text)).getD "_$module"

/-- A call for a module and where it leads. -/
structure Requirement where
  call : RequireCall
  target : Target
deriving DecidableEq, Repr

structure ModuleFacts where
  record : Record
  scopes : ScopeTree
  mapComment : Option Script.Span
  uses : WrapperUse
  /-- The variable that holds the exports in the bundle. -/
  exportsName : String
  /-- Whether the variable can be declared in place of the only export. -/
  isSimpleExport : Bool
  /-- In source order. -/
  requirements : List Requirement
deriving Repr, Inhabited

namespace ModuleFacts

/-- The facts about the module at an index of a table. -/
def ofAnalysis (t : Table) (i : Nat) (a : Analysis) : ModuleFacts :=
  let record := t.get i
  let uses := WrapperUse.ofScopes a.scopes
  let sole := uses.soleExport?
  let name := (sole.bind (·.2.valueName)).getD (Path.moduleName (record.file.getD ""))
  { record, uses
    scopes := a.scopes
    mapComment := a.mapComment
    exportsName := exportsIdentifier name record.id
    isSimpleExport := sole.any fun (r, _) => a.scopes.varScope r.scope == ScopeTree.programScope
    requirements := a.calls.map fun call => ⟨call, t.resolve i call.specifier⟩ }

/-- The end of the first call that leads to a module of the bundle. -/
def firstCallEnd (m : ModuleFacts) (target : Nat) : Option Nat :=
  (m.requirements.find? (·.target == .internal target)).map (·.call.span.stop)

/-- Whether anything but `module.exports` is done with `module`, so that the object must be there. -/
def needsModuleObject (m : ModuleFacts) : Bool :=
  !m.uses.module.isEmpty

end ModuleFacts

/-- The facts about all modules of a table, in its order. Fails with each module that is no
script. -/
def scanModules (t : Table) : Except (List BuildError) (List ModuleFacts) :=
  let scanned := t.modules.zipIdx.map fun (record, i) =>
    match Analysis.ofSource? record.source with
    | some analysis => .ok (ModuleFacts.ofAnalysis t i analysis)
    | none => .error (BuildError.unparsable record.label)
  match partitionResults scanned with
  | ([], facts) => .ok facts
  | (errors, _) => .error errors

end FlatBundle
