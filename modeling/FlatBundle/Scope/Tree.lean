import FlatBundle.Scope.Visit

/-!
The scopes of a module, the names they bind, and all places where the names occur.
-/

namespace FlatBundle

open Script (Span)

structure Scope where
  parent : Option Nat
  kind : ScopeKind
  /-- Names and their bindings, in the order of declaration. -/
  bindings : List (String × Nat) := []
  /-- Names that no scope declares, in the order of first use; on the wrapper only. -/
  undeclared : List (String × Nat) := []
deriving DecidableEq, Repr, Inhabited

structure Binding where
  name : String
  scope : Nat
  /-- The first declaring occurrence. -/
  definition : Option Nat := none
  /-- All occurrences, declaring ones first. -/
  references : List Nat := []
deriving DecidableEq, Repr, Inhabited

/-- A place where a name occurs. -/
structure Reference where
  span : Span
  /-- The scope it stands in. -/
  scope : Nat
  binding : Nat
  declares : Bool
  /-- Whether its text is also a key, which renaming must keep. -/
  shorthand : Bool
  usage : Usage
deriving DecidableEq, Repr

instance : Inhabited Reference := ⟨⟨default, 0, 0, false, false, .plain⟩⟩

def Reference.member? (r : Reference) : Option MemberAccess :=
  match r.usage with
  | .member access => some access
  | _ => none

/-- The fixed key that a name is accessed with. -/
def Reference.property? (r : Reference) : Option String :=
  r.member?.bind (·.property)

structure ScopeTree where
  scopes : Array Scope
  bindings : Array Binding
  references : Array Reference
deriving Repr, Inhabited

namespace ScopeTree

def wrapperScope : Nat := 0

def programScope : Nat := 1

/-- The binding of `require` on the wrapper. -/
def requireBinding : Nat := 0

def moduleBinding : Nat := 1

def exportsBinding : Nat := 2

/-- What every module receives from the function it runs in. -/
def wrapperNames : List String :=
  ["require", "module", "exports"]

/-- The wrapper alone. -/
def initial : ScopeTree where
  scopes := #[{ parent := none, kind := .wrapper, bindings := wrapperNames.zipIdx }]
  bindings := (wrapperNames.map fun name => { name, scope := wrapperScope }).toArray
  references := #[]

def scope (t : ScopeTree) (id : Nat) : Scope :=
  t.scopes.getD id default

def binding (t : ScopeTree) (id : Nat) : Binding :=
  t.bindings.getD id default

def reference (t : ScopeTree) (id : Nat) : Reference :=
  t.references.getD id default

def addScope (t : ScopeTree) (parent : Nat) (kind : ScopeKind) : ScopeTree :=
  { t with scopes := t.scopes.push { parent := some parent, kind } }

def modifyScope (t : ScopeTree) (id : Nat) (f : Scope → Scope) : ScopeTree :=
  { t with scopes := t.scopes.modify id f }

def addReference (t : ScopeTree) (r : Reference) : ScopeTree :=
  { t with
    references := t.references.push r
    bindings := t.bindings.modify r.binding fun b =>
      { b with references := b.references ++ [t.references.size] } }

/-- Declares a name in a scope; a second declaration adds an occurrence to the first one's
binding. -/
def declare (t : ScopeTree) (scope : Nat) (name : String) (span : Span) (at_ : Nat)
    (shorthand : Bool) : ScopeTree :=
  let occurrence := fun (binding : Nat) =>
    { span, scope := at_, binding, declares := true, shorthand, usage := .plain : Reference }
  match (t.scope scope).bindings.lookup name with
  | some binding => t.addReference (occurrence binding)
  | none =>
    let binding := t.bindings.size
    let t :=
      { t with
        bindings := t.bindings.push { name, scope, definition := some t.references.size } }
    let t := t.modifyScope scope fun s => { s with bindings := s.bindings ++ [(name, binding)] }
    t.addReference (occurrence binding)

/-- The binding of a name that no scope declares, made on first use. -/
def undeclaredBinding (t : ScopeTree) (name : String) : ScopeTree × Nat :=
  match (t.scope wrapperScope).undeclared.lookup name with
  | some binding => (t, binding)
  | none =>
    let binding := t.bindings.size
    let t := { t with bindings := t.bindings.push { name, scope := wrapperScope } }
    (t.modifyScope wrapperScope fun s => { s with undeclared := s.undeclared ++ [(name, binding)] },
      binding)

def chainFor (t : ScopeTree) : Nat → Nat → List Nat
  | 0, _ => []
  | fuel + 1, id =>
    id :: (match (t.scope id).parent with
      | some parent => t.chainFor fuel parent
      | none => [])

/-- A scope and the scopes around it; a parent comes before its children, so the chain ends. -/
def chain (t : ScopeTree) (id : Nat) : List Nat :=
  t.chainFor (id + 1) id

/-- What a name means in a scope. -/
def findBinding (t : ScopeTree) (scope : Nat) (name : String) : Option Nat :=
  (t.chain scope).findSome? fun id => (t.scope id).bindings.lookup name

/-- The nearest scope that holds variables. -/
def varScope (t : ScopeTree) (scope : Nat) : Nat :=
  ((t.chain scope).find? fun id => (t.scope id).kind.holdsVars).getD wrapperScope

def undeclaredNames (t : ScopeTree) : List String :=
  (t.scope wrapperScope).undeclared.map (·.1)

/-- The top-level names of the module, in the order of declaration. -/
def programBindings (t : ScopeTree) : List (String × Nat) :=
  (t.scope programScope).bindings

def referencesOf (t : ScopeTree) (binding : Nat) : List Reference :=
  (t.binding binding).references.map t.reference

end ScopeTree

end FlatBundle
