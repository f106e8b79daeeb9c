import FlatBundle.Scope.Tree
import FlatBundle.Script.Program
import FlatBundle.SourceMap.Comment

/-!
What a bundle needs to know of one module: its scopes, the calls that load other modules, and its
source map comment. Names are declared on a first way through the script and looked up on a second
one, so that declarations count before their place too.
-/

namespace FlatBundle

open Script (Span)

/-- The declarations met so far, and the open scopes from the inside out. -/
structure Declaring where
  tree : ScopeTree
  stack : List Nat

def Declaring.current (d : Declaring) : Nat :=
  d.stack.headD ScopeTree.wrapperScope

/-- Declares what a visit declares. -/
def Declaring.step (d : Declaring) : Visit → Declaring
  | .enter kind => ⟨d.tree.addScope d.current kind, d.tree.scopes.size :: d.stack⟩
  | .leave => { d with stack := d.stack.tail }
  | .declare place name span shorthand =>
    let scope :=
      match place with
      | .variable => d.tree.varScope d.current
      | .here => d.current
    { d with tree := d.tree.declare scope name span d.current shorthand }
  | .refer _ _ _ _ | .call _ => d

def declareAll (vs : List Visit) : ScopeTree :=
  (vs.foldl Declaring.step ⟨ScopeTree.initial, [ScopeTree.wrapperScope]⟩).tree

/-- A variable that gets its whole value from a call. -/
structure RequireDeclarator where
  binding : Nat
  declaration : Span
  declarators : List Span
  position : Nat
deriving DecidableEq, Repr

def RequireDeclarator.span (d : RequireDeclarator) : Span :=
  d.declarators.getD d.position default

/-- A call that loads another module. -/
structure RequireCall where
  span : Span
  specifier : String
  unpredictable : Bool
  declarator : Option RequireDeclarator
deriving DecidableEq, Repr

/-- The names looked up so far, the open scopes from the inside out, and the scope that opens
next. -/
structure Resolving where
  tree : ScopeTree
  stack : List Nat
  next : Nat
  calls : List RequireCall

namespace Resolving

def current (r : Resolving) : Nat :=
  r.stack.headD ScopeTree.wrapperScope

def refer (r : Resolving) (name : String) (span : Span) (shorthand : Bool) (usage : Usage) :
    Resolving :=
  let (tree, binding) :=
    match r.tree.findBinding r.current name with
    | some binding => (r.tree, binding)
    | none => r.tree.undeclaredBinding name
  { r with
    tree := tree.addReference { span, scope := r.current, binding, declares := false, shorthand, usage } }

def declarator? (r : Resolving) (site : DeclaratorSite) : Option RequireDeclarator :=
  (r.tree.findBinding r.current site.name).map fun binding =>
    ⟨binding, site.declaration, site.declarators, site.position⟩

/-- Only calls of the wrapper's own `require` count. -/
def call (r : Resolving) (site : CallSite) : Resolving :=
  if r.tree.findBinding r.current "require" = some ScopeTree.requireBinding then
    { r with
      calls := r.calls ++
        [⟨site.span, site.specifier, site.unpredictable, site.declarator.bind r.declarator?⟩] }
  else r

def step (r : Resolving) : Visit → Resolving
  | .enter _ => { r with stack := r.next :: r.stack, next := r.next + 1 }
  | .leave => { r with stack := r.stack.tail }
  | .declare _ _ _ _ => r
  | .refer name span shorthand usage => r.refer name span shorthand usage
  | .call site => r.call site

end Resolving

def resolveAll (tree : ScopeTree) (vs : List Visit) : Resolving :=
  vs.foldl Resolving.step ⟨tree, [ScopeTree.wrapperScope], ScopeTree.programScope, []⟩

structure Analysis where
  scopes : ScopeTree
  /-- In source order. -/
  calls : List RequireCall
  /-- The last comment that names a source map and starts its line. -/
  mapComment : Option Span
deriving Repr, Inhabited

def isLineEnd (c : Char) : Bool :=
  c == '\n' || c == '\r'

/-- Whether a comment names a source map, with nothing but white space before it on its line. -/
def isMapComment (source : List Char) (span : Span) : Bool :=
  match splitAtByte source span.start with
  | none => false
  | some (before, after) =>
    let line := before.reverse.takeWhile (!isLineEnd ·)
    (SourceMap.commentStart.isPrefixOf after || SourceMap.olderCommentStart.isPrefixOf after) &&
      line.all isBlank

def Script.Program.mapComment (p : Script.Program) (source : List Char) : Option Span :=
  p.lineComments.reverse.find? (isMapComment source)

/-- The facts about a script. -/
def Analysis.ofProgram (p : Script.Program) (source : String) : Analysis :=
  let tree := declareAll (visitsBy declaredOnEntering [] p.tree)
  let r := resolveAll tree (visitsBy usedOnEntering [] p.tree)
  ⟨r.tree, r.calls, p.mapComment source.toList⟩

/-- The facts about a module; `none` if its source is no script. -/
def Analysis.ofSource? (source : String) : Option Analysis :=
  (Script.Program.parse? source).map (Analysis.ofProgram · source)

end FlatBundle
