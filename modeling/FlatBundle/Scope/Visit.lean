import FlatBundle.Script.Tree

/-!
What happens to scopes on the way through a script: the scopes that open and close, the names that
are declared and looked up, and the calls that load other modules, in source order. Each fact about
a node is read off its path, which lists the nodes around it from the inside out.
-/

namespace FlatBundle

open Script (Span Node Kind)

inductive ScopeKind
  /-- The function that every module runs in. -/
  | wrapper
  | program
  | function
  | staticBlock
  | classBody
  | catch
  | block
deriving DecidableEq, Repr, Inhabited

/-- `var` and functions are declared in the nearest scope of these kinds. -/
def ScopeKind.holdsVars : ScopeKind → Bool
  | .wrapper | .program | .function | .staticBlock => true
  | .classBody | .catch | .block => false

/-- A node on the way to another one, and which of its children leads there. -/
structure Frame where
  node : Node
  child : Nat
deriving Repr

abbrev Path := List Frame

/-- An access that is the target of `=`. -/
structure MemberAssignment where
  isStatement : Bool
  /-- The name of the assigned value, if it is a name or a function or class with a name. -/
  valueName : Option String
deriving DecidableEq, Repr

/-- `name.property` or `name["property"]`. -/
structure MemberAccess where
  span : Span
  /-- Missing where the key is not written as a string. -/
  property : Option String
  assignment : Option MemberAssignment
deriving DecidableEq, Repr

/-- How a name is used, as far as it matters to module idioms. -/
inductive Usage
  | plain
  /-- `typeof name`, with the span of the whole. -/
  | typeof (span : Span)
  | member (access : MemberAccess)
deriving DecidableEq, Repr

/-- Where a name is declared: in the nearest scope that holds variables, or in the scope at
hand. -/
inductive DeclarationPlace
  | variable
  | here
deriving DecidableEq, Repr

/-- A variable that a call gives its whole value. -/
structure DeclaratorSite where
  name : String
  declaration : Span
  /-- All declarators of the declaration. -/
  declarators : List Span
  /-- The place of this one among them. -/
  position : Nat
deriving DecidableEq, Repr

/-- A call of something named `require` with a fixed specifier. -/
structure CallSite where
  span : Span
  specifier : String
  /-- Whether the call may run late, several times, or not at all. -/
  unpredictable : Bool
  declarator : Option DeclaratorSite
deriving DecidableEq, Repr

inductive Visit
  | enter (kind : ScopeKind)
  | leave
  | declare (place : DeclarationPlace) (name : String) (span : Span) (shorthand : Bool)
  | refer (name : String) (span : Span) (shorthand : Bool) (usage : Usage)
  | call (site : CallSite)
deriving DecidableEq, Repr

/-- The scope that a node opens. -/
def scopeKind? : Kind → Option ScopeKind
  | .program => some .program
  | .function _ _ _ _ | .arrow _ => some .function
  | .classDef _ _ => some .classBody
  | .staticBlock => some .staticBlock
  | .catchClause => some .catch
  | .block | .forStatement | .forIn | .forOf | .switchStatement => some .block
  | _ => none

/-- Where a name in a pattern is declared. -/
def declarationPlace : Path → DeclarationPlace
  | [] => .here
  | f :: outer =>
    match f.node.kind with
    | .declarator .var => .variable
    | .declarator .lexical | .parameters | .catchParameter => .here
    | _ => declarationPlace outer

/-- Whether a declared name is also the key it stands for. -/
def isShorthandBinding : Path → Bool
  | ⟨.mk (.patternMember shorthand) _ _, _⟩ :: _ => shorthand
  | ⟨.mk .patternDefault _ _, _⟩ :: ⟨.mk (.patternMember shorthand) _ _, _⟩ :: _ => shorthand
  | _ => false

/-- Whether a name that is looked up is also the key it stands for, or the default of one. -/
def isShorthandReference : Path → Bool
  | ⟨.mk (.member shorthand) _ _, _⟩ :: _ => shorthand
  | ⟨.mk .targetShorthand _ _, _⟩ :: _ => true
  | _ => false

/-- The name of an assigned value. -/
def valueName : Node → Option String
  | .mk (.reference name) _ _ => some name
  | .mk (.function .expression _ _ true) _ (.mk (.binding name) _ _ :: _) => some name
  | .mk (.classDef .expression name) _ _ => name
  | _ => none

def isStatementPath : Path → Bool
  | ⟨.mk .expressionStatement _ _, _⟩ :: _ => true
  | _ => false

/-- The assignment to the access that a path leads to. -/
def memberAssignment? : Path → Option MemberAssignment
  | ⟨.mk (.assignment true) _ [_, value], 0⟩ :: outer =>
    some ⟨isStatementPath outer, valueName value⟩
  | _ => none

def usage : Path → Usage
  | ⟨.mk .typeof span _, _⟩ :: _ => .typeof span
  | ⟨.mk (.field property) span _, 0⟩ :: outer =>
    .member ⟨span, some property, memberAssignment? outer⟩
  | ⟨.mk .index span [_, .mk (.string property) _ _], 0⟩ :: outer =>
    .member ⟨span, some property, memberAssignment? outer⟩
  | ⟨.mk .index span _, 0⟩ :: outer => .member ⟨span, none, memberAssignment? outer⟩
  | _ => .plain

/-- Whether a path leads from a call to what it calls, which stands at a span. -/
def isCallee (span : Span) : Path → Bool
  | ⟨.mk .call _ (callee :: _), _⟩ :: _ => callee.span == span
  | _ => false

/-- Whether the function at a span runs where it stands: `f()`, `f.call()` or `f.apply()`. -/
def isInvokedInPlace (span : Span) : Path → Bool
  | ⟨.mk (.field property) whole (object :: _), _⟩ :: outer =>
    object.span == span && (property == "call" || property == "apply") && isCallee whole outer
  | path => isCallee span path

/-- Whether what stands at a span, which a path leads to, may run late, several times, or not at all.
Functions that run where they stand do not count, nor does the test of an `if`. -/
def isUnpredictable (span : Span) : Path → Bool
  | [] => false
  | f :: outer =>
    (match f.node with
      | .mk (.function _ _ _ _) whole _ => !isInvokedInPlace whole outer
      | .mk (.arrow _) whole _ => !isInvokedInPlace whole outer
      | .mk .ifStatement _ (test :: _) => test.span != span
      | .mk .whileStatement _ _ | .mk .doWhile _ _ => true
      | .mk .forStatement _ _ | .mk .forIn _ _ | .mk .forOf _ _ => true
      | _ => false) || isUnpredictable f.node.span outer

def isLoopHead : Path → Bool
  | ⟨.mk .forStatement _ _, _⟩ :: _ => true
  | ⟨.mk .forIn _ _, _⟩ :: _ => true
  | ⟨.mk .forOf _ _, _⟩ :: _ => true
  | _ => false

/-- The variable that gets its whole value from what a path leads to, outside of loop heads. -/
def declaratorSite? : Path → Option DeclaratorSite
  | ⟨.mk (.declarator _) _ (.mk (.binding name) _ _ :: _), 1⟩ ::
      ⟨.mk (.variables _) declaration declarators, position⟩ :: outer =>
    if isLoopHead outer then none
    else some ⟨name, declaration, declarators.map Node.span, position⟩
  | _ => none

/-- A text known without running anything. -/
def staticText? : Node → Option String
  | .mk (.string value) _ _ => some value
  | .mk (.template [piece]) _ _ => piece
  | _ => none

/-- The call that loads a module, if a node is one in form. -/
def callSite? (path : Path) : Node → Option CallSite
  | .mk .call span (.mk (.reference "require") _ _ :: arg :: _) =>
    (staticText? arg).map fun specifier =>
      ⟨span, specifier, isUnpredictable span path, declaratorSite? path⟩
  | _ => none

/-- The name of a function or class, which it declares itself. -/
def ownName? : Node → Option (String × Span)
  | .mk _ _ children =>
    children.findSome? fun
      | .mk (.binding name) span _ => some (name, span)
      | _ => none

/-- A declaration puts its name into the scope around it, an expression into its own. -/
def ownNameVisits (place : DeclarationPlace) (n : Node) : List Visit :=
  match ownName? n with
  | some (name, span) => [.declare place name span false]
  | none => []

/-- Whether a path leads to the own name of a function or class. -/
def isOwnName : Path → Bool
  | ⟨.mk (.function _ _ _ _) _ _, _⟩ :: _ => true
  | ⟨.mk (.classDef _ _) _ _, _⟩ :: _ => true
  | _ => false

/-- What the way that declares names does on entering a node. Functions and classes with a name open their scope
before they declare it or after that. -/
def declaredOnEntering (path : Path) (n : Node) : List Visit :=
  match n.kind with
  | .function .declaration _ _ _ => ownNameVisits .variable n ++ [.enter .function]
  | .function .expression _ _ _ => .enter .function :: ownNameVisits .here n
  | .classDef .declaration _ => ownNameVisits .here n ++ [.enter .classBody]
  | .classDef .expression _ => .enter .classBody :: ownNameVisits .here n
  | .binding name =>
    if isOwnName path then []
    else [.declare (declarationPlace path) name n.span (isShorthandBinding path)]
  | kind => (scopeKind? kind).toList.map .enter

/-- What the way that looks names up does on entering a node. -/
def usedOnEntering (path : Path) (n : Node) : List Visit :=
  (callSite? path n).toList.map .call ++ (scopeKind? n.kind).toList.map .enter ++
    match n.kind with
    | .reference name => [.refer name n.span (isShorthandReference path) (usage path)]
    | _ => []

/-- What happens on leaving a node. -/
def leaving (n : Node) : List Visit :=
  (scopeKind? n.kind).toList.map fun _ => .leave

section Ways

variable (onEntering : Path → Node → List Visit)

mutual

/-- What happens on a way through a node, by what it does on entering one. -/
def visitsBy (path : Path) : Node → List Visit
  | .mk kind span children =>
    let n := Node.mk kind span children
    onEntering path n ++ childVisitsBy path n 0 children ++ leaving n

def childVisitsBy (path : Path) (parent : Node) (position : Nat) : List Node → List Visit
  | [] => []
  | n :: rest =>
    visitsBy (⟨parent, position⟩ :: path) n ++ childVisitsBy path parent (position + 1) rest

end

end Ways

end FlatBundle
