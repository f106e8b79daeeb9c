import FlatBundle.Script.Function

/-!
Classes and their elements.
-/

namespace FlatBundle.Script

open Reader

def decorators (r : Recur) (ctx : Ctx) : Reader (List Node) :=
  loop (fun (items : List Node) => do
    if ← eatMark .atSign then
      return .again ((← r (.leftHand { ctx with inDecorator := true })) :: items)
    else return .done items.reverse) []

/-- The key of an element. -/
def elementKey (r : Recur) (ctx : Ctx) : Reader (KeyName × List Node) := do
  match ← tokenKind with
  | .privateName name =>
    advance
    return (.hidden name, [])
  | _ => memberKey r ctx

/-- Names that a method must not have; only a plain one is a constructor. -/
def isForbiddenMethod (isStatic isPlain : Bool) : KeyName → Bool
  | .plain name => if isStatic then name == "prototype" else name == "constructor" && !isPlain
  | .hidden name => name == "constructor"
  | .computed => false

/-- Names that a property must not have. -/
def isForbiddenProperty (isStatic : Bool) : KeyName → Bool
  | .plain name => name == "constructor" || (isStatic && name == "prototype")
  | .hidden name => name == "constructor"
  | .computed => false

/-- The word before the key that makes a method an accessor. -/
def accessorKind : Reader Accessor := do
  let starFollows ← ahead do
    advance
    isMark (.operator .times)
  if starFollows then return .none
  else if ← eatModifier .getWord false then return .getter
  else if ← eatModifier .setWord false then return .setter
  else return .none

def propertyValue (r : Recur) : Reader (List Node) := do
  let value ← if ← eatMark .assign then pure [← r (.assignment {})] else pure []
  statementEnd
  return value

def method (r : Recur) (start : Nat) (head : List Node) (isStatic isAsync isGenerator : Bool)
    (accessor : Accessor) : Reader Node := do
  let f ← methodFunction r accessor isAsync isGenerator
  node (.method isStatic) start (head ++ [f])

def property (r : Recur) (start : Nat) (head : List Node) (isStatic : Bool) : Reader Node := do
  let value ← propertyValue r
  node (.property isStatic !value.isEmpty) start (head ++ value)

/-- A method or a property, after its decorators. -/
def namedElement (r : Recur) (ctx : Ctx) (start : Nat) (decorators : List Node) : Reader Node := do
  let isStatic ← eatModifier .staticWord false
  let isAccessor ← eatModifier .accessorWord true
  let isAsync ← if isAccessor then pure false else eatModifier .asyncWord true
  let isGenerator ← if isAccessor then pure false else eatMark (.operator .times)
  let accessor ← if isAccessor || isAsync || isGenerator then pure .none else accessorKind
  let (name, key) ← elementKey r ctx
  let head := decorators ++ key
  let isPlain := !isAsync && !isGenerator && accessor == .none
  if !isAccessor && (← isMark .parenOpen) then
    check (!isForbiddenMethod isStatic isPlain name)
    method r start head isStatic isAsync isGenerator accessor
  else
    check (isPlain && !isForbiddenProperty isStatic name)
    property r start head isStatic

def staticBlock (r : Recur) (start : Nat) : Reader Node := do
  take
  let body ← blockStatements r { inAsync := true, mayReturn := false }
  node .staticBlock start body

def classElement (r : Recur) (ctx : Ctx) : Reader Node := do
  let start ← start
  let decorators ← decorators r ctx
  let blockFollows ← ahead do
    expectWord .staticWord
    isMark .braceOpen
  if decorators.isEmpty && blockFollows then staticBlock r start
  else namedElement r ctx start decorators

def classElements (r : Recur) (ctx : Ctx) : Reader (List Node) := do
  expectMark .braceOpen
  let items ← loop (fun (items : List Node) => do
    if ← isMark .braceClose then return .done items.reverse
    if ← eatMark .semicolon then return .again items
    return .again ((← classElement r ctx) :: items)) []
  take
  return items

def nodeName : Node → Option String
  | .mk (.binding name) _ _ => some name
  | _ => none

/-- A class after its decorators. -/
def classFrom (r : Recur) (ctx : Ctx) (start : Nat) (decorators : List Node) (role : Role)
    (nameRequired : Bool) : Reader Node := do
  expectWord .classWord
  let name ←
    if (← tokenKind).isName then pure [← bindingName ctx]
    else
      check (!nameRequired)
      pure []
  let parent ←
    if ← eatWord .extendsWord then pure [← r (.leftHand ctx)]
    else pure []
  let elements ← classElements r ctx.withIn
  node (.classDef role (name.head?.bind nodeName)) start (decorators ++ name ++ parent ++ elements)

end FlatBundle.Script
