import FlatBundle.Script.Binding

/-!
Bodies of statements, and functions.
-/

namespace FlatBundle.Script

open Reader

/-- A statement that is only a string, which is not in parentheses. -/
def isDirective : Node → Bool
  | .mk .expressionStatement span [.mk (.string _) inner _] => span.start = inner.start
  | _ => false

/-- Statements up to a token that ends the list, of which the first ones may be directives. -/
def statements (r : Recur) (ctx : Ctx) (ends : Reader Bool) : Reader (List Node) :=
  loop (fun ((items, atHead) : List Node × Bool) => do
    if ← ends then return .done items.reverse
    let s ← r (.statement ctx false)
    if atHead && isDirective s then return .again (.mk .directive s.span [] :: items, true)
    else return .again (s :: items, false)) ([], true)

/-- Statements in braces that are no body: strings among them are no directives. -/
def blockStatements (r : Recur) (ctx : Ctx) : Reader (List Node) := do
  expectMark .braceOpen
  let items ← loop (fun (items : List Node) => do
    if ← isMark .braceClose then return .done items.reverse
    return .again ((← r (.statement ctx false)) :: items)) []
  take
  return items

def block (r : Recur) (ctx : Ctx) : Reader Node := do
  let start ← start
  let items ← blockStatements r ctx
  node .block start items

def bodyInBraces (r : Recur) (ctx : Ctx) : Reader Node := do
  let start ← start
  expectMark .braceOpen
  let items ← statements r ctx (isMark .braceClose)
  take
  node .body start items

/-- Parameters and body of a function. -/
def functionRest (r : Recur) (isAsync isGenerator : Bool) : Reader (List Node) := do
  let ctx : Ctx := { inGenerator := isGenerator, inAsync := isAsync }
  let params ← parameters r ctx
  let body ← bodyInBraces r ctx
  return [params, body]

/-- A function from its word on, with a name if it has one. -/
def functionFrom (r : Recur) (ctx : Ctx) (start : Nat) (role : Role) (isAsync : Bool)
    (nameRequired : Bool) : Reader Node := do
  expectWord .functionWord
  let isGenerator ← eatMark (.operator .times)
  let nameCtx : Ctx :=
    match role with
    | .declaration => ctx
    | .expression => { ctx with inGenerator := isGenerator, inAsync := isAsync }
  let name ←
    if (← tokenKind).isName then pure [← bindingName nameCtx]
    else
      check (!nameRequired)
      pure []
  let rest ← functionRest r isAsync isGenerator
  node (.function role isAsync isGenerator (!name.isEmpty)) start (name ++ rest)

/-- Whether a function starts here, plain or after `async` on the same line. -/
def atFunction : Reader Bool := do
  if ← isWord .functionWord then return true
  ahead do
    expectWord .asyncWord
    return (← isWord .functionWord) && !(← onNewLine)

def function (r : Recur) (ctx : Ctx) (role : Role) (nameRequired : Bool) : Reader Node := do
  let start ← start
  let isAsync ← eatWord .asyncWord
  functionFrom r ctx start role isAsync nameRequired

/-- Which parameters a member of this kind takes. -/
inductive Accessor
  | none | getter | setter
deriving DecidableEq

/-- A getter takes no parameter, a setter one that is not a rest. -/
def Accessor.fits (a : Accessor) (params : Node) : Bool :=
  match a with
  | .none => true
  | .getter => params.children.isEmpty
  | .setter =>
    match params.children with
    | [p] => p.kind != .patternRest
    | _ => false

/-- The function of a method, from its parameters on. -/
def methodFunction (r : Recur) (a : Accessor) (isAsync isGenerator : Bool) : Reader Node := do
  let start ← start
  let parts ← functionRest r isAsync isGenerator
  check (parts.head?.any a.fits)
  node (.function .expression isAsync isGenerator false) start parts

end FlatBundle.Script
