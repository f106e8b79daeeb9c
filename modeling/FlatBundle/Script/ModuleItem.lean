import FlatBundle.Script.Statement

/-!
Imports and exports.
-/

namespace FlatBundle.Script

open Reader

/-- Adds an exported name, which must be new. -/
def exportName (name : String) : Reader Unit := do
  let s ← get
  check (!s.exported.contains name)
  set { s with exported := name :: s.exported }

/-- The name of a module's export: a word or a string. -/
def moduleName : Reader String := do
  match ← tokenKind with
  | .text value =>
    take
    return value
  | _ => wordText

def stringToken : Reader Unit := do
  match ← tokenKind with
  | .text _ => take
  | _ => failure

/-- What is known of a module beside its place, such as its type. -/
def attributes : Reader Unit := do
  if ← eatWord .withWord then
    expectMark .braceOpen
    let _ ← commaList .braceClose do
      let start ← start
      let _ ← moduleName
      expectMark .colon
      stringToken
      node .literal start []
    take

/-- The place of a module, with the end of the statement. -/
def fromModule : Reader Unit := do
  stringToken
  attributes
  statementEnd

/-- `name`, or `name as binding`. -/
def importSpecifier : Reader Node := do
  let renamed ← ahead do
    let _ ← moduleName
    expectWord .asWord
    return (← tokenKind).isName
  if renamed then
    let _ ← moduleName
    take
  bindingName {}

def importNames : Reader (List Node) := do
  if ← eatMark (.operator .times) then
    expectWord .asWord
    return [← bindingName {}]
  else
    expectMark .braceOpen
    let items ← commaList .braceClose importSpecifier
    take
    return items

/-- The bindings of an import up to `from`. -/
def importClause : Reader (List Node) := do
  if (← tokenKind).isName then
    let name ← bindingName {}
    if ← eatMark .comma then return name :: (← importNames)
    else return [name]
  else importNames

/-- Whether `defer` or `source` says how to import, rather than being a name itself. -/
def importPhaseFollows : Reader Bool :=
  ahead do
    if ← isWord .deferWord then
      take
      isMark (.operator .times)
    else
      expectWord .sourceWord
      check (← tokenKind).isName
      let isFrom ← isWord .fromWord
      advance
      return !isFrom || (← isWord .fromWord)

def importDeclaration : Reader Node := do
  let start ← start
  take
  match ← tokenKind with
  | .text _ =>
    fromModule
    node .importDeclaration start []
  | _ =>
    if ← importPhaseFollows then take
    let names ← importClause
    expectWord .fromWord
    fromModule
    node .importDeclaration start names

/-- The names that some nodes declare, without those inside functions. -/
def declaredNames : Nat → List Node → List String
  | 0, _ => []
  | _, [] => []
  | fuel + 1, .mk kind _ children :: rest =>
    (match kind with
      | .binding name => [name]
      | .variables _ => declaredNames fuel children
      | .declarator _ => declaredNames fuel (children.take 1)
      | .function _ _ _ _ => declaredNames fuel (children.take 1)
      | .classDef _ name => name.toList
      | .arrayPattern | .objectPattern | .patternRest => declaredNames fuel children
      | .patternMember _ => declaredNames fuel (children.drop (children.length - 1))
      | .patternDefault => declaredNames fuel (children.take 1)
      | _ => []) ++ declaredNames fuel rest

/-- A name in an export list: the reference, unless another module holds it, and whether it may
be a reference. -/
def exportSpecifier : Reader (Node × Bool × String) := do
  let t ← token
  let name ← moduleName
  let exported ← if ← eatWord .asWord then moduleName else pure name
  return (.mk (.reference name) t.span [], t.kind.isName, exported)

def exportSpecifiers : Reader (List (Node × Bool × String)) :=
  loop (fun (items : List (Node × Bool × String)) => do
    if ← eatMark .braceClose then return .done items.reverse
    let item ← exportSpecifier
    if !(← isMark .braceClose) then expectMark .comma
    return .again (item :: items)) []

def exportList (start : Nat) : Reader Node := do
  take
  let items ← exportSpecifiers
  items.forM fun (_, _, exported) => exportName exported
  if ← eatWord .fromWord then
    fromModule
    node .exportDeclaration start []
  else
    check (items.all fun (_, isReference, _) => isReference)
    statementEnd
    node .exportDeclaration start (items.map (·.1))

def exportAll (start : Nat) : Reader Node := do
  take
  if ← eatWord .asWord then exportName (← moduleName)
  expectWord .fromWord
  fromModule
  node .exportDeclaration start []

/-- A class that is exported. Its decorators stand before `export` or after it, not both. -/
def exportedClass (r : Recur) (ctx : Ctx) (decorated : List Node) (nameRequired : Bool) :
    Reader Node := do
  let start ← start
  let more ← decorators r ctx
  check (decorated.isEmpty || more.isEmpty)
  classFrom r ctx start (decorated ++ more) .declaration nameRequired

def exportDefault (r : Recur) (ctx : Ctx) (start : Nat) : Reader Node := do
  take
  exportName "default"
  if ← atFunction then
    let f ← function r ctx .declaration false
    node .exportDeclaration start [f]
  else if (← isWord .classWord) || (← isMark .atSign) then
    let c ← exportedClass r ctx [] false
    node .exportDeclaration start [c]
  else
    let e ← r (.assignment ctx)
    statementEnd
    node .exportDeclaration start [e]

def exportDeclaration (r : Recur) (ctx : Ctx) : Reader Node := do
  let start ← start
  take
  match ← tokenKind with
  | .mark .braceOpen => exportList start
  | .mark (.operator .times) => exportAll start
  | .word (some .defaultWord) _ _ => exportDefault r ctx start
  | _ =>
    let item ←
      if ← atFunction then function r ctx .declaration true
      else if (← isWord .classWord) || (← isMark .atSign) then exportedClass r ctx [] true
      else variableStatement r ctx false
    (declaredNames (item.span.stop + 1) [item]).forM exportName
    node .exportDeclaration start [item]

/-- An exported class, after its decorators. -/
def decoratedExport (r : Recur) (ctx : Ctx) (decorated : List Node) : Reader Node := do
  let start ← start
  take
  let isDefault ← eatWord .defaultWord
  let c ← exportedClass r ctx decorated (!isDefault)
  let name := if isDefault then some "default" else c.children.findSome? nodeName
  name.toList.forM exportName
  node .exportDeclaration start [c]

/-- A class with decorators before it, perhaps exported. -/
def decoratedClass (r : Recur) (ctx : Ctx) (alone : Bool) : Reader Node := do
  check (!alone)
  let start ← start
  let decorated ← decorators r ctx
  if ← isWord .exportWord then decoratedExport r ctx decorated
  else classFrom r ctx start decorated .declaration true

/-- Whether `import` starts a declaration rather than an expression. -/
def importFollows : Reader Bool :=
  ahead do
    expectWord .importWord
    return !(← isMark .dot) && !(← isMark .parenOpen)

end FlatBundle.Script
