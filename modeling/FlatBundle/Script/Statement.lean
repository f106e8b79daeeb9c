import FlatBundle.Script.Expression

/-!
Statements, except those of modules.
-/

namespace FlatBundle.Script

open Reader

/-- A statement that is an expression, after its expression. -/
def expressionStatement (start : Nat) (e : Node) : Reader Node := do
  statementEnd
  node .expressionStatement start [e]

/-- An expression statement, or a labeled statement. -/
def expressionOrLabeled (r : Recur) (ctx : Ctx) : Reader Node := do
  let start ← start
  let e ← expression r ctx
  match e.kind with
  | .reference _ =>
    if ← eatMark .colon then
      let s ← r (.statement ctx true)
      node .labeled start [s]
    else expressionStatement start e
  | _ => expressionStatement start e

def isPattern (n : Node) : Bool :=
  n.kind == .arrayPattern || n.kind == .objectPattern

/-- A variable; outside of loop heads, patterns and constants need a value. -/
def declarator (r : Recur) (ctx : Ctx) (kind : VariableKind) (isConst inHead : Bool) :
    Reader Node := do
  let start ← start
  let target ← r (.bindingTarget ctx)
  if ← eatMark .assign then
    let value ← r (.assignment ctx)
    node (.declarator kind) start [target, value]
  else
    check (inHead || !(isConst || isPattern target))
    node (.declarator kind) start [target]

/-- Variables with commas between them. -/
def declarators (r : Recur) (ctx : Ctx) (kind : VariableKind) (isConst inHead : Bool) :
    Reader (List Node) :=
  loop (fun (items : List Node) => do
    let d ← declarator r ctx kind isConst inHead
    if ← eatMark .comma then return .again (d :: items)
    else return .done (d :: items).reverse) []

/-- Whether `using` starts a declaration: a name follows on the same line. -/
def usingFollows : Reader Bool :=
  ahead do
    if ← eatWord .awaitWord then check (!(← onNewLine))
    expectWord .usingWord
    return !(← onNewLine) && (← tokenKind).isName

/-- The word or words before variables. -/
def variableWord : Reader (VariableKind × Bool) := do
  match ← keyword? with
  | some .varWord =>
    take
    return (.var, false)
  | some .letWord =>
    take
    return (.lexical, false)
  | some .constWord =>
    take
    return (.lexical, true)
  | _ =>
    let _ ← eatWord .awaitWord
    expectWord .usingWord
    return (.lexical, true)

/-- A declaration of variables, which must not be all of the body of another statement unless it
is `var`. -/
def variableStatement (r : Recur) (ctx : Ctx) (alone : Bool) : Reader Node := do
  let start ← start
  let (kind, isConst) ← variableWord
  let items ← declarators r ctx kind isConst false
  statementEnd
  check (kind == .var || !alone)
  node (.variables kind) start items

/-- What the token after `let` makes of it. -/
inductive LetUse
  /-- A name inside an expression. -/
  | name
  /-- An expression statement of its own. -/
  | statement
  | declaration
deriving DecidableEq

def letUse (alone : Bool) : Reader LetUse := do
  let s ← get
  match s.next with
  | none => failure
  | some s =>
    match s.token.kind with
    | .mark (.operator _) | .mark .assign | .mark (.assignWith _) | .mark .dot
    | .mark .parenOpen => return .name
    | .word (some .inWord) _ _ | .word (some .instanceofWord) _ _ => return .name
    | .mark .semicolon => return .statement
    | .mark .bracketOpen => return .declaration
    | _ => return if alone then .statement else .declaration

def letStatement (r : Recur) (ctx : Ctx) (alone : Bool) : Reader Node := do
  let start ← start
  match ← letUse alone with
  | .name => expressionStatement start (← expression r ctx)
  | .statement => expressionStatement start (← reference ctx)
  | .declaration => variableStatement r ctx alone

def expressionInParens (r : Recur) (ctx : Ctx) : Reader Node := do
  expectMark .parenOpen
  let e ← expression r ctx
  expectMark .parenClose
  return e

/-- A statement that is all of the body of another one. -/
def soleStatement (r : Recur) (ctx : Ctx) : Reader Node :=
  r (.statement ctx true)

def ifStatement (r : Recur) (ctx : Ctx) : Reader Node := do
  let start ← start
  take
  let test ← expressionInParens r ctx
  let yes ← soleStatement r ctx
  if ← eatWord .elseWord then
    let no ← soleStatement r ctx
    node .ifStatement start [test, yes, no]
  else node .ifStatement start [test, yes]

def doWhile (r : Recur) (ctx : Ctx) : Reader Node := do
  let start ← start
  take
  let body ← soleStatement r ctx
  expectWord .whileWord
  let test ← expressionInParens r ctx
  let _ ← eatMark .semicolon
  node .doWhile start [body, test]

def whileStatement (r : Recur) (ctx : Ctx) : Reader Node := do
  let start ← start
  take
  let test ← expressionInParens r ctx
  let body ← soleStatement r ctx
  node .whileStatement start [test, body]

def withStatement (r : Recur) (ctx : Ctx) : Reader Node := do
  let start ← start
  take
  let object ← expressionInParens r ctx
  let body ← soleStatement r ctx
  node .withStatement start [object, body]

/-- The rest of a loop after the first semicolon's place, with its head. -/
def forRest (r : Recur) (ctx : Ctx) (start : Nat) (head : List Node) : Reader Node := do
  expectMark .semicolon
  let test ← if ← isMark .semicolon then pure [] else pure [← expression r ctx]
  expectMark .semicolon
  let step ← if ← isMark .parenClose then pure [] else pure [← expression r ctx]
  expectMark .parenClose
  let body ← soleStatement r ctx
  node .forStatement start (head ++ test ++ step ++ [body])

/-- The rest of a loop over the keys or values of an object, from `in` or `of` on. -/
def forEachRest (r : Recur) (ctx : Ctx) (start : Nat) (head : Node) : Reader Node := do
  let isIn ← isWord .inWord
  take
  let object ← if isIn then expression r ctx else r (.assignment ctx)
  expectMark .parenClose
  let body ← soleStatement r ctx
  node (if isIn then .forIn else .forOf) start [head, object, body]

def atForEach : Reader Bool :=
  return (← isWord .inWord) || (← isWord .ofWord)

/-- Whether a loop starts with a declaration. -/
def declarationInHead : Reader Bool := do
  match ← keyword? with
  | some .varWord => return true
  | some .constWord => return true
  | some .letWord =>
    ahead do
      take
      match ← tokenKind with
      | .mark .braceOpen => return true
      | .mark .bracketOpen => return true
      | .word k _ _ => return k != some .inWord
      | _ => return false
  | _ =>
    if ← usingFollows then
      ahead do
        let _ ← eatWord .awaitWord
        take
        if ← isWord .ofWord then
          advance
          isMark .assign
        else return true
    else return false

def needsValue (d : Node) : Bool :=
  match d.children with
  | [target] => isPattern target
  | _ => false

/-- A loop whose head declares variables. -/
def forDeclaration (r : Recur) (ctx : Ctx) (start : Nat) (isAsync : Bool) : Reader Node := do
  let headStart ← Reader.start
  let (kind, isConst) ← variableWord
  let items ← declarators r ctx.withoutIn kind isConst true
  let head ← node (.variables kind) headStart items
  if ← atForEach then forEachRest r ctx start head
  else
    check (!isAsync)
    check (items.all fun d => !needsValue d && !(isConst && d.children.length == 1))
    forRest r ctx start [head]

/-- A loop whose head is an expression or a target. -/
def forExpression (r : Recur) (ctx : Ctx) (start : Nat) (isAsync : Bool) : Reader Node := do
  let startsAsyncOf ← ahead do
    expectWord .asyncWord
    isWord .ofWord
  let startsLet ← isWord .letWord
  let head ← expression r ctx.withoutIn
  if ← atForEach then
    if ← isWord .ofWord then check (!startsLet && (isAsync || !startsAsyncOf))
    let head ← target head
    forEachRest r ctx start head
  else
    check (!isAsync)
    forRest r ctx start [head]

def forStatement (r : Recur) (ctx : Ctx) : Reader Node := do
  let start ← start
  take
  let isAsync ← eatWord .awaitWord
  check (!isAsync || ctx.inAsync)
  expectMark .parenOpen
  if ← isMark .semicolon then
    check (!isAsync)
    forRest r ctx start []
  else if ← declarationInHead then forDeclaration r ctx start isAsync
  else forExpression r ctx start isAsync

/-- `break` and `continue`, with a label perhaps. -/
def jump (ctx : Ctx) : Reader Node := do
  let start ← start
  take
  if !(← atStatementEnd) then
    let _ ← reference ctx
  statementEnd
  node .jump start []

def debuggerStatement : Reader Node := do
  let start ← start
  take
  statementEnd
  node .jump start []

def returnStatement (r : Recur) (ctx : Ctx) : Reader Node := do
  check ctx.mayReturn
  let start ← start
  take
  let value ← if ← atStatementEnd then pure [] else pure [← expression r ctx]
  statementEnd
  node .returnStatement start value

def throwStatement (r : Recur) (ctx : Ctx) : Reader Node := do
  let start ← start
  take
  check (!(← onNewLine))
  let value ← expression r ctx
  statementEnd
  node .throwStatement start [value]

/-- Whether the statements of a case end here. -/
def atCaseEnd : Reader Bool :=
  return (← isWord .caseWord) || (← isWord .defaultWord) || (← isMark .braceClose)

def switchCase (r : Recur) (ctx : Ctx) : Reader Node := do
  let start ← start
  let test ←
    if ← eatWord .caseWord then pure [← expression r ctx]
    else
      expectWord .defaultWord
      pure []
  expectMark .colon
  let body ← loop (fun (items : List Node) => do
    if ← atCaseEnd then return .done items.reverse
    return .again ((← r (.statement ctx false)) :: items)) []
  node .switchCase start (test ++ body)

def switchStatement (r : Recur) (ctx : Ctx) : Reader Node := do
  let start ← start
  take
  let value ← expressionInParens r ctx
  expectMark .braceOpen
  let cases ← loop (fun (items : List Node) => do
    if ← isMark .braceClose then return .done items.reverse
    return .again ((← switchCase r ctx) :: items)) []
  take
  node .switchStatement start (value :: cases)

def catchClause (r : Recur) (ctx : Ctx) : Reader Node := do
  let start ← start
  take
  let param ←
    if ← eatMark .parenOpen then
      let paramStart ← Reader.start
      let target ← r (.bindingTarget ctx)
      let param ← node .catchParameter paramStart [target]
      expectMark .parenClose
      pure [param]
    else pure []
  let body ← block r ctx
  node .catchClause start (param ++ [body])

def tryStatement (r : Recur) (ctx : Ctx) : Reader Node := do
  let start ← start
  take
  let body ← block r ctx
  let handler ← if ← isWord .catchWord then pure [← catchClause r ctx] else pure []
  let finalizer ← if ← eatWord .finallyWord then pure [← block r ctx] else pure []
  check (!handler.isEmpty || !finalizer.isEmpty)
  node .tryStatement start (body :: handler ++ finalizer)

/-- A function as a statement; as all of the body of another one, only a plain function. -/
def functionStatement (r : Recur) (ctx : Ctx) (alone : Bool) : Reader Node := do
  let f ← function r ctx .declaration true
  match f.kind with
  | .function _ isAsync isGenerator _ => check (!alone || (!isAsync && !isGenerator))
  | _ => failure
  return f

def classStatement (r : Recur) (ctx : Ctx) (alone : Bool) : Reader Node := do
  check (!alone)
  let start ← start
  classFrom r ctx start [] .declaration true

def emptyStatement : Reader Node := do
  let start ← start
  take
  node .emptyStatement start []

end FlatBundle.Script
