import FlatBundle.Script.Class
import FlatBundle.Script.Target

/-!
Expressions, from operands up to comma lists.
-/

namespace FlatBundle.Script

open Reader

/-- Expressions with commas between them, as one. -/
def expression (r : Recur) (ctx : Ctx) : Reader Node := do
  let start ← start
  let first ← r (.assignment ctx)
  if !(← isMark .comma) then return first
  let items ← loop (fun (items : List Node) => do
    if ← eatMark .comma then return .again ((← r (.assignment ctx)) :: items)
    else return .done items.reverse) [first]
  node .sequence start items

def literal : Reader Node := do
  let start ← start
  take
  node .literal start []

/-- An expression after three dots, or one alone. -/
def spreadOr (r : Recur) (ctx : Ctx) (item : Reader Node) : Reader Node := do
  let start ← start
  if ← eatMark .ellipsis then
    let n ← r (.assignment ctx)
    node .spread start [n]
  else item

/-- The items of a literal. A comma after a last spread leaves a hole, so that the literal is no
target. -/
def literalItems (close : Mark) (item : Reader Node) : Reader (List Node) :=
  loop (fun (items : List Node) => do
    if ← isMark close then return .done items.reverse
    let n ← item
    if ← isMark close then return .done (n :: items).reverse
    let comma ← token
    expectMark .comma
    if n.kind == .spread && (← isMark close) then
      return .done (.mk .hole comma.span [] :: n :: items).reverse
    return .again (n :: items)) []

def arrayLiteral (r : Recur) (ctx : Ctx) : Reader Node := do
  let start ← start
  take
  let items ← literalItems .bracketClose do
    if ← isMark .comma then return .mk .hole (← token).span []
    else spreadOr r ctx.withIn (r (.assignment ctx.withIn))
  take
  node .array start items

/-- A member that is a name alone, perhaps with a default for the case that the literal is a
pattern. -/
def shorthandProperty (r : Recur) (ctx : Ctx) (start : Nat) : Reader Node := do
  let name ← reference ctx
  if ← eatMark .assign then
    let value ← r (.assignment ctx.withIn)
    modify fun s => { s with openDefaults := start :: s.openDefaults }
    node .memberDefault start [name, value]
  else node (.member true) start [name]

def literalMember (r : Recur) (ctx : Ctx) : Reader Node := do
  let start ← start
  let isAsync ← eatModifier .asyncWord true
  let isGenerator ← eatMark (.operator .times)
  let accessor ← if isAsync || isGenerator then pure .none else accessorKind
  let isPlain := !isAsync && !isGenerator && accessor == .none
  let isName := (← tokenKind).isName
  let keyAlone ← ahead do
    advance
    return !(← isMark .colon) && !(← isMark .parenOpen)
  if isPlain && isName && keyAlone then shorthandProperty r ctx start
  else
    let (_, key) ← memberKey r ctx
    if !isPlain || (← isMark .parenOpen) then
      let f ← methodFunction r accessor isAsync isGenerator
      node .memberFunction start (key ++ [f])
    else
      expectMark .colon
      let value ← r (.assignment ctx.withIn)
      node (.member false) start (key ++ [value])

def objectLiteral (r : Recur) (ctx : Ctx) : Reader Node := do
  let start ← start
  take
  let members ← literalItems .braceClose (spreadOr r ctx.withIn (literalMember r ctx))
  take
  node .object start members

/-- A template from its first piece on. Only a template with a tag may have a piece without
value. -/
def template (r : Recur) (ctx : Ctx) (hasTag : Bool) : Reader Node := do
  let start ← start
  loop (fun ((pieces, values) : List (Option String) × List Node) => do
    match ← tokenKind with
    | .template piece last =>
      check (hasTag || piece.isSome)
      advance
      let pieces := piece :: pieces
      if last then return .done (← node (.template pieces.reverse) start values.reverse)
      let value ← expression r ctx.withIn
      check (← isMark .braceClose)
      rescan fun s => do
        let (piece, last, rest) ← templateRest (s.length + 1) (s.drop 1)
        return (.template (unitsText? piece) last, rest)
      return .again (pieces, value :: values)
    | _ => failure) ([], [])

def regularExpression : Reader Node := do
  let start ← start
  rescan fun s => do
    let rest ← regularExpressionRest? (s.drop 1)
    return (.regularExpression, rest)
  advance
  node .literal start []

/-- An expression in parentheses, which leave no node. -/
def parenthesized (r : Recur) (ctx : Ctx) : Reader Node := do
  take
  let n ← expression r ctx.withIn
  expectMark .parenClose
  return n

def superword : Reader Node := do
  let n ← literal
  check ((← isMark .dot) || (← isMark .bracketOpen) || (← isMark .parenOpen))
  return n

/-- `import` as part of an expression: a call, or a property of the module. -/
def importExpression (r : Recur) (ctx : Ctx) : Reader Node := do
  let start ← start
  take
  let isMeta ←
    if ← eatMark .dot then
      if ← eatWord .metaWord then pure true
      else
        check ((← isWord .deferWord) || (← isWord .sourceWord))
        take
        pure false
    else pure false
  if isMeta then node .literal start []
  else
    expectMark .parenOpen
    let items ← commaList .parenClose (r (.assignment ctx.withIn))
    check (items.length == 1 || items.length == 2)
    take
    node .importCall start items

def callArguments (r : Recur) (ctx : Ctx) : Reader (List Node) := do
  take
  let items ← commaList .parenClose (spreadOr r ctx.withIn (r (.assignment ctx.withIn)))
  take
  return items

def newExpression (r : Recur) (ctx : Ctx) : Reader Node := do
  let start ← start
  take
  if ← eatMark .dot then
    expectWord .targetWord
    node .literal start []
  else
    let callee ← r (.newTarget ctx)
    check (callee.kind != .importCall)
    let args ← if ← isMark .parenOpen then callArguments r ctx else pure []
    node .new start (callee :: args)

def stringLiteral (value : String) : Reader Node := do
  let start ← start
  take
  node (.string value) start []

def classExpression (r : Recur) (ctx : Ctx) : Reader Node := do
  let start ← start
  let decorators ← decorators r ctx
  classFrom r ctx start decorators .expression false

/-- An operand without accesses. -/
def primary (r : Recur) (ctx : Ctx) : Reader Node := do
  if ← atFunction then function r ctx .expression false
  else
    match ← tokenKind with
    | .text value => stringLiteral value
    | .number => literal
    | .template _ _ => template r ctx false
    | .mark .bracketOpen => arrayLiteral r ctx
    | .mark .braceOpen => objectLiteral r ctx
    | .mark .parenOpen => parenthesized r ctx
    | .mark (.operator .divide) => regularExpression
    | .mark (.assignWith .divide) => regularExpression
    | .mark .atSign => classExpression r ctx
    | .word (some .classWord) _ _ => classExpression r ctx
    | .word (some .thisWord) _ _ => literal
    | .word (some .nullWord) _ _ => literal
    | .word (some .trueWord) _ _ => literal
    | .word (some .falseWord) _ _ => literal
    | .word (some .newWord) _ _ => newExpression r ctx
    | .word (some .superWord) _ _ => superword
    | .word (some .importWord) _ _ => importExpression r ctx
    | _ => reference ctx

/-- An operand being read from the left: the node so far, and whether it is a chain. -/
structure Access where
  node : Node
  inChain : Bool

/-- A property after its dot. -/
def dotAccess (start : Nat) (object : Node) : Reader Node := do
  match ← tokenKind with
  | .privateName _ =>
    advance
    node .privateField start [object]
  | _ =>
    let name ← wordText
    node (.field name) start [object]

def indexAccess (r : Recur) (ctx : Ctx) (start : Nat) (object : Node) : Reader Node := do
  take
  let key ← expression r ctx.withIn
  expectMark .bracketClose
  node .index start [object, key]

/-- Whether `?.` is followed by a property or by a key in brackets. -/
def accessFollows (ctx : Ctx) : Reader Bool :=
  ahead do
    take
    match ← tokenKind with
    | .privateName _ => return true
    | .word _ _ _ => return true
    | .mark .bracketOpen => return !ctx.inDecorator
    | _ => return false

/-- One more access or template tag, if there is one. -/
def accessStep (r : Recur) (ctx : Ctx) (start : Nat) (a : Access) :
    Reader (Round Access Access) := do
  match ← tokenKind with
  | .mark .dot =>
    take
    return .again { a with node := ← dotAccess start a.node }
  | .mark .bracketOpen =>
    if ctx.inDecorator then return .done a
    return .again { a with node := ← indexAccess r ctx start a.node }
  | .mark .questionDot =>
    if !(← accessFollows ctx) then return .done a
    take
    if ← isMark .bracketOpen then return .again ⟨← indexAccess r ctx start a.node, true⟩
    else return .again ⟨← dotAccess start a.node, true⟩
  | .template _ _ =>
    check (!a.inChain)
    let t ← template r ctx true
    return .again { a with node := ← node .tagged start [a.node, t] }
  | _ => return .done a

/-- Accesses after an operand, without calls. -/
def accesses (r : Recur) (ctx : Ctx) (start : Nat) (a : Access) : Reader Access :=
  loop (accessStep r ctx start) a

/-- What `new` applies to: an operand with accesses that is no chain. -/
def newTarget (r : Recur) (ctx : Ctx) : Reader Node := do
  let start ← start
  let a ← accesses r ctx start ⟨← primary r ctx, false⟩
  check (!a.inChain)
  return a.node

/-- One round of accesses and a call after them, if there is one. -/
def callStep (r : Recur) (ctx : Ctx) (start : Nat) (a : Access) : Reader (Round Access Access) := do
  let a ← accesses r ctx start a
  let optional ← eatMark .questionDot
  if ← isMark .parenOpen then
    let args ← callArguments r ctx
    return .again ⟨← node .call start (a.node :: args), a.inChain || optional⟩
  check (!optional)
  return .done a

def leftHand (r : Recur) (ctx : Ctx) : Reader Node := do
  let start ← start
  let a ← loop (callStep r ctx start) ⟨← primary r ctx, false⟩
  if a.inChain then node .chain start [a.node] else return a.node

def isUpdateMark (k : TokenKind) : Bool :=
  k == .mark .increment || k == .mark .decrement

/-- An operand with `++` or `--` on one side perhaps. -/
def update (r : Recur) (ctx : Ctx) : Reader Node := do
  let start ← start
  if isUpdateMark (← tokenKind) then
    take
    let n ← simpleTarget (← r (.unary ctx))
    node .update start [n]
  else
    let n ← leftHand r ctx
    let t ← token
    if isUpdateMark t.kind && !t.onNewLine then
      let n ← simpleTarget n
      take
      node .update start [n]
    else return n

/-- The operator before an operand. -/
def unaryKind? : TokenKind → Option Kind
  | .mark .not | .mark .bitNot | .mark (.operator .plus) | .mark (.operator .minus) => some .unary
  | .word (some .typeofWord) _ _ => some .typeof
  | .word (some .voidWord) _ _ => some .unary
  | .word (some .deleteWord) _ _ => some .unary
  | _ => none

/-- Words and literals that can only be an operand. -/
def startsOperand : TokenKind → Bool
  | .word (some k) _ _ => k != .inWord && k != .instanceofWord
  | .word none _ _ | .text _ | .number => true
  | _ => false

/-- Whether a word is followed by an operand on the same line. -/
def operandFollows (k : Keyword) : Reader Bool :=
  ahead do
    check (← isWord k)
    advance
    let t ← token
    return !t.onNewLine && startsOperand t.kind

/-- An operand with the operators before it, which do not go with a power. -/
def prefixed (r : Recur) (ctx : Ctx) (kind : Kind) : Reader Node := do
  let start ← start
  take
  let n ← r (.unary ctx)
  let n ← node kind start [n]
  check (!(← isMark (.operator .power)))
  return n

def unary (r : Recur) (ctx : Ctx) : Reader Node := do
  match unaryKind? (← tokenKind) with
  | some kind => prefixed r ctx kind
  | none =>
    if ← isWord .awaitWord then
      if ctx.inAsync then prefixed r ctx .await
      else
        check (!(← operandFollows .awaitWord))
        update r ctx
    else update r ctx

/-- The operator at a token. -/
def binaryOp? (ctx : Ctx) : TokenKind → Option BinaryOp
  | .mark (.operator op) => some op
  | .word (some .instanceofWord) _ _ => some .instanceOf
  | .word (some .inWord) _ _ => if ctx.allowIn then some .isIn else none
  | _ => none

def isAndOr (n : Node) : Bool :=
  n.kind == .binary .and || n.kind == .binary .or

def isLogical (n : Node) : Bool :=
  isAndOr n || n.kind == .binary .coalesce

/-- `??` does not mix with `&&` and `||`, except in parentheses. -/
def mixesCoalesce (left right : Node) (leftParen rightParen : Bool) : Bool :=
  if isLogical right then !rightParen && isAndOr right
  else !leftParen && isAndOr left

/-- Operators after an operand, as far as they bind more strongly than `strength`. -/
def binaryRest (r : Recur) (ctx : Ctx) (start strength : Nat) (leftParen : Bool) (left : Node) :
    Reader Node :=
  loop (fun (left : Node) => do
    match binaryOp? ctx (← tokenKind) with
    | none => return .done left
    | some op =>
      if op.strength < strength || (op.strength == strength && op != .power) then return .done left
      take
      let rightParen ← isMark .parenOpen
      let right ← r (.binary ctx op.strength)
      check (!(op == .coalesce && mixesCoalesce left right leftParen rightParen))
      return .again (← node (.binary op) start [left, right])) left

/-- A private name before `in`. -/
def privateIn (r : Recur) (ctx : Ctx) : Reader Node := do
  let start ← start
  advance
  expectWord .inWord
  let right ← r (.binary ctx BinaryOp.isIn.strength)
  check (right.kind != .privateIn)
  node .privateIn start [right]

def isPrivateName : TokenKind → Bool
  | .privateName _ => true
  | _ => false

def binary (r : Recur) (ctx : Ctx) (strength : Nat) : Reader Node := do
  let start ← start
  let leftParen ← isMark .parenOpen
  let left ←
    if ctx.allowIn && isPrivateName (← tokenKind) then privateIn r ctx else unary r ctx
  binaryRest r ctx start strength leftParen left

/-- What the first tokens say about parentheses being those of an arrow function. -/
inductive Likelihood
  | no | yes | maybe
deriving DecidableEq

/-- Looks at the tokens after an opening parenthesis. -/
def arrowLikelihoodInside : Reader Likelihood := do
  match ← tokenKind with
  | .mark .parenClose =>
    take
    if (← isMark .arrow) || (← isMark .braceOpen) then return .yes else return .no
  | .mark .bracketOpen => return .maybe
  | .mark .braceOpen => return .maybe
  | .mark .ellipsis => return .maybe
  | k =>
    if !k.isName then return .no
    advance
    if (← isMark .comma) || (← isMark .assign) || (← isMark .parenClose) then return .maybe
    else return .no

def arrowLikelihood : Reader Likelihood := fun s =>
  let look : Reader Likelihood := do
    if ← isWord .asyncWord then
      take
      check (!(← onNewLine))
    expectMark .parenOpen
    arrowLikelihoodInside
  some (((look s).map (·.1)).getD .no, s)

/-- An arrow and what follows it, given the parameters. -/
def arrowRest (r : Recur) (ctx : Ctx) (start : Nat) (isAsync : Bool) (params : Node) :
    Reader Node := do
  check (!(← onNewLine))
  expectMark .arrow
  let inner : Ctx := { ctx with inGenerator := false, inAsync := isAsync }
  let body ←
    if ← isMark .braceOpen then bodyInBraces r { inAsync := isAsync }
    else
      let bodyStart ← Reader.start
      let value ← r (.assignment inner)
      let s ← node .expressionStatement bodyStart [value]
      node .body bodyStart [s]
  node (.arrow isAsync) start [params, body]

/-- An arrow function with its parameters in parentheses. -/
def arrowWithParens (r : Recur) (ctx : Ctx) : Reader Node := do
  let start ← start
  let isAsync ← eatWord .asyncWord
  let params ← parameters r { ctx with allowIn := true, inAsync := ctx.inAsync || isAsync }
  arrowRest r ctx start isAsync params

/-- The parameters of an arrow function that are one name, and the function. -/
def arrowWithName (r : Recur) (ctx : Ctx) (start : Nat) (isAsync : Bool) : Reader Node := do
  let name ← bindingName { ctx with inAsync := ctx.inAsync || isAsync }
  arrowRest r ctx start isAsync (.mk .parameters name.span [name])

/-- Whether `async x =>` starts here. -/
def asyncNameFollows : Reader Bool :=
  ahead do
    expectWord .asyncWord
    check (!(← onNewLine))
    check (← tokenKind).isName
    advance
    return (← isMark .arrow) && !(← onNewLine)

/-- Whether a name stands directly before an arrow. -/
def nameThenArrow : Reader Bool :=
  ahead do
    check (← tokenKind).isName
    advance
    isMark .arrow

def arrow? (r : Recur) (ctx : Ctx) : Reader (Option Node) := do
  match ← arrowLikelihood with
  | .yes => return some (← arrowWithParens r ctx)
  | .maybe =>
    match ← attempt (arrowWithParens r ctx) with
    | some n => return some n
    | none => return none
  | .no =>
    let start ← start
    if ← asyncNameFollows then
      take
      return some (← arrowWithName r ctx start true)
    else if ← nameThenArrow then return some (← arrowWithName r ctx start false)
    else return none

/-- `yield` with its value. -/
def yieldExpression (r : Recur) (ctx : Ctx) : Reader Node := do
  let start ← start
  take
  let t ← token
  if t.onNewLine then node .yield start []
  else
    let all ← eatMark (.operator .times)
    let ended :=
      match t.kind with
      | .ending => true
      | .mark .semicolon | .mark .braceClose | .mark .parenClose | .mark .bracketClose => true
      | .mark .colon | .mark .comma => true
      | .word (some .inWord) _ _ => true
      | _ => false
    if ended && !all then node .yield start []
    else
      let value ← r (.assignment ctx)
      node .yield start [value]

def conditionalRest (r : Recur) (ctx : Ctx) (start : Nat) (test : Node) : Reader Node := do
  if ← eatMark .question then
    let yes ← r (.assignment ctx.withIn)
    expectMark .colon
    let no ← r (.assignment ctx)
    node .conditional start [test, yes, no]
  else return test

def assignmentRest (r : Recur) (ctx : Ctx) (start : Nat) (left : Node) : Reader Node := do
  match ← tokenKind with
  | .mark .assign =>
    let target ← target left
    take
    let value ← r (.assignment ctx)
    node (.assignment true) start [target, value]
  | .mark (.assignWith _) =>
    let target ← simpleTarget left
    take
    let value ← r (.assignment ctx)
    node (.assignment false) start [target, value]
  | _ => conditionalRest r ctx start left

def assignment (r : Recur) (ctx : Ctx) : Reader Node := do
  let yields ←
    if ← isWord .yieldWord then
      if ctx.inGenerator then pure true
      else
        check (!(← operandFollows .yieldWord))
        pure false
    else pure false
  if yields then yieldExpression r ctx
  else
    match ← arrow? r ctx with
    | some n => return n
    | none =>
      let start ← start
      let left ← binary r ctx 0
      assignmentRest r ctx start left

end FlatBundle.Script
