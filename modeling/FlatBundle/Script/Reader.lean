import FlatBundle.Script.Lexer
import FlatBundle.Script.Tree

/-!
Readers of a script: they look at the current token and go on from it, or refuse. The readers that
need each other reach one another through `Phrase`.
-/

namespace FlatBundle.Script

structure State where
  /-- The number of characters of the source text. -/
  size : Nat
  token : Token
  /-- The source text from the current token on. -/
  source : List Char
  /-- The source text after the current token. -/
  rest : List Char
  /-- The end of the token before. -/
  lastEnd : Nat
  /-- The line comments passed so far, the last one first. -/
  lineComments : List Span
  /-- Where literals have members that only a pattern may have, and no pattern took them yet. -/
  openDefaults : List Nat
  /-- The names exported so far. -/
  exported : List String

/-- Moves to the token after `c`. -/
def State.moveTo (s : State) (c : Cursor) (onNewLine : Bool) : Option State := do
  let g ← gap c onNewLine
  let start := g.after.offset
  let (kind, rest) ← kind? g.after.rest
  let stop := start + bytesBetween g.after.rest rest
  return {
    s with
    token := ⟨kind, ⟨start, stop⟩, g.onNewLine⟩
    source := g.after.rest
    rest
    lastEnd := c.offset
    lineComments := g.lineComments ++ s.lineComments }

def State.next (s : State) : Option State :=
  s.moveTo ⟨s.rest, s.token.span.stop⟩ false

/-- A script may start with a line for the system that runs it. -/
def hashLine (source : List Char) : Cursor :=
  match source with
  | '#' :: '!' :: _ => Cursor.skipWhile ⟨source, 0⟩ (!isLineBreak ·)
  | _ => ⟨source, 0⟩

/-- At the first token of a source text. -/
def State.start? (source : List Char) : Option State :=
  State.moveTo ⟨source.length, ⟨.ending, default, true⟩, [], [], 0, [], [], []⟩ (hashLine source) true

abbrev Reader := StateT State Option

namespace Reader

/-- Goes on if a condition holds. -/
def check (b : Bool) : Reader Unit :=
  if b then pure () else failure

def token : Reader Token :=
  return (← get).token

def tokenKind : Reader TokenKind :=
  return (← get).token.kind

def start : Reader Nat :=
  return (← get).token.span.start

/-- The bytes from `start` to the end of the last token. -/
def spanFrom (start : Nat) : Reader Span :=
  return ⟨start, (← get).lastEnd⟩

def node (kind : Kind) (start : Nat) (children : List Node) : Reader Node :=
  return .mk kind (← spanFrom start) children

/-- Goes past the current token, whatever its spelling. -/
def advance : Reader Unit := do
  let s ← get
  match s.next with
  | some s => set s
  | none => failure

def isEscaped : TokenKind → Bool
  | .word _ _ escaped => escaped
  | _ => false

/-- Goes past a token with a meaning of its own, which must not be spelled with an escape. -/
def take : Reader Unit := do
  check (!isEscaped (← tokenKind))
  advance

def isMark (m : Mark) : Reader Bool :=
  return (← tokenKind) == .mark m

def keyword? : Reader (Option Keyword) := do
  match ← tokenKind with
  | .word keyword _ _ => return keyword
  | _ => return none

def isWord (k : Keyword) : Reader Bool :=
  return (← keyword?) == some k

def eatMark (m : Mark) : Reader Bool := do
  if ← isMark m then
    take
    return true
  else return false

def eatWord (k : Keyword) : Reader Bool := do
  if ← isWord k then
    take
    return true
  else return false

def expectMark (m : Mark) : Reader Unit := do
  check (← isMark m)
  take

def expectWord (k : Keyword) : Reader Unit := do
  check (← isWord k)
  take

def onNewLine : Reader Bool :=
  return (← get).token.onNewLine

/-- What a look at the tokens ahead finds; no token is passed. -/
def ahead (r : Reader Bool) : Reader Bool := fun s =>
  some (((r s).map (·.1)).getD false, s)

/-- The result of `r`, or no step at all if it refuses. -/
def attempt {α : Type} (r : Reader α) : Reader (Option α) := fun s =>
  match r s with
  | some (a, s) => some (some a, s)
  | none => some (none, s)

/-- Whether a statement may end here without a semicolon. -/
def atStatementEnd : Reader Bool := do
  let t ← token
  return t.onNewLine || t.kind == .mark .semicolon || t.kind == .mark .braceClose ||
    t.kind == .ending

/-- The end of a statement: a semicolon, or a place where one may be left out. -/
def statementEnd : Reader Unit := do
  if ← eatMark .semicolon then return
  check (← atStatementEnd)

/-- Reads the current token anew as a token of another kind. -/
def rescan (read : List Char → Option (TokenKind × List Char)) : Reader Unit := do
  let s ← get
  match read s.source with
  | some (kind, rest) =>
    let stop := s.token.span.start + bytesBetween s.source rest
    set { s with token := { s.token with kind, span := ⟨s.token.span.start, stop⟩ }, rest }
  | none => failure

/-- The outcome of one round of a loop. -/
inductive Round (σ α : Type)
  | again (s : σ)
  | done (a : α)

def loopFor {σ α : Type} : Nat → (σ → Reader (Round σ α)) → σ → Reader α
  | 0, _, _ => failure
  | fuel + 1, step, s => do
    match ← step s with
    | .again s => loopFor fuel step s
    | .done a => return a

/-- Repeats a step that goes past some token in each round but the last one. -/
def loop {σ α : Type} (step : σ → Reader (Round σ α)) (s : σ) : Reader α := do
  loopFor ((← get).size + 2) step s

/-- Items with commas between them up to a closing mark; a comma may stand before it. -/
def commaList (close : Mark) (item : Reader Node) : Reader (List Node) :=
  loop (fun (items : List Node) => do
    if ← isMark close then return .done items.reverse
    let n ← item
    if ← isMark close then return .done (n :: items).reverse
    expectMark .comma
    return .again (n :: items)) []

end Reader

/-- What the place of an expression allows. -/
structure Ctx where
  /-- Whether `in` is an operator. -/
  allowIn : Bool := true
  /-- Whether `yield` is an operator. -/
  inGenerator : Bool := false
  /-- Whether `await` is an operator. -/
  inAsync : Bool := false
  /-- Whether a key in brackets belongs to what follows. -/
  inDecorator : Bool := false
  /-- Whether a statement may return. -/
  mayReturn : Bool := true
deriving Repr

/-- Inside brackets of some kind. -/
def Ctx.withIn (ctx : Ctx) : Ctx :=
  { ctx with allowIn := true, inDecorator := false }

def Ctx.withoutIn (ctx : Ctx) : Ctx :=
  { ctx with allowIn := false }

/-- The phrases through which readers reach one another. -/
inductive Phrase
  | assignment (ctx : Ctx)
  | unary (ctx : Ctx)
  /-- An operand and all operators that bind more strongly than `strength`. -/
  | binary (ctx : Ctx) (strength : Nat)
  /-- What `new` applies to. -/
  | newTarget (ctx : Ctx)
  /-- An operand with its accesses and calls. -/
  | leftHand (ctx : Ctx)
  /-- `alone` marks a statement that is all of the body of another one. -/
  | statement (ctx : Ctx) (alone : Bool)
  | bindingTarget (ctx : Ctx)

abbrev Recur := Phrase → Reader Node

end FlatBundle.Script
