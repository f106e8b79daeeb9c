import FlatBundle.Script.ModuleItem

/-!
Whole scripts. Every reader that another one reaches through a phrase goes past a token within a
few phrases, so the length of the text bounds the depth.
-/

namespace FlatBundle.Script

open Reader

def statement (r : Recur) (ctx : Ctx) (alone : Bool) : Reader Node := do
  match ← tokenKind with
  | .mark .braceOpen => block r ctx
  | .mark .semicolon => emptyStatement
  | .mark .atSign => decoratedClass r ctx alone
  | .word (some k) _ escaped =>
    match k with
    | .ifWord => ifStatement r ctx
    | .doWord => doWhile r ctx
    | .whileWord => whileStatement r ctx
    | .forWord => forStatement r ctx
    | .continueWord | .breakWord => jump ctx
    | .withWord => withStatement r ctx
    | .switchWord => switchStatement r ctx
    | .throwWord => throwStatement r ctx
    | .tryWord => tryStatement r ctx
    | .debuggerWord => debuggerStatement
    | .classWord => classStatement r ctx alone
    | .exportWord => exportDeclaration r ctx
    | .returnWord => returnStatement r ctx
    | .varWord | .constWord => variableStatement r ctx alone
    | .functionWord => functionStatement r ctx alone
    | .importWord => if ← importFollows then importDeclaration else expressionOrLabeled r ctx
    | .asyncWord =>
      if ← atFunction then functionStatement r ctx alone else expressionOrLabeled r ctx
    | .usingWord | .awaitWord =>
      if ← usingFollows then variableStatement r ctx alone else expressionOrLabeled r ctx
    | .letWord => if escaped then expressionOrLabeled r ctx else letStatement r ctx alone
    | _ => expressionOrLabeled r ctx
  | _ => expressionOrLabeled r ctx

/-- The reader of a phrase, at most `depth` phrases deep. -/
def phrase : Nat → Recur
  | 0, _ => failure
  | depth + 1, p =>
    match p with
    | .assignment ctx => assignment (phrase depth) ctx
    | .unary ctx => unary (phrase depth) ctx
    | .binary ctx strength => binary (phrase depth) ctx strength
    | .newTarget ctx => newTarget (phrase depth) ctx
    | .leftHand ctx => leftHand (phrase depth) ctx
    | .statement ctx alone => statement (phrase depth) ctx alone
    | .bindingTarget ctx => bindingTarget (phrase depth) ctx

/-- A script that has been read. -/
structure Program where
  tree : Node
  /-- Comments that end with their line, in source order. -/
  lineComments : List Span
deriving Repr

def program (depth : Nat) : Reader Program := do
  let items ← statements (phrase depth) {} do return (← tokenKind) == .ending
  let s ← get
  check s.openDefaults.isEmpty
  return ⟨.mk .program ⟨0, s.token.span.stop⟩ items, s.lineComments.reverse⟩

/-- Reads a script that may return at its top level; `none` if it is none. -/
def Program.parse? (source : String) : Option Program := do
  let chars := source.toList
  let s ← State.start? chars
  let (p, _) ← program (4 * chars.length + 8) s
  return p

end FlatBundle.Script
