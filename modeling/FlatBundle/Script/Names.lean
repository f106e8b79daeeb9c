import FlatBundle.Script.Reader

/-!
Names: references, bindings, and the keys of members.
-/

namespace FlatBundle.Script

open Reader

/-- A word that may name something somewhere. -/
def TokenKind.isName : TokenKind → Bool
  | .word none _ _ => true
  | .word (some k) _ _ => !k.isReserved
  | _ => false

/-- A word that may name something here. -/
def nameText (ctx : Ctx) : Reader String := do
  match ← tokenKind with
  | .word none name _ => return name
  | .word (some k) name _ =>
    check (!k.isReserved && !(ctx.inGenerator && k == .yieldWord) &&
      !(ctx.inAsync && k == .awaitWord))
    return name
  | _ => failure

def reference (ctx : Ctx) : Reader Node := do
  let start ← start
  let name ← nameText ctx
  advance
  node (.reference name) start []

def bindingName (ctx : Ctx) : Reader Node := do
  let start ← start
  let name ← nameText ctx
  advance
  node (.binding name) start []

/-- Any word, even a reserved one. -/
def wordText : Reader String := do
  match ← tokenKind with
  | .word _ name _ =>
    advance
    return name
  | _ => failure

/-- What a key is as far as members of a class treat it differently. -/
inductive KeyName
  | plain (name : String)
  | hidden (name : String)
  | computed
deriving DecidableEq

/-- The key of a member: a word, a string or a number, or an expression in brackets, which alone
leaves a node. -/
def memberKey (r : Recur) (ctx : Ctx) : Reader (KeyName × List Node) := do
  match ← tokenKind with
  | .word _ name _ =>
    advance
    return (.plain name, [])
  | .text value =>
    advance
    return (.plain value, [])
  | .number =>
    advance
    return (.plain "", [])
  | .mark .bracketOpen =>
    take
    let key ← r (.assignment ctx.withIn)
    expectMark .bracketClose
    return (.computed, [key])
  | _ => failure

/-- Whether a token can start the key of a member, or the star before it. -/
def TokenKind.startsKey : TokenKind → Bool
  | .word _ _ _ | .text _ | .number | .privateName _ | .mark .bracketOpen => true
  | .mark (.operator .times) => true
  | _ => false

/-- A word such as `get` before the key of a member; `sameLine` forbids a line break after it. -/
def eatModifier (k : Keyword) (sameLine : Bool) : Reader Bool := do
  let follows ← ahead do
    expectWord k
    let t ← token
    return t.kind.startsKey && !(sameLine && t.onNewLine)
  if follows then take
  return follows

end FlatBundle.Script
