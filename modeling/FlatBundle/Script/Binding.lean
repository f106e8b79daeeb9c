import FlatBundle.Script.Names

/-!
What is declared: names and patterns, and the parameters of functions.
-/

namespace FlatBundle.Script

open Reader

/-- A target with a default perhaps. -/
def bindingElement (r : Recur) (ctx : Ctx) : Reader Node := do
  let start ← start
  let target ← r (.bindingTarget ctx)
  if ← eatMark .assign then
    let value ← r (.assignment ctx.withIn)
    node .patternDefault start [target, value]
  else return target

/-- The last element of a list, with the closing mark after it. -/
def bindingRest (close : Mark) (target : Reader Node) : Reader Node := do
  let start ← start
  take
  let n ← target
  check (← isMark close)
  node .patternRest start [n]

def arrayItem (r : Recur) (ctx : Ctx) : Reader Node := do
  if ← isMark .comma then
    return .mk .hole (← token).span []
  else if ← isMark .ellipsis then bindingRest .bracketClose (r (.bindingTarget ctx))
  else bindingElement r ctx

def arrayPattern (r : Recur) (ctx : Ctx) : Reader Node := do
  let start ← start
  take
  let items ← commaList .bracketClose (arrayItem r ctx)
  take
  node .arrayPattern start items

/-- A member whose key names the target, perhaps with a default. -/
def shorthandMember (r : Recur) (ctx : Ctx) : Reader Node := do
  let start ← start
  let name ← bindingName ctx
  if ← eatMark .assign then
    let value ← r (.assignment ctx.withIn)
    let target ← node .patternDefault start [name, value]
    node (.patternMember true) start [target]
  else node (.patternMember true) start [name]

def patternMember (r : Recur) (ctx : Ctx) : Reader Node := do
  if ← isMark .ellipsis then bindingRest .braceClose (bindingName ctx)
  else
    let isName := (← tokenKind).isName
    let colonFollows ← ahead do
      advance
      isMark .colon
    if isName && !colonFollows then shorthandMember r ctx
    else
      let start ← start
      let (_, key) ← memberKey r ctx
      expectMark .colon
      let target ← bindingElement r ctx
      node (.patternMember false) start (key ++ [target])

def objectPattern (r : Recur) (ctx : Ctx) : Reader Node := do
  let start ← start
  take
  let members ← commaList .braceClose (patternMember r ctx)
  take
  node .objectPattern start members

def bindingTarget (r : Recur) (ctx : Ctx) : Reader Node := do
  match ← tokenKind with
  | .mark .bracketOpen => arrayPattern r ctx
  | .mark .braceOpen => objectPattern r ctx
  | _ => bindingName ctx

def parameter (r : Recur) (ctx : Ctx) : Reader Node := do
  if ← isMark .ellipsis then bindingRest .parenClose (r (.bindingTarget ctx))
  else bindingElement r ctx

/-- Parameters in parentheses. -/
def parameters (r : Recur) (ctx : Ctx) : Reader Node := do
  let start ← start
  expectMark .parenOpen
  let items ← commaList .parenClose (parameter r ctx)
  take
  node .parameters start items

end FlatBundle.Script
