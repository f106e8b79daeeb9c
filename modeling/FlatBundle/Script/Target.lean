import FlatBundle.Script.Reader

/-!
What is assigned to: expressions read first as values and then taken as targets.
-/

namespace FlatBundle.Script

/-- Names and accesses, to which alone every assignment operator applies. -/
def Node.isSimpleTarget (n : Node) : Bool :=
  match n.kind with
  | .reference _ | .field _ | .index | .privateField => true
  | _ => false

/-- What the last item of a list may be that nothing else may. -/
def isLast : List Node → Bool
  | [] => true
  | _ :: _ => false

mutual

/-- An expression as a target, and where members with defaults were taken into it. -/
def asTarget? : Node → Option (Node × List Nat)
  | .mk .array span items => do
    let (items, taken) ← itemTargets? items
    return (.mk .arrayTarget span items, taken)
  | .mk .object span members => do
    let (members, taken) ← memberTargets? members
    return (.mk .objectTarget span members, taken)
  | .mk kind span children =>
    if (Node.mk kind span children).isSimpleTarget then some (.mk kind span children, []) else none
termination_by n => 2 * sizeOf n

/-- A target with a default perhaps, which reads as an assignment at first. -/
def asElement? : Node → Option (Node × List Nat)
  | .mk (.assignment true) span [target, value] => some (.mk .targetDefault span [target, value], [])
  | n => asTarget? n
termination_by n => 2 * sizeOf n + 1

def itemTargets? : List Node → Option (List Node × List Nat)
  | [] => some ([], [])
  | .mk .hole span _ :: items => do
    let (items, taken) ← itemTargets? items
    return (.mk .hole span [] :: items, taken)
  | .mk .spread span [n] :: items =>
    if !isLast items then none
    else do
      let (target, taken) ← asTarget? n
      return ([.mk .targetRest span [target]], taken)
  | n :: items => do
    let (target, taken) ← asElement? n
    let (items, more) ← itemTargets? items
    return (target :: items, taken ++ more)
termination_by items => 2 * sizeOf items

def memberTargets? : List Node → Option (List Node × List Nat)
  | [] => some ([], [])
  | .mk (.member true) span [name] :: members => do
    let (members, taken) ← memberTargets? members
    return (.mk .targetShorthand span [name] :: members, taken)
  | .mk .memberDefault span [name, value] :: members => do
    let (members, taken) ← memberTargets? members
    return (.mk .targetShorthand span [name, value] :: members, span.start :: taken)
  | .mk (.member false) span [value] :: members => do
    let (target, taken) ← asElement? value
    let (members, more) ← memberTargets? members
    return (.mk .targetMember span [target] :: members, taken ++ more)
  | .mk (.member false) span [key, value] :: members => do
    let (target, taken) ← asElement? value
    let (members, more) ← memberTargets? members
    return (.mk .targetMember span [key, target] :: members, taken ++ more)
  | .mk .spread span [n] :: members =>
    if !isLast members || !n.isSimpleTarget then none
    else some ([.mk .targetRest span [n]], [])
  | _ => none
termination_by members => 2 * sizeOf members

end

namespace Reader

/-- Takes an expression as a target; its members with defaults are in order then. -/
def target (n : Node) : Reader Node := do
  match asTarget? n with
  | some (n, taken) =>
    modify fun s => { s with openDefaults := s.openDefaults.filter (!taken.contains ·) }
    return n
  | none => failure

def simpleTarget (n : Node) : Reader Node := do
  check n.isSimpleTarget
  return n

end Reader

end FlatBundle.Script
