import FlatBundle.Bundle.Placement

/-!
The lines around the modules of a bundle.
-/

namespace FlatBundle

structure WrapperLines where
  intro : List String
  outro : List String
deriving DecidableEq, Repr

/-- Runs an entry that would not run otherwise. -/
def startLine? (l : Linked) (i : Nat) : Option String :=
  if (l.facts i).record.entry && l.isOnDemand i then some ((l.facts i).exportsName ++ "();")
  else none

/-- Makes an exposed module known outside. -/
def exposeLine (l : Linked) (names : LoaderNames) (i : Nat) : String :=
  let key := (l.facts i).record.id.literal
  if l.isOnDemand i then
    "Object.defineProperty(" ++ names.exposed ++ ".m, " ++ key ++
      ", \x7b get: function() \x7b return " ++ l.exportsOf i ++ "; \x7d\x7d);"
  else names.exposed ++ ".m[" ++ key ++ "] = " ++ l.exportsOf i ++ ";"

/-- Whether a bundle with a global name returns a module. -/
def isReturned (options : Options) (m : ModuleFacts) : Bool :=
  (m.record.entry && m.uses.hasExports) || options.standaloneModule == some m.record.id

/-- What a module is to the outside. -/
def outwardLine? (options : Options) (l : Linked) (names : LoaderNames) (i : Nat) :
    Option String :=
  let m := l.facts i
  match m.record.expose, options.globalName with
  | some _, none => some (exposeLine l names i)
  | _, some _ => if isReturned options m then some ("return " ++ m.exportsName ++ ";") else none
  | none, none => none

/-- Whether some module is exposed. -/
def exposes (l : Linked) : Bool :=
  l.order.any fun i => (l.facts i).record.expose.isSome

/-- The first and the last lines of the kind of bundle that is asked for. -/
def outerLines (options : Options) (l : Linked) (names : LoaderNames) : WrapperLines :=
  match options.globalName with
  | some name => ⟨[universalPrelude name], [universalPostlude]⟩
  | none =>
    if exposes l then
      { intro := [
          "require = (function (require) \x7b",
          "var " ++ names.exposed ++ " = " ++ exposedRequireCode ++ ";",
          names.exposed ++ ".m = \x7b\x7d;",
          names.exposed ++ ".r = require;"]
        outro := [
          "return " ++ names.exposed ++ ";",
          "\x7d(typeof require === 'function' ? require : void 0));"] }
    else if options.iife then ⟨["(function()\x7b"], ["\x7d());"]⟩
    else ⟨[], []⟩

def wrapperLines (options : Options) (l : Linked) (names : LoaderNames) : WrapperLines :=
  let outer := outerLines options l names
  { intro := outer.intro ++
      (if l.onDemand.isEmpty then [] else ["var " ++ names.factory ++ " = " ++ factoryCode ++ ";"])
    outro := l.order.filterMap (startLine? l) ++
      l.order.filterMap (outwardLine? options l names) ++ outer.outro }

end FlatBundle
