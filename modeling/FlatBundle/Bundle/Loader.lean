import FlatBundle.Link.Linked
import FlatBundle.Text.Split

/-!
The code that a bundle brings along, and the names it goes by.
-/

namespace FlatBundle

/-- Makes a function that runs a module when it is first called. -/
def factoryCode : String :=
  "\n".intercalate [
    "function createModuleFactory(factory) \x7b",
    "  var module;",
    "  return function (parent) \x7b",
    "    if (!module) \x7b",
    "      module = \x7b exports: \x7b\x7d, parent: parent \x7d;",
    "      factory(module, module.exports);",
    "    \x7d",
    "    return module.exports;",
    "  \x7d;",
    "\x7d"]

/-- Finds exposed modules, and asks the surrounding loader for all others. -/
def exposedRequireCode : String :=
  "\n".intercalate [
    "function exposedRequire(m, jumped) \x7b",
    "  if (exposedRequire.m.hasOwnProperty(m)) \x7b",
    "    return exposedRequire.m[m];",
    "  \x7d",
    "  if (typeof exposedRequire.r === 'function' && !jumped) \x7b",
    "    return exposedRequire.r(m, 1);",
    "  \x7d",
    "  var e = new Error(\"Cannot find module '\" + m + \"'\");",
    "  e.code = 'MODULE_NOT_FOUND';",
    "  throw e;",
    "\x7d"]

/-- The first of `base_n`, `base_n+1`, .. that is not in use. -/
def numberedName? (inUse : String → Bool) (base : String) : Nat → Nat → Option String
  | 0, _ => none
  | fuel + 1, n =>
    let name := base ++ "_" ++ toString n
    if inUse name then numberedName? inUse base fuel (n + 1) else some name

/-- A name that occurs in none of the sources: `base`, or `base` with a number. Two numbered names
in use never end at the same place, so that the search ends before it has tried more of them than
there are characters. -/
def unusedName (sources : List (List Char)) (base : String) : String :=
  let inUse := fun (name : String) => sources.any (Text.occursIn name.toList)
  if inUse base then
    (numberedName? inUse base (sources.flatten.length + 1) 0).getD base
  else base

/-- The names of the code that the bundle brings along. -/
structure LoaderNames where
  factory : String
  exposed : String
deriving DecidableEq, Repr

def LoaderNames.ofModules (modules : List ModuleFacts) : LoaderNames :=
  let sources := modules.map (·.record.source.toList)
  { factory := unusedName sources "createModuleFactory"
    exposed := unusedName sources "exposedRequire" }

/-- Sets a global with a path of names, making the objects on the way. -/
def globalAssignment (parents : List String) (last : String) : String :=
  let opened := fun (parent : String) => "(g." ++ parent ++ "||(g." ++ parent ++ "=\x7b\x7d))"
  match parents with
  | [] => "g." ++ last ++ "=f()"
  | [parent] => opened parent ++ "." ++ last ++ "=f()"
  | parents =>
    String.join (parents.map fun parent => "g=" ++ opened parent ++ ";") ++ "g." ++ last ++ "=f()"

/-- The names between the dots of a global name. -/
def globalPath (name : String) : List String :=
  (Text.pieces '.' name.toList).map fun piece => (Text.toIdentifier (String.ofList piece)).getD "_"

/-- Hands what the bundle returns to whichever loader there is, or to a global. -/
def universalPrelude (name : String) : String :=
  let path := globalPath name
  String.join [
    "(function(f)\x7bif(typeof exports===\"object\"&&typeof module!==\"undefined\")",
    "\x7bmodule.exports=f()\x7d",
    "else if(typeof define===\"function\"&&define.amd)\x7bdefine([],f)\x7d",
    "else\x7bvar g;if(typeof window!==\"undefined\")\x7bg=window\x7d",
    "else if(typeof global!==\"undefined\")\x7bg=global\x7d",
    "else if(typeof self!==\"undefined\")\x7bg=self\x7delse\x7bg=this\x7d",
    globalAssignment path.dropLast (path.getLast?.getD "_"),
    "\x7d\x7d)(function()\x7bvar define,module,exports;"]

def universalPostlude : String :=
  "\x7d);"

end FlatBundle
