import FlatBundle.Text.Split

/-!
Slash-separated file paths: the name a file goes by, and its place below a directory.
-/

namespace FlatBundle.Path

inductive Component
  | root
  | here
  | up
  | name (text : List Char)
deriving DecidableEq

/-- The pieces between slashes, empty ones included. -/
def segments (path : List Char) : List (List Char) :=
  Text.pieces '/' path

/-- Empty pieces and inner dots mean nothing. -/
def isIdle (segment : List Char) : Bool :=
  segment == [] || segment == ['.']

def Component.ofSegment? (segment : List Char) : Option Component :=
  if isIdle segment then none
  else if segment = ['.', '.'] then some .up
  else some (.name segment)

/-- The first component, if the path has one of its own kind there: a leading slash or a leading
dot. -/
def leading? (path : List Char) : Option Component :=
  match segments path with
  | [] :: _ :: _ => some .root
  | ['.'] :: _ => some .here
  | _ => none

def components (path : List Char) : List Component :=
  (leading? path).toList ++ (segments path).filterMap Component.ofSegment?

/-- The name of a file or directory, unless the path ends in `..` or names nothing. -/
def fileName? (components : List Component) : Option (List Char) :=
  match components.getLast? with
  | some (.name text) => some text
  | _ => none

/-- A name without its extension; a leading dot starts no extension. -/
def stem (name : List Char) : List Char :=
  match name.reverse.dropWhile (· ≠ '.') with
  | [] => name
  | [_] => name
  | _ :: before => before.reverse

/-- The name a module is best known by: its file's stem, or the directory of an `index.js`. -/
def moduleName (path : String) : String :=
  let parts := components path.toList
  let name? :=
    match fileName? parts with
    | some name =>
      if name = "index.js".toList then fileName? parts.dropLast else some (stem name)
    | none => none
  match name? with
  | some name => if name.isEmpty then "module" else String.ofList name
  | none => "module"

/-- Takes the components of `base` off the front of the pieces of a path. -/
def dropComponents : List Component → List (List Char) → Option (List (List Char))
  | [], pieces => some pieces
  | _ :: _, [] => none
  | wanted :: base, piece :: pieces =>
    match Component.ofSegment? piece with
    | none => dropComponents (wanted :: base) pieces
    | some found => if found = wanted then dropComponents base pieces else none

/-- Pieces joined by slashes, without idle pieces at the end. -/
def joinTrimmed (pieces : List (List Char)) : List Char :=
  List.intercalate ['/'] (pieces.reverse.dropWhile isIdle).reverse

/-- The part of `path` below `base`, if `base` leads to it. -/
def below? (path base : List Char) : Option (List Char) :=
  match components base, leading? path with
  | [], some .root => some ('/' :: joinTrimmed ((segments path).drop 1))
  | [], some .here =>
    let rest := joinTrimmed ((segments path).drop 1)
    some (if rest.isEmpty then ['.'] else '.' :: '/' :: rest)
  | [], _ => some (joinTrimmed (segments path))
  | first :: rest, some leading =>
    if first = leading then
      (dropComponents rest ((segments path).drop 1)).map
        fun pieces => joinTrimmed (pieces.dropWhile isIdle)
    else none
  | base, none =>
    (dropComponents base (segments path)).map fun pieces => joinTrimmed (pieces.dropWhile isIdle)

/-- `path` as seen from `base`; unchanged when `base` does not lead to it. -/
def relative (path : String) (base : Option String) : String :=
  match base with
  | none => path
  | some base =>
    match below? path.toList base.toList with
    | some rest => String.ofList rest
    | none => path

end FlatBundle.Path
