import FlatBundle.Bundle.Join
import FlatBundle.Bundle.Wrapper

/-!
Building a bundle.
-/

namespace FlatBundle

structure BuiltBundle where
  code : String
  map : Option SourceMap
  warnings : List String
deriving Repr

/-- Lines around the modules as a piece; in a debug bundle it is mapped to itself. -/
def wrapperPiece (options : Options) (name : String) (lines : List String) : List Piece :=
  match lines with
  | [] => []
  | lines =>
    let code := "\n".intercalate lines
    [{ code
       map :=
        if options.debug then
          some (pairsMap { sourceName := name, includeContent := true } code
            (copiedPairs true {} {} code.toList))
        else none }]

/-- The pieces of a bundle one below the other. A debug bundle has a map in any case and ends with
a comment that carries it. -/
def renderBundle (options : Options) (lines : WrapperLines) (modules : List Piece) : Piece :=
  let joined := joinPieces
    (wrapperPiece options "_prelude" lines.intro ++ modules ++
      wrapperPiece options "_postlude" lines.outro)
  let map := joined.map <|> if options.debug then some (SourceMap.ofSegments [] [] []) else none
  { code := joined.code ++ ((map.map fun m => "\n" ++ m.comment).getD "") ++ "\n", map }

/-- The modules of a bundle in its order, each in its place. Fails with each one that has edits in each
other's way. -/
def placeModules (options : Options) (l : Linked) (names : LoaderNames) :
    Except (List BuildError) (List Piece) :=
  let placed := l.order.map fun i =>
    (placeModule options l names i).mapError (.badEdit (l.facts i).record.label)
  match partitionResults placed with
  | ([], pieces) => .ok pieces
  | (errors, _) => .error errors

/-- Builds a bundle of all modules that the records describe. -/
def bundle (options : Options) (records : List Record) :
    Except (List BuildError) BuiltBundle := do
  let table ← Table.ofRecords records
  let linked := Linked.ofModules table (← scanModules table)
  let names := LoaderNames.ofModules linked.modules
  let piece :=
    renderBundle options (wrapperLines options linked names) (← placeModules options linked names)
  return { code := piece.code, map := piece.map, warnings := linked.warnings }

end FlatBundle
