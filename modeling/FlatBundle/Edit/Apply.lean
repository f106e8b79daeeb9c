import FlatBundle.Edit.Basic
import FlatBundle.SourceMap.Basic

/-!
Carrying out edits, and the source map of the result: each kept line of the source and each
replacement is mapped where it begins.
-/

namespace FlatBundle

/-- A stretch of edited text. -/
inductive Stretch
  /-- Source text kept as it is. -/
  | kept (text : List Char)
  /-- What stands for a cut-out text of the source. -/
  | replaced (text : List Char) (cut : List Char)
  /-- Text that comes from nowhere. -/
  | added (text : List Char)
deriving DecidableEq, Repr

namespace Stretch

def output : Stretch → List Char
  | kept text => text
  | replaced text _ => text
  | added text => text

/-- The source text it covers. -/
def covered : Stretch → List Char
  | kept text => text
  | replaced _ cut => cut
  | added _ => []

end Stretch

/-- Cuts the rest of a source, which starts at byte `offset`, at some resolved edits. -/
def stretches (offset : Nat) : List Edit → List Char → List Stretch
  | [], rest => [.kept rest]
  | e :: edits, rest =>
    let (kept, after) := (splitAtByte rest (e.start - offset)).getD (rest, [])
    let (cut, after) := (splitAtByte after (e.stop - e.start)).getD (after, [])
    .kept kept :: .replaced e.text.toList cut :: stretches e.stop edits after

/-- Pairs of generated and position of origins at the start of each line of a copied text; `fresh`
says that a line starts here. -/
def copiedPairs (fresh : Bool) (generated origin : Position) :
    List Char → List (Position × Position)
  | [] => []
  | c :: s =>
    let rest := copiedPairs (c == '\n') (generated.advance c) (origin.advance c) s
    if fresh then (generated, origin) :: rest else rest

/-- The pairs of positions a stretch gives. -/
def Stretch.pairs (generated origin : Position) : Stretch → List (Position × Position)
  | kept text => copiedPairs true generated origin text
  | replaced text _ => if text.isEmpty then [] else [(generated, origin)]
  | added _ => []

def stretchPairs (generated origin : Position) : List Stretch → List (Position × Position)
  | [] => []
  | s :: rest =>
    s.pairs generated origin ++
      stretchPairs (generated.advanceBy s.output) (origin.advanceBy s.covered) rest

/-- Where a text ends that is written stretch by stretch. -/
def stretchesEnd (generated : Position) : List Stretch → Position
  | [] => generated
  | s :: rest => stretchesEnd (generated.advanceBy s.output) rest

/-- Which source map to make of an edit. -/
structure MapRequest where
  sourceName : String
  includeContent : Bool
deriving DecidableEq, Repr

/-- A text with the map to where it comes from, if it has one. -/
structure Piece where
  code : String
  map : Option SourceMap := none
deriving Repr

def pairsMap (request : MapRequest) (source : String) (pairs : List (Position × Position)) :
    SourceMap :=
  SourceMap.ofSegments [request.sourceName]
    (if request.includeContent then [(request.sourceName, some source)] else [])
    (pairs.map fun (generated, origin) =>
      { generated, origin, source := some request.sourceName, name := none })

namespace EditList

/-- The stretches of the edited text. -/
def stretches (e : EditList) (source : String) : Except EditError (List Stretch) :=
  (resolveEdits source.toList e.edits).map fun edits =>
    .added e.intro.toList :: FlatBundle.stretches 0 edits source.toList ++ [.added e.outro.toList]

/-- Carries out the edits. -/
def apply (e : EditList) (source : String) (request : Option MapRequest) :
    Except EditError Piece :=
  (e.stretches source).map fun stretches =>
    { code := String.ofList (stretches.flatMap Stretch.output)
      map := request.map fun request => pairsMap request source (stretchPairs {} {} stretches) }

/-- The index of the last line of the edited text. -/
def lastLine (e : EditList) (source : String) : Except EditError Nat :=
  (e.stretches source).map fun stretches => (stretchesEnd {} stretches).line

end EditList

end FlatBundle
