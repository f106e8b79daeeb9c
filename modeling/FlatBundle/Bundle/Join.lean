import FlatBundle.Edit.Apply

/-!
Laying pieces of text one below the other.
-/

namespace FlatBundle

/-- The segments of all maps, each moved down to the line its piece starts on. -/
def joinedSegments (line : Nat) : List Piece → List Segment
  | [] => []
  | p :: rest =>
    (p.map.map (·.shiftedSegments line)).getD [] ++
      joinedSegments (line + lineCount p.code.toList + 1) rest

/-- Pieces joined by line breaks. There is a map when some piece has one. -/
def joinPieces (pieces : List Piece) : Piece :=
  let maps := pieces.filterMap (·.map)
  { code := "\n".intercalate (pieces.map (·.code))
    map :=
      if maps.isEmpty then none
      else
        some (SourceMap.ofSegments (maps.flatMap (·.sourceNames))
          ((maps.flatMap (·.contentUpdates)).filter (·.2.isSome)) (joinedSegments 0 pieces)) }

end FlatBundle
