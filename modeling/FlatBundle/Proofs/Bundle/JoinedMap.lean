import FlatBundle.Proofs.Bundle.Lines

/-!
The map of joined pieces: each piece is looked up in it as in its own map, only further down, and each source
is listed once, with the last content that is given for it.
-/

namespace FlatBundle

variable {pieces : List Piece} {p : Piece} {k line : Nat} {s : Segment} {map joined : SourceMap} {t : Mapping}
  {place : Position} {updates : List (String × Option String)} {name : String}

section Order

end Order

section Sources

/-- The sources of all pieces, as they are listed. -/
def listedSources (pieces : List Piece) : List String :=
  (pieces.filterMap (·.map)).flatMap (·.sourceNames)

/-- What the pieces give as contents of sources, one after the other. -/
def givenContents (pieces : List Piece) : List (String × Option String) :=
  (pieces.filterMap (·.map)).flatMap (·.contentUpdates)

/-- There is a map when some piece has one. -/
theorem map_eq_some_iff : (joinPieces pieces).map = some joined ↔ (∃ p ∈ pieces, p.map.isSome) ∧
    joined = .ofSegments (listedSources pieces) ((givenContents pieces).filter (·.2.isSome))
      (joinedSegments 0 pieces) := by
  have hempty : (pieces.filterMap (·.map)).isEmpty ↔ ¬∃ p ∈ pieces, p.map.isSome := by
    simp [List.isEmpty_iff]
  refine Option.ite_none_left_eq_some.trans (and_congr ?_ ?_)
  · rw [hempty, not_not]
  · exact Option.some_inj.trans eq_comm

end Sources

end FlatBundle
