import FlatBundle.Proofs.Bundle.Pieces
import FlatBundle.Proofs.Edit.Apply

/-!
Pieces one below the other: where each one starts, which lines are its own, and the tokens there.
-/

namespace FlatBundle

variable {pieces : List Piece} {p q : Piece} {j k line : Nat} {before after code more : List Char}
  {s : Segment} {map : SourceMap} {place : Position}

/-- The byte offset of a piece in the joined text. -/
def startOffset (pieces : List Piece) (k : Nat) : Nat :=
  ((pieces.take k).map fun p => byteLength p.code.toList + 1).sum

/-- The line that a piece starts on. -/
def firstLine (pieces : List Piece) (k : Nat) : Nat :=
  ((pieces.take k).map fun p => lineCount p.code.toList + 1).sum

theorem toList_code_joinPieces (p q : Piece) (rest : List Piece) :
    (joinPieces (p :: q :: rest)).code.toList =
      p.code.toList ++ ['\n'] ++ (joinPieces (q :: rest)).code.toList := by
  simp [joinPieces]

theorem firstLine_succ (h : pieces[k]? = some p) :
    firstLine pieces (k + 1) = firstLine pieces k + (lineCount p.code.toList + 1) := by
  simp [firstLine, List.take_add_one, h]

theorem firstLine_mono (h : j ≤ k) : firstLine pieces j ≤ firstLine pieces k := by
  obtain ⟨d, rfl⟩ := Nat.exists_eq_add_of_le h
  rw [firstLine, firstLine, List.take_add, List.map_append, List.sum_append]
  exact Nat.le_add_right _ _

/-- Pieces further up have their lines above. -/
theorem firstLine_lt (hj : pieces[j]? = some q) (hjk : j < k) :
    firstLine pieces j + lineCount q.code.toList < firstLine pieces k := by
  have hnext := firstLine_succ hj
  have hmono : firstLine pieces (j + 1) ≤ firstLine pieces k := firstLine_mono hjk
  omega

theorem advanceBy_line (text : List Char) :
    Position.advanceBy {} (text ++ ['\n']) = Position.below {} (lineCount text + 1) := by
  rw [Position.advanceBy_append, Position.advanceBy_cons, Position.advance, if_pos rfl,
    Position.line_advanceBy]
  simp [Position.below]

/-- The text above a piece. -/
def textAbove (pieces : List Piece) (k : Nat) : List Char :=
  (pieces.take k).flatMap fun p => p.code.toList ++ ['\n']

theorem textAbove_succ (first : Piece) (rest : List Piece) (k : Nat) :
    textAbove (first :: rest) (k + 1) = first.code.toList ++ ['\n'] ++ textAbove rest k :=
  rfl

theorem exists_code_eq (h : pieces[k]? = some p) : ∃ below,
    (joinPieces pieces).code.toList = textAbove pieces k ++ (p.code.toList ++ below) := by
  induction pieces generalizing k with
  | nil => cases h
  | cons first rest ih =>
    cases k with
    | zero =>
      obtain rfl : first = p := by simpa using h
      cases rest with
      | nil => exact ⟨[], by simp [joinPieces, textAbove]⟩
      | cons next rest => exact ⟨_, by simpa [textAbove] using toList_code_joinPieces first next rest⟩
    | succ k =>
      obtain ⟨below, hcode⟩ := ih (k := k) (by simpa using h)
      cases rest with
      | nil => cases h
      | cons next rest =>
        refine ⟨below, ?_⟩
        rw [toList_code_joinPieces, hcode, textAbove_succ]
        simp

theorem byteLength_textAbove : byteLength (textAbove pieces k) = startOffset pieces k := by
  have hnewline : byteLength ['\n'] = 1 := rfl
  induction pieces generalizing k with
  | nil => simp [textAbove, startOffset]
  | cons first rest ih =>
    cases k with
    | zero => rfl
    | succ k =>
      rw [textAbove_succ, byteLength_append, byteLength_append, ih, hnewline]
      rfl

/-- Above a piece are whole lines. -/
theorem advanceBy_textAbove :
    Position.advanceBy {} (textAbove pieces k) = Position.below {} (firstLine pieces k) := by
  induction pieces generalizing k with
  | nil => simp [textAbove, firstLine, Position.below]
  | cons first rest ih =>
    cases k with
    | zero => rfl
    | succ k =>
      rw [textAbove_succ, Position.advanceBy_append, advanceBy_line, Position.below_advanceBy, ih]
      simp [Position.below, firstLine, Nat.add_comm]

/-- Positions in a piece are those in its own text, moved down. -/
theorem positionAt_piece (h : pieces[k]? = some p)
    (hcode : code = (joinPieces pieces).code.toList ++ more) (hp : p.code.toList = before ++ after) :
    (∃ rest, RestAt code (after ++ rest) (startOffset pieces k + byteLength before)) ∧
      positionAt code (startOffset pieces k + byteLength before) =
        (Position.advanceBy {} before).below (firstLine pieces k) := by
  obtain ⟨below, hjoined⟩ := exists_code_eq h
  have hsplit : code = (textAbove pieces k ++ before) ++ (after ++ (below ++ more)) := by
    rw [hcode, hjoined, hp]
    simp
  have hbytes : startOffset pieces k + byteLength before = byteLength (textAbove pieces k ++ before) := by
    rw [byteLength_append, byteLength_textAbove]
  refine ⟨⟨below ++ more, textAbove pieces k ++ before, hsplit, hbytes.symm⟩, ?_⟩
  rw [hbytes, hsplit, positionAt_append, Position.advanceBy_append, advanceBy_textAbove,
    Position.below_advanceBy]

/-- A line of a text on which some of a piece is, if only its end. -/
def OnLinesOf (code : List Char) (pieces : List Piece) (k : Nat) (p : Piece) (line : Nat) : Prop :=
  (positionAt code (startOffset pieces k)).line ≤ line ∧
    line ≤ (positionAt code (startOffset pieces k + byteLength p.code.toList)).line

theorem onLinesOf_iff (h : pieces[k]? = some p)
    (hcode : code = (joinPieces pieces).code.toList ++ more) :
    OnLinesOf code pieces k p line ↔
      firstLine pieces k ≤ line ∧ line ≤ firstLine pieces k + lineCount p.code.toList := by
  have hstart := (positionAt_piece h hcode (List.nil_append _).symm).2
  have hend := (positionAt_piece h hcode (List.append_nil _).symm).2
  rw [byteLength_nil, Nat.add_zero] at hstart
  rw [OnLinesOf, hstart, hend, Position.below, Position.below, Position.line_advanceBy,
    Position.line_advanceBy, Nat.add_comm _ (firstLine pieces k), Nat.add_comm _ (firstLine pieces k)]
  simp [lineCount]

/-- A line is of one piece only. -/
theorem eq_of_onLinesOf (hk : pieces[k]? = some p) (hj : pieces[j]? = some q)
    (hcode : code = (joinPieces pieces).code.toList ++ more) (h : OnLinesOf code pieces k p line)
    (h' : OnLinesOf code pieces j q line) : k = j := by
  rw [onLinesOf_iff hk hcode] at h
  rw [onLinesOf_iff hj hcode] at h'
  rcases Nat.lt_trichotomy k j with hlt | heq | hlt
  · have hlines := firstLine_lt hk hlt
    omega
  · exact heq
  · have hlines := firstLine_lt hj hlt
    omega

/-- The tokens of a piece are on its lines. -/
def Piece.KeepsLines (p : Piece) : Prop :=
  ∀ map, p.map = some map → ∀ s ∈ map.segments, s.generated.line ≤ lineCount p.code.toList

/-- A segment some lines further down. -/
def Segment.below (s : Segment) (lines : Nat) : Segment :=
  { s with generated := s.generated.below lines }

/-- The tokens of joined pieces are those of the pieces, moved down. -/
theorem mem_joinedSegments : s ∈ joinedSegments line pieces ↔
    ∃ (k : Nat) (p : Piece) (map : SourceMap), pieces[k]? = some p ∧ p.map = some map ∧
      ∃ own ∈ map.segments, s = own.below (line + firstLine pieces k) := by
  induction pieces generalizing line with
  | nil => simp [joinedSegments]
  | cons first rest ih =>
    rw [joinedSegments, List.mem_append, ih]
    constructor
    · rintro (h | ⟨k, p, map, hk, hmap, own, hown, rfl⟩)
      · cases hmap : first.map with
        | none => simp [hmap] at h
        | some map =>
          rw [hmap] at h
          obtain ⟨own, hown, rfl⟩ : ∃ own ∈ map.segments, own.below line = s := List.mem_map.mp h
          exact ⟨0, first, map, rfl, hmap, own, hown, rfl⟩
      · refine ⟨k + 1, p, map, hk, hmap, own, hown, ?_⟩
        simp [firstLine, Nat.add_assoc]
    · rintro ⟨k, p, map, hk, hmap, own, hown, rfl⟩
      cases k with
      | zero =>
        obtain rfl : first = p := by simpa using hk
        refine .inl ?_
        rw [hmap]
        exact List.mem_map_of_mem hown
      | succ k =>
        refine .inr ⟨k, p, map, hk, hmap, own, hown, ?_⟩
        simp [firstLine, Nat.add_assoc]

/-- The latest token of a piece is the latest of all. -/
theorem isLatest_joinedSegments (hkeeps : ∀ p ∈ pieces, p.KeepsLines) (hk : pieces[k]? = some p)
    (hmap : p.map = some map) (h : IsLatest Segment.generated map.segments place s)
    (hplace : place.line ≤ lineCount p.code.toList) :
    IsLatest Segment.generated (joinedSegments 0 pieces) (place.below (firstLine pieces k))
      (s.below (firstLine pieces k)) where
  mem := mem_joinedSegments.mpr ⟨k, p, map, hk, hmap, s, h.mem, by rw [Nat.zero_add]⟩
  upTo := Position.le_below_iff.mpr h.upTo
  others other hother := by
    obtain ⟨j, q, map', hj, hmap', own, hown, rfl⟩ := mem_joinedSegments.mp hother
    rw [Nat.zero_add]
    have hq := hkeeps q (List.mem_of_getElem? hj) map' hmap' own hown
    rcases Nat.lt_trichotomy j k with hlt | rfl | hlt
    · have hlines := firstLine_lt hj hlt
      refine .inr (.inl (.inl ?_))
      simp only [Segment.below, Position.below]
      omega
    · cases hj.symm.trans hk
      cases hmap'.symm.trans hmap
      simp only [Segment.below, Position.before_below_iff]
      exact (h.others own hown).imp_left (congrArg fun s => Segment.below s _)
    · have hlines := firstLine_lt hk hlt
      refine .inr (.inr (.inl ?_))
      simp only [Segment.below, Position.below]
      omega

/-- The map of joined pieces has their tokens. -/
theorem exists_joinedMap_eq (pieces : List Piece) : ∃ sources contents,
    (joinPieces pieces).map.getD (.ofSegments [] [] []) =
      .ofSegments sources contents (joinedSegments 0 pieces) := by
  unfold joinPieces
  dsimp only
  split_ifs with hempty
  · have hnone : joinedSegments 0 pieces = [] := by
      rw [List.eq_nil_iff_forall_not_mem]
      intro s hs
      obtain ⟨k, p, map, hk, hmap, -⟩ := mem_joinedSegments.mp hs
      have hmem : map ∈ pieces.filterMap (·.map) :=
        List.mem_filterMap.mpr ⟨p, List.mem_of_getElem? hk, hmap⟩
      rw [List.isEmpty_iff.mp hempty] at hmem
      cases hmem
    exact ⟨[], [], by rw [hnone]; rfl⟩
  · exact ⟨_, _, rfl⟩

end FlatBundle
