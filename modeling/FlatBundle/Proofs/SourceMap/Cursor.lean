import FlatBundle.Proofs.SourceMap.Mappings
import FlatBundle.Proofs.Text.Column

/-!
Two ways to the position of a byte offset: by an index of the lines of a whole text, and by a cursor that goes over
the text piece by piece.
-/

namespace FlatBundle

variable {s : List Char} {pieces : List (List Char)} {offset offset' : Nat} {p : Position}

/-- What a text holds since its last line break. -/
def IsLastLine (s line : List Char) : Prop :=
  '\n' ∉ line ∧ (s = line ∨ ∃ front, s = front ++ '\n' :: line)

theorem isLastLine_lastLine (s : List Char) : IsLastLine s (lastLine s) := by
  refine ⟨not_mem_lastLine, ?_⟩
  by_cases h : '\n' ∈ s
  · exact .inr (exists_break h)
  · exact .inl (lastLine_of_not_mem h).symm

namespace Position

/-- A cursor comes to the same place however the text is cut. -/
theorem foldl_advanceBy : pieces.foldl advanceBy p = p.advanceBy pieces.flatten := by
  induction pieces generalizing p with
  | nil => rfl
  | cons piece pieces ih => rw [List.foldl_cons, ih, List.flatten_cons, advanceBy_append]

theorem isWord_advanceBy_start (h : byteLength s < wordCount) : (advanceBy {} s).IsWord := by
  obtain ⟨front, hs, -⟩ := exists_front s
  have hline : byteLength (lastLine s) ≤ byteLength s := by
    conv_rhs => rw [hs, byteLength_append]
    exact Nat.le_add_left _ _
  rw [advanceBy_start]
  exact ⟨(List.count_le_length.trans length_le_byteLength).trans_lt h,
    (width16_le_byteLength.trans hline).trans_lt h⟩

end Position

theorem RestAt.before_positionAt {rest rest' : List Char} (h : RestAt s rest offset)
    (h' : RestAt s rest' offset') (hlt : offset < offset') :
    (positionAt s offset).Before (positionAt s offset') := by
  obtain ⟨part, rfl, hpart⟩ := h.exists_between h' hlt.le
  have hne : part ≠ [] := by
    rw [ne_eq, ← byteLength_eq_zero_iff]
    omega
  obtain ⟨before, rfl, rfl⟩ := h
  have hoffset : offset' = byteLength (before ++ part) := by
    rw [byteLength_append]
    omega
  rw [hoffset, positionAt_append, ← List.append_assoc, positionAt_append, Position.advanceBy_append]
  exact Position.before_advanceBy hne

/-- An index of the lines of a text tells, for each place between two characters, the number of line breaks before it
and the UTF-16 length of what follows the last of them, which grows from each place to the next. A cursor that goes
over the text, cut in any way, ends where the index says that the text ends. No number on the way needs more than the
32 bits that there are. -/
theorem index_and_cursor_agree (h : byteLength s < wordCount) :
    (∀ offset, isBoundary s offset → ∃ before after line, s = before ++ after ∧ byteLength before = offset ∧
      IsLastLine before line ∧ positionAt s offset = ⟨before.count '\n', width16 line⟩) ∧
    (∀ offset offset', isBoundary s offset → isBoundary s offset' → offset < offset' →
      (positionAt s offset).Before (positionAt s offset')) ∧
    (∀ pieces : List (List Char), pieces.flatten = s →
      pieces.foldl Position.advanceBy {} = positionAt s (byteLength s)) ∧
    (∀ start ∈ lineStarts 0 s, start < wordCount) ∧
    (∀ offset, isBoundary s offset → (positionAt s offset).IsWord) ∧
    ∀ front back : List (List Char), (front ++ back).flatten = s → (front.foldl Position.advanceBy {}).IsWord := by
  refine ⟨fun offset ho => ?_, fun offset offset' ho ho' hlt => ?_, fun pieces hpieces => ?_, fun start hstart => ?_,
    fun offset ho => ?_, fun front back hs => ?_⟩
  · obtain ⟨rest, before, rfl, rfl⟩ := isBoundary_iff.mp ho
    refine ⟨before, rest, lastLine before, rfl, rfl, isLastLine_lastLine before, ?_⟩
    rw [positionAt_append, Position.advanceBy_start]
    rfl
  · obtain ⟨rest, hrest⟩ := isBoundary_iff.mp ho
    obtain ⟨rest', hrest'⟩ := isBoundary_iff.mp ho'
    exact hrest.before_positionAt hrest' hlt
  · have hend := @positionAt_append s []
    rw [List.append_nil] at hend
    rw [Position.foldl_advanceBy, hpieces, hend]
  · have := (bounds_of_mem_lineStarts hstart).2
    omega
  · obtain ⟨rest, before, rfl, rfl⟩ := isBoundary_iff.mp ho
    rw [byteLength_append] at h
    rw [positionAt_append]
    exact Position.isWord_advanceBy_start (by omega)
  · have hfront : byteLength front.flatten < wordCount := by
      rw [← hs, List.flatten_append, byteLength_append] at h
      omega
    rw [Position.foldl_advanceBy]
    exact Position.isWord_advanceBy_start hfront

/-- Lines of ASCII, an empty one, and one that begins with a letter of two bytes, cut within lines and after breaks. -/
theorem index_and_cursor_agree_mixedLines :
    let s := "ab\ncd\n\nλx".toList
    byteLength s < wordCount ∧ isBoundary s 9 ∧ (positionAt s 7).Before (positionAt s 9) ∧
      positionAt s 9 = ⟨3, 1⟩ ∧
      ["ab\nc".toList, [], "d\n".toList, "\nλ".toList, "x".toList].foldl Position.advanceBy {} = ⟨3, 2⟩ := by
  intro s
  have hwords : byteLength s < wordCount := by decide
  obtain ⟨-, hbefore, hcursor, -⟩ := index_and_cursor_agree hwords
  refine ⟨hwords, by decide, hbefore 7 9 (by decide) (by decide) (by decide), by decide, ?_⟩
  rw [hcursor _ (by decide)]
  decide

end FlatBundle
