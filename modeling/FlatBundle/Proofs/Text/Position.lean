import FlatBundle.Text.Position

/-!
Byte offsets: where a text may be cut.
-/

namespace FlatBundle

variable {source before after : List Char} {offset : Nat}

@[simp]
theorem byteLength_nil : byteLength [] = 0 :=
  rfl

@[simp]
theorem byteLength_cons {c : Char} : byteLength (c :: before) = c.utf8Size + byteLength before :=
  rfl

@[simp]
theorem byteLength_append :
    byteLength (before ++ after) = byteLength before + byteLength after := by
  induction before with
  | nil => rw [List.nil_append, byteLength_nil, Nat.zero_add]
  | cons c before ih => rw [List.cons_append, byteLength_cons, byteLength_cons, ih, Nat.add_assoc]

theorem length_le_byteLength : source.length ≤ byteLength source := by
  induction source with
  | nil => exact Nat.le_refl 0
  | cons c source ih =>
    have hc : 0 < c.utf8Size := c.utf8Size_pos
    rw [List.length_cons, byteLength_cons]
    omega

/-- `rest` is what a text holds from a byte offset on. -/
def RestAt (source rest : List Char) (offset : Nat) : Prop :=
  ∃ before, source = before ++ rest ∧ byteLength before = offset

theorem splitAtByte_append :
    splitAtByte (before ++ after) (byteLength before) = some (before, after) := by
  induction before with
  | nil => simp [splitAtByte]
  | cons c before ih =>
    have hc : 0 < c.utf8Size := c.utf8Size_pos
    obtain ⟨n, hn⟩ : ∃ n, byteLength (c :: before) = n + 1 :=
      ⟨c.utf8Size + byteLength before - 1, by simp; omega⟩
    have hle : c.utf8Size ≤ n + 1 := by
      rw [← hn, byteLength_cons]
      omega
    have hsub : n + 1 - c.utf8Size = byteLength before := by
      rw [← hn, byteLength_cons]
      omega
    rw [hn, List.cons_append, splitAtByte, if_pos hle, hsub, ih]
    rfl

theorem append_of_splitAtByte (h : splitAtByte source offset = some (before, after)) :
    source = before ++ after ∧ byteLength before = offset := by
  induction source generalizing offset before with
  | nil =>
    cases offset with
    | zero =>
      cases h
      exact ⟨rfl, rfl⟩
    | succ n => simp [splitAtByte] at h
  | cons c source ih =>
    cases offset with
    | zero =>
      cases h
      exact ⟨rfl, rfl⟩
    | succ n =>
      rw [splitAtByte] at h
      split at h
      · rename_i hle
        obtain ⟨⟨front, back⟩, hsplit, hpair⟩ := Option.map_eq_some_iff.mp h
        cases hpair
        obtain ⟨rfl, hlen⟩ := ih hsplit
        refine ⟨rfl, ?_⟩
        rw [byteLength_cons]
        omega
      · cases h

theorem isBoundary_iff : isBoundary source offset ↔ ∃ rest, RestAt source rest offset := by
  rw [isBoundary, Option.isSome_iff_exists]
  constructor
  · rintro ⟨⟨before, rest⟩, h⟩
    exact ⟨rest, before, append_of_splitAtByte h⟩
  · rintro ⟨rest, before, rfl, rfl⟩
    exact ⟨(before, rest), splitAtByte_append⟩

theorem RestAt.isBoundary {rest : List Char} (h : RestAt source rest offset) :
    isBoundary source offset :=
  isBoundary_iff.mpr ⟨rest, h⟩

theorem isBoundary_byteLength : isBoundary source (byteLength source) :=
  RestAt.isBoundary ⟨source, (List.append_nil source).symm, rfl⟩

theorem le_byteLength_of_isBoundary (h : isBoundary source offset) : offset ≤ byteLength source := by
  obtain ⟨rest, before, rfl, rfl⟩ := isBoundary_iff.mp h
  rw [byteLength_append]
  exact Nat.le_add_right _ _

theorem RestAt.append (part : List Char) {rest : List Char}
    (h : RestAt source (part ++ rest) offset) :
    RestAt source rest (offset + byteLength part) := by
  obtain ⟨before, rfl, rfl⟩ := h
  exact ⟨before ++ part, by simp, by simp⟩

/-- What is left of a text tells the place. -/
theorem RestAt.offset_eq {rest : List Char} {offset' : Nat} (h : RestAt source rest offset)
    (h' : RestAt source rest offset') : offset = offset' := by
  obtain ⟨before, hbefore, rfl⟩ := h
  obtain ⟨before', hbefore', rfl⟩ := h'
  rw [List.append_cancel_right (hbefore.symm.trans hbefore')]

theorem RestAt.sliceBytes {part rest : List Char} (h : RestAt source (part ++ rest) offset) :
    sliceBytes source offset (offset + byteLength part) = some part := by
  obtain ⟨before, rfl, rfl⟩ := h
  simp [FlatBundle.sliceBytes, splitAtByte_append]

theorem byteLength_eq_zero_iff : byteLength before = 0 ↔ before = [] := by
  cases before with
  | nil => simp
  | cons c before =>
    have hc : 0 < c.utf8Size := c.utf8Size_pos
    rw [byteLength_cons]
    simp
    omega

/-- What a text holds between two places. -/
theorem RestAt.exists_between {rest rest' : List Char} {offset' : Nat} (h : RestAt source rest offset)
    (h' : RestAt source rest' offset') (hle : offset ≤ offset') :
    ∃ part, rest = part ++ rest' ∧ byteLength part = offset' - offset := by
  obtain ⟨before, hbefore, rfl⟩ := h
  obtain ⟨before', hbefore', rfl⟩ := h'
  rcases List.append_eq_append_iff.mp (hbefore.symm.trans hbefore') with
    ⟨part, rfl, rfl⟩ | ⟨part, rfl, rfl⟩
  · exact ⟨part, rfl, by simp⟩
  · have hpart : part = [] := by
      rw [← byteLength_eq_zero_iff]
      rw [byteLength_append] at hle
      omega
    exact ⟨[], by simp [hpart], by simp [hpart]⟩

/-- The less of a text is left at a place, the further on it is. -/
theorem RestAt.lt_of_length_lt {rest rest' : List Char} {offset' : Nat} (h : RestAt source rest offset)
    (h' : RestAt source rest' offset') (hlt : rest'.length < rest.length) : offset < offset' := by
  refine Nat.lt_of_not_le fun hle => ?_
  obtain ⟨part, rfl, -⟩ := h'.exists_between h hle
  rw [List.length_append] at hlt
  omega

end FlatBundle
