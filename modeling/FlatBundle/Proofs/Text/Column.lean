import FlatBundle.Proofs.Text.Position
import Mathlib.Data.List.Induction
import Mathlib.Data.List.TakeWhile

/-!
Lines and columns: how positions go on along a text, and which position a byte offset has.
-/

namespace FlatBundle

variable {s before after : List Char} {c : Char} {p q r : Position} {offset lines k : Nat}

section Width

/-- A text of a line, in UTF-16 code units. -/
def width16 (s : List Char) : Nat :=
  s.foldr (units16 · + ·) 0

@[simp]
theorem width16_cons : width16 (c :: s) = units16 c + width16 s :=
  rfl

theorem width16_append : width16 (before ++ after) = width16 before + width16 after := by
  induction before with
  | nil => exact (Nat.zero_add _).symm
  | cons c before ih => rw [List.cons_append, width16_cons, width16_cons, ih, Nat.add_assoc]

theorem units16_le_utf8Size : units16 c ≤ c.utf8Size := by
  have hpos : 0 < c.utf8Size := c.utf8Size_pos
  rw [units16]
  split
  · exact hpos
  · next h =>
    rw [Char.utf8Size]
    split
    · next hle => exact absurd ((UInt32.le_iff_toNat_le.mp hle).trans_lt (by decide)) h
    · split <;> [decide; split <;> decide]

theorem width16_le_byteLength : width16 s ≤ byteLength s := by
  induction s with
  | nil => exact Nat.le_refl 0
  | cons c s ih => exact Nat.add_le_add units16_le_utf8Size ih

theorem utf8Size_of_ascii (h : c.toNat < 0x80) : c.utf8Size = 1 := by
  rw [Char.utf8Size, if_pos]
  rw [UInt32.le_iff_toNat_le]
  exact Nat.le_of_lt_succ h

theorem units16_of_ascii (h : c.toNat < 0x80) : units16 c = 1 :=
  if_pos (Nat.lt_trans h (by decide))

theorem width16_of_ascii (h : ∀ c ∈ s, c.toNat < 0x80) : width16 s = byteLength s := by
  induction s with
  | nil => rfl
  | cons c s ih =>
    obtain ⟨hc, hs⟩ := List.forall_mem_cons.mp h
    rw [width16_cons, byteLength_cons, units16_of_ascii hc, utf8Size_of_ascii hc, ih hs]

/-- Counting bytes instead makes no difference to a text of ASCII. -/
@[simp]
theorem utf16Length_eq_width16 : utf16Length s = width16 s := by
  rw [utf16Length]
  split
  · next h => exact (width16_of_ascii (by simpa using h)).symm
  · rfl

end Width

section LastLine

theorem lastLine_of_not_mem (h : '\n' ∉ s) : lastLine s = s := by
  rw [lastLine, List.takeWhile_eq_self_iff.mpr, List.reverse_reverse]
  intro c hc
  simpa using ne_of_mem_of_not_mem (List.mem_reverse.mp hc) h

/-- Text without a line break goes on with the last line. -/
theorem lastLine_append_of_not_mem (h : '\n' ∉ after) :
    lastLine (before ++ after) = lastLine before ++ after := by
  rw [lastLine, List.reverse_append, List.takeWhile_append_of_pos, List.reverse_append,
    List.reverse_reverse, lastLine]
  intro c hc
  simpa using ne_of_mem_of_not_mem (List.mem_reverse.mp hc) h

/-- Of text with a line break only what follows its last one counts. -/
theorem lastLine_append_of_mem (h : '\n' ∈ after) :
    lastLine (before ++ after) = lastLine after := by
  rw [lastLine, List.reverse_append, List.takeWhile_append, if_neg, lastLine]
  intro hlength
  have hall := List.takeWhile_eq_self_iff.mp
    ((List.takeWhile_prefix _).eq_of_length hlength)
  simpa using hall '\n' (List.mem_reverse.mpr h)

theorem not_mem_lastLine : '\n' ∉ lastLine s := by
  rw [lastLine, List.mem_reverse]
  intro h
  simpa using List.mem_takeWhile_imp h

theorem exists_break (h : '\n' ∈ s) : ∃ front, s = front ++ '\n' :: lastLine s := by
  obtain ⟨line, front, hs, hline⟩ := List.eq_append_cons_of_mem (List.mem_reverse.mpr h)
  have hs' : s = front.reverse ++ ['\n'] ++ line.reverse := by
    rw [← List.reverse_reverse s, hs]
    simp
  refine ⟨front.reverse, ?_⟩
  conv_rhs => rw [hs', lastLine_append_of_not_mem (by simpa using hline),
    lastLine_append_of_mem (List.mem_singleton_self _)]
  rw [hs', List.append_assoc]
  rfl

end LastLine

namespace Position

/-- Strictly before, in reading order. -/
def Before (p q : Position) : Prop :=
  p.line < q.line ∨ p.line = q.line ∧ p.column < q.column

theorem not_before_self : ¬p.Before p := by
  unfold Before
  omega

theorem Before.trans (hpq : p.Before q) (hqr : q.Before r) : p.Before r := by
  unfold Before at *
  omega

theorem Before.line_le (h : p.Before q) : p.line ≤ q.line := by
  unfold Before at h
  omega

theorem le_iff : p.le q ↔ ¬q.Before p := by
  unfold le Before
  simp
  omega

theorem le_refl (p : Position) : p.le p :=
  le_iff.mpr not_before_self

theorem Before.le (h : p.Before q) : p.le q :=
  le_iff.mpr fun hqp => not_before_self (h.trans hqp)

theorem Before.trans_le (hpq : p.Before q) (hqr : q.le r) : p.Before r := by
  rw [le_iff] at hqr
  unfold Before at *
  omega

theorem le_trans_before (hpq : p.le q) (hqr : q.Before r) : p.Before r := by
  rw [le_iff] at hpq
  unfold Before at *
  omega

theorem le_trans (hpq : p.le q) (hqr : q.le r) : p.le r :=
  le_iff.mpr fun h => le_iff.mp hpq (le_trans_before hqr h)

theorem le_total (p q : Position) : (p.le q || q.le p) = true := by
  rw [Bool.or_eq_true, le_iff, le_iff, ← not_and_or]
  exact fun h => not_before_self (h.1.trans h.2)

theorem Before.ne (h : p.Before q) : p ≠ q := by
  rintro rfl
  exact not_before_self h

theorem before_of_le (h : p.le q) (hne : p ≠ q) : p.Before q := by
  cases p
  cases q
  rw [le_iff] at h
  simp only [Before, ne_eq, mk.injEq] at *
  omega

theorem before_advance : p.Before (p.advance c) := by
  have hunits : 0 < units16 c := by
    unfold units16
    split <;> omega
  unfold advance Before
  split
  · exact .inl (Nat.lt_succ_self _)
  · exact .inr ⟨rfl, Nat.lt_add_of_pos_right hunits⟩

@[simp]
theorem advanceBy_nil : p.advanceBy [] = p :=
  rfl

theorem advanceBy_of_mem (h : '\n' ∈ s) :
    p.advanceBy s = ⟨p.line + lineCount s, width16 (lastLine s)⟩ := by
  rw [advanceBy, if_pos h, utf16Length_eq_width16]

theorem advanceBy_of_not_mem (h : '\n' ∉ s) : p.advanceBy s = ⟨p.line, p.column + width16 s⟩ := by
  rw [advanceBy, if_neg h, utf16Length_eq_width16]

theorem line_advanceBy : (p.advanceBy s).line = p.line + lineCount s := by
  by_cases h : '\n' ∈ s
  · rw [advanceBy_of_mem h]
  · rw [advanceBy_of_not_mem h, lineCount, List.count_eq_zero.mpr h, Nat.add_zero]

/-- It does not matter where a text is cut. -/
@[simp]
theorem advanceBy_append :
    p.advanceBy (before ++ after) = (p.advanceBy before).advanceBy after := by
  have hlines : lineCount (before ++ after) = lineCount before + lineCount after :=
    List.count_append
  by_cases hafter : '\n' ∈ after
  · have hline : (p.advanceBy before).line = p.line + lineCount before := line_advanceBy
    rw [advanceBy_of_mem (List.mem_append_right before hafter), advanceBy_of_mem hafter, hline,
      hlines, lastLine_append_of_mem hafter, Nat.add_assoc]
  · have hnone : lineCount after = 0 := List.count_eq_zero.mpr hafter
    rw [advanceBy_of_not_mem hafter]
    by_cases hbefore : '\n' ∈ before
    · rw [advanceBy_of_mem (List.mem_append_left after hbefore), advanceBy_of_mem hbefore, hlines,
        hnone, lastLine_append_of_not_mem hafter, width16_append, Nat.add_zero]
    · have hboth : '\n' ∉ before ++ after := by simp [hbefore, hafter]
      rw [advanceBy_of_not_mem hboth, advanceBy_of_not_mem hbefore, width16_append, Nat.add_assoc]

@[simp]
theorem advanceBy_cons : p.advanceBy (c :: s) = (p.advance c).advanceBy s := by
  have hc : p.advanceBy [c] = p.advance c := by
    rw [advance]
    split
    · next h =>
      rw [h]
      rfl
    · next h =>
      rw [advanceBy_of_not_mem (by simpa using Ne.symm h)]
      rfl
  rw [← hc, ← advanceBy_append, List.singleton_append]

theorem advanceBy_start : advanceBy {} s = ⟨lineCount s, width16 (lastLine s)⟩ := by
  by_cases h : '\n' ∈ s
  · rw [advanceBy_of_mem h, Nat.zero_add]
  · rw [advanceBy_of_not_mem h, lastLine_of_not_mem h, Nat.zero_add, lineCount,
      List.count_eq_zero.mpr h]

theorem le_advanceBy : p.le (p.advanceBy s) := by
  rw [le_iff]
  induction s generalizing p with
  | nil => exact not_before_self
  | cons c s ih =>
    rw [advanceBy_cons]
    exact fun h => ih (h.trans before_advance)

theorem before_advanceBy (h : s ≠ []) : p.Before (p.advanceBy s) := by
  cases s with
  | nil => exact absurd rfl h
  | cons c s =>
    rw [advanceBy_cons]
    exact before_advance.trans_le le_advanceBy

/-- The position some lines further down. -/
def below (p : Position) (lines : Nat) : Position :=
  ⟨p.line + lines, p.column⟩

theorem before_below_iff : (p.below lines).Before (q.below lines) ↔ p.Before q := by
  unfold Before below
  dsimp only
  omega

theorem le_below_iff : (p.below lines).le (q.below lines) ↔ p.le q := by
  rw [le_iff, le_iff, before_below_iff]

theorem below_advanceBy : (p.below lines).advanceBy s = (p.advanceBy s).below lines := by
  induction s generalizing p with
  | nil => rfl
  | cons c s ih =>
    have hstep : (p.below lines).advance c = (p.advance c).below lines := by
      unfold advance below
      split <;> simp
      omega
    rw [advanceBy_cons, hstep, ih, advanceBy_cons]

end Position

theorem lineStarts_append : lineStarts offset (before ++ after) =
    lineStarts offset before ++ lineStarts (offset + byteLength before) after := by
  induction before generalizing offset with
  | nil => rfl
  | cons c before ih =>
    rw [List.cons_append, lineStarts, lineStarts, ih, byteLength_cons, Nat.add_assoc]
    split <;> rfl

theorem bounds_of_mem_lineStarts (h : k ∈ lineStarts offset s) :
    offset < k ∧ k ≤ offset + byteLength s := by
  induction s generalizing offset with
  | nil => cases h
  | cons c s ih =>
    have hc : 0 < c.utf8Size := c.utf8Size_pos
    have hrest (h : k ∈ lineStarts (offset + c.utf8Size) s) :
        offset < k ∧ k ≤ offset + byteLength (c :: s) := by
      obtain ⟨hlt, hle⟩ := ih h
      rw [byteLength_cons]
      omega
    rw [lineStarts] at h
    split at h
    · rcases List.mem_cons.mp h with rfl | h
      · rw [byteLength_cons]
        omega
      · exact hrest h
    · exact hrest h

theorem mem_lineStarts_iff : k ∈ lineStarts offset s ↔
    ∃ before after, s = before ++ '\n' :: after ∧ k = offset + byteLength before + 1 := by
  induction s generalizing offset with
  | nil => simp [lineStarts]
  | cons c s ih =>
    have hlater : (k ∈ lineStarts (offset + c.utf8Size) s) ↔ ∃ before after,
        c :: s = c :: before ++ '\n' :: after ∧ k = offset + byteLength (c :: before) + 1 := by
      rw [ih]
      simp [Nat.add_assoc]
    rw [lineStarts]
    split
    next hc =>
      rw [List.mem_cons, hlater]
      constructor
      · rintro (rfl | ⟨before, after, hs, rfl⟩)
        · exact ⟨[], s, by rw [hc]; rfl, by rw [hc]; rfl⟩
        · exact ⟨c :: before, after, hs, rfl⟩
      · rintro ⟨before, after, hs, rfl⟩
        cases before with
        | nil => exact .inl (by rw [hc]; rfl)
        | cons d before =>
          obtain rfl := (List.cons.inj hs).1
          exact .inr ⟨before, after, hs, rfl⟩
    next hc =>
      rw [hlater]
      constructor
      · rintro ⟨before, after, hs, rfl⟩
        exact ⟨c :: before, after, hs, rfl⟩
      · rintro ⟨before, after, hs, rfl⟩
        cases before with
        | nil => exact absurd (List.cons.inj hs).1 hc
        | cons d before =>
          obtain rfl := (List.cons.inj hs).1
          exact ⟨before, after, hs, rfl⟩

/-- A line starts between two characters. -/
theorem isBoundary_of_mem_lineStarts (h : k ∈ lineStarts 0 s) : isBoundary s k := by
  obtain ⟨before, after, rfl, rfl⟩ := mem_lineStarts_iff.mp h
  exact isBoundary_iff.mpr ⟨after, before ++ ['\n'], by simp, by simp; rfl⟩

theorem length_lineStarts : (lineStarts offset s).length = lineCount s := by
  induction s generalizing offset with
  | nil => rfl
  | cons c s ih =>
    rw [lineStarts, lineCount, List.count_cons]
    split
    · next hc => simp [hc, ih, lineCount]
    · next hc => simp [hc, ih, lineCount]

/-- Where the last line of a text starts. -/
theorem exists_front (s : List Char) : ∃ front, s = front ++ lastLine s ∧
    (0 :: lineStarts 0 s)[lineCount s]? = some (byteLength front) := by
  induction s using List.reverseRecOn with
  | nil => exact ⟨[], rfl, rfl⟩
  | append_singleton s c ih =>
    obtain ⟨front, hs, hstart⟩ := ih
    have hcount : lineCount (s ++ [c]) = lineCount s + lineCount [c] := List.count_append
    rw [lineStarts_append, hcount, lineStarts, lineStarts]
    by_cases hc : c = '\n'
    · refine ⟨s ++ [c], ?_, ?_⟩
      · rw [lastLine_append_of_mem (by simp [hc]), hc]
        exact (List.append_nil _).symm
      · rw [if_pos hc, ← List.cons_append, ← @length_lineStarts s 0, hc]
        simp [lineCount]
    · refine ⟨front, ?_, ?_⟩
      · rw [lastLine_append_of_not_mem (by simpa using Ne.symm hc), ← List.append_assoc, ← hs]
      · simpa [hc, lineCount] using hstart

section PartitionPoint

variable {test : Nat → Bool} {xs : Array Nat} {front back : List Nat} {rounds low high : Nat}

theorem search_eq (htest : ∀ i < xs.size, test xs[i]! ↔ i < k) (hlow : low ≤ k) (hhigh : k ≤ high)
    (hsize : high ≤ xs.size) (hrounds : high - low ≤ rounds) :
    partitionPoint.search test xs rounds low high = k := by
  induction rounds generalizing low high with
  | zero =>
    rw [partitionPoint.search]
    omega
  | succ rounds ih =>
    rw [partitionPoint.search]
    split
    · have hmiddle := htest (low + (high - low) / 2) (by omega)
      dsimp only
      split
      · next h =>
        have := hmiddle.mp h
        exact ih (by omega) hhigh hsize (by omega)
      · next h =>
        have := mt hmiddle.mpr h
        exact ih hlow (by omega) (by omega) (by omega)
    · omega

/-- The search finds where the numbers that pass end. -/
theorem partitionPoint_append (hfront : ∀ n ∈ front, test n) (hback : ∀ n ∈ back, ¬test n) :
    partitionPoint test (front ++ back).toArray = front.length := by
  refine search_eq (fun i hi => ?_) (Nat.zero_le _) (by simp) (Nat.le_refl _) (Nat.sub_le _ _)
  have hi' : i < (front ++ back).length := hi
  rw [getElem!_pos _ i hi, List.getElem_toArray, List.getElem_append]
  split
  · next h => exact iff_of_true (hfront _ (List.getElem_mem _)) h
  · next h => exact iff_of_false (hback _ (List.getElem_mem _)) h

end PartitionPoint

theorem positionAt_append :
    positionAt (before ++ after) (byteLength before) = Position.advanceBy {} before := by
  obtain ⟨front, hbefore, hstart⟩ := exists_front before
  have hpoint : partitionPoint (· ≤ byteLength before) (0 :: lineStarts 0 (before ++ after)).toArray =
      lineCount before + 1 := by
    rw [lineStarts_append, ← List.cons_append, partitionPoint_append, List.length_cons,
      length_lineStarts]
    · intro k hk
      rcases List.mem_cons.mp hk with rfl | hk
      · simp
      · have := bounds_of_mem_lineStarts hk
        simp
        omega
    · intro k hk
      have := bounds_of_mem_lineStarts hk
      simp
      omega
  have hline : (0 :: lineStarts 0 (before ++ after)).toArray[lineCount before]! =
      byteLength front := by
    have hlt : lineCount before < (0 :: lineStarts 0 before).length := by
      rw [List.length_cons, length_lineStarts]
      exact Nat.lt_succ_self _
    rw [lineStarts_append, ← List.cons_append, List.getElem!_toArray,
      List.getElem!_eq_getElem?_getD, List.getElem?_append_left hlt, hstart]
    rfl
  have hslice : sliceBytes (before ++ after) (byteLength front)
      (min (byteLength before) (byteLength (before ++ after))) = some (lastLine before) := by
    have hmin : min (byteLength before) (byteLength (before ++ after)) =
        byteLength front + byteLength (lastLine before) := by
      rw [byteLength_append, Nat.min_eq_left (Nat.le_add_right _ _), ← byteLength_append, ← hbefore]
    have hat : RestAt (before ++ after) (lastLine before ++ after) (byteLength front) :=
      ⟨front, by rw [← List.append_assoc, ← hbefore], rfl⟩
    rw [hmin, hat.sliceBytes]
  rw [positionAt, hpoint, Nat.add_sub_cancel, hline, hslice, Position.advanceBy_start]
  exact congrArg _ utf16Length_eq_width16

end FlatBundle
