import FlatBundle.Proofs.Script.Boundary

/-!
The gaps between tokens: which pieces they are made of, and how far they go if another line follows.
-/

namespace FlatBundle.Script

variable {s y : List Char} {c c' : Cursor} {onNewLine onNewLine' : Bool}

/-- Whether a comment starts here that ends with its line. An arrow closes an HTML comment where it is the
first thing on its line. -/
def startsLineComment (onNewLine : Bool) : List Char → Bool
  | '/' :: '/' :: _ => true
  | '<' :: '!' :: '-' :: '-' :: _ => true
  | '-' :: '-' :: '>' :: _ => onNewLine
  | _ => false

/-- Nothing that stands between tokens starts here. -/
structure AtToken (onNewLine : Bool) (s : List Char) : Prop where
  noLineComment : startsLineComment onNewLine s = false
  noComment : ∀ t, s = '/' :: '*' :: t → False
  dark : ∀ ch t, s = ch :: t → isLineBreak ch = false ∧ isWhiteSpace ch = false

/-- A gap, piece by piece, up to a token. -/
inductive GapTo : Cursor → Bool → Cursor → Bool → Prop
  | token {c : Cursor} {onNewLine : Bool} (here : AtToken onNewLine c.rest) : GapTo c onNewLine c onNewLine
  | lineComment {c c' : Cursor} {onNewLine onNewLine' : Bool} (starts : startsLineComment onNewLine c.rest)
      (later : GapTo (c.skipWhile (!isLineBreak ·)) onNewLine c' onNewLine') :
    GapTo c onNewLine c' onNewLine'
  | comment {c after c' : Cursor} {onNewLine broken onNewLine' : Bool} {s : List Char}
      (starts : c.rest = '/' :: '*' :: s)
      (ends : blockCommentEnd s (c.offset + 2) false = some (after, broken))
      (later : GapTo after (onNewLine || broken) c' onNewLine') : GapTo c onNewLine c' onNewLine'
  | lineBreak {c c' : Cursor} {onNewLine onNewLine' : Bool} {ch : Char} {s : List Char}
      (starts : c.rest = ch :: s) (breaks : isLineBreak ch) (later : GapTo (c.skip 1) true c' onNewLine') :
    GapTo c onNewLine c' onNewLine'
  | white {c c' : Cursor} {onNewLine onNewLine' : Bool} {ch : Char} {s : List Char}
      (starts : c.rest = ch :: s) (blank : isWhiteSpace ch)
      (later : GapTo (c.skipWhile isWhiteSpace) onNewLine c' onNewLine') : GapTo c onNewLine c' onNewLine'

theorem gapTo_of_skipGap {fuel : Nat} {comments : List Span} {g : Gap}
    (h : skipGap fuel c onNewLine comments = some g) : GapTo c onNewLine g.after g.onNewLine := by
  induction fuel generalizing c onNewLine comments with
  | zero => simp [skipGap] at h
  | succ fuel ih =>
    obtain ⟨rest, offset⟩ := c
    rw [skipGap.eq_def] at h
    dsimp only at h
    split at h
    · exact .lineComment rfl (ih h)
    next s =>
      split at h
      · cases h
      next after broken hend => exact .comment rfl hend (ih h)
    · exact .lineComment rfl (ih h)
    next s =>
      split at h
      next hline => exact .lineComment hline (ih h)
      next hline =>
        cases h
        exact .token ⟨by simpa [startsLineComment] using hline, by simp, by simp; decide⟩
    next ch s hslash hstar hopen harrow =>
      split at h
      next hbreak => exact .lineBreak rfl hbreak (ih h)
      next hbreak =>
        split at h
        next hblank => exact .white rfl hblank (ih h)
        next hblank =>
          cases h
          refine .token ⟨?_, fun t ht => ?_, fun ch' t ht => ?_⟩
          · rw [startsLineComment.eq_4 _ _ (by simpa using hslash) (by simpa using hopen)
              (by simpa using harrow)]
          · obtain ⟨rfl, rfl⟩ := List.cons.inj ht
            exact hstar _ rfl rfl
          · obtain ⟨rfl, rfl⟩ := List.cons.inj ht
            exact ⟨by simpa using hbreak, by simpa using hblank⟩
    · cases h
      exact .token ⟨rfl, by simp, by simp⟩

theorem atToken_of_gapTo (h : GapTo c onNewLine c' onNewLine') : AtToken onNewLine' c'.rest := by
  induction h with
  | token here => exact here
  | lineComment _ _ ih => exact ih
  | comment _ _ _ ih => exact ih
  | lineBreak _ _ _ ih => exact ih
  | white _ _ _ ih => exact ih

theorem eq_of_gapTo (hat : AtToken onNewLine c.rest) (h : GapTo c onNewLine c' onNewLine') : c' = c := by
  obtain ⟨hline, hcomment, hdark⟩ := hat
  cases h with
  | token => rfl
  | lineComment starts => simp [hline] at starts
  | comment starts => exact absurd starts (hcomment _)
  | lineBreak starts breaks => simp [(hdark _ _ starts).1] at breaks
  | white starts blank => simp [(hdark _ _ starts).2] at blank

theorem not_isLineBreak_of_isWhiteSpace {ch : Char} (h : isWhiteSpace ch) : isLineBreak ch = false := by
  cases hbreak : isLineBreak ch with
  | false => rfl
  | true =>
    simp only [isLineBreak, Bool.or_eq_true, beq_iff_eq] at hbreak
    rcases hbreak with ((rfl | rfl) | hn) | hn
    · exact absurd h (by decide)
    · exact absurd h (by decide)
    · simp [isWhiteSpace, hn] at h
    · simp [isWhiteSpace, hn] at h

theorem blockCommentEnd_length {offset : Nat} {broken broken' : Bool}
    (h : blockCommentEnd s offset broken = some (c, broken')) : c.rest.length < s.length := by
  induction s, offset, broken using blockCommentEnd.induct with
  | case1 => cases h
  | case2 s =>
    cases h
    simp only [List.length_cons]
    omega
  | case3 ch s offset broken hend ih =>
    rw [blockCommentEnd.eq_3 _ _ _ _ hend] at h
    have hlt := ih h
    rw [List.length_cons]
    omega

theorem length_skipWhile_lt {p : Char → Bool} {ch : Char} (hs : c.rest = ch :: s) (hp : p ch) :
    (c.skipWhile p).rest.length < c.rest.length := by
  have hle : (s.dropWhile p).length ≤ s.length := (List.dropWhile_sublist p).length_le
  rw [Cursor.skipWhile, hs, List.dropWhile_cons_of_pos hp, List.length_cons]
  exact Nat.lt_succ_of_le hle

theorem exists_cons_of_startsLineComment (h : startsLineComment onNewLine s) :
    ∃ ch t, s = ch :: t ∧ isLineBreak ch = false := by
  unfold startsLineComment at h
  split at h
  · exact ⟨_, _, rfl, by decide⟩
  · exact ⟨_, _, rfl, by decide⟩
  · exact ⟨_, _, rfl, by decide⟩
  · cases h

theorem skipGap_lineComment {fuel : Nat} {comments : List Span} (h : startsLineComment onNewLine c.rest) :
    ∃ more, skipGap (fuel + 1) c onNewLine comments =
      skipGap fuel (c.skipWhile (!isLineBreak ·)) onNewLine more := by
  refine ⟨⟨c.offset, (c.skipWhile (!isLineBreak ·)).offset⟩ :: comments, ?_⟩
  rw [skipGap.eq_2]
  unfold startsLineComment at h
  split at h
  next hs =>
    rw [hs]
    rfl
  next hs =>
    rw [hs]
    rfl
  next hs =>
    rw [hs]
    exact if_pos h
  · cases h

theorem skipGap_light {fuel : Nat} {comments : List Span} {ch : Char} (hs : c.rest = ch :: s)
    (hlight : isLineBreak ch ∨ isWhiteSpace ch) :
    skipGap (fuel + 1) c onNewLine comments =
      if isLineBreak ch then skipGap fuel (c.skip 1) true comments
      else skipGap fuel (c.skipWhile isWhiteSpace) onNewLine comments := by
  rw [skipGap.eq_2, hs]
  have hdark (d : Char) (hd : isLineBreak d = false ∧ isWhiteSpace d = false) : ch ≠ d := by
    rintro rfl
    simp [hd] at hlight
  split
  · exact absurd (List.cons.inj ‹_›).1 (hdark _ (by decide))
  · exact absurd (List.cons.inj ‹_›).1 (hdark _ (by decide))
  · exact absurd (List.cons.inj ‹_›).1 (hdark _ (by decide))
  · exact absurd (List.cons.inj ‹_›).1 (hdark _ (by decide))
  next heq =>
    obtain ⟨rfl, -⟩ := List.cons.inj heq
    split
    · rfl
    next hbreak => rw [if_pos (hlight.resolve_left hbreak)]
  · rename_i heq
    cases heq

theorem skipGap_token {fuel : Nat} {comments : List Span} (h : AtToken onNewLine c.rest) :
    skipGap (fuel + 1) c onNewLine comments = some ⟨c, onNewLine, comments⟩ := by
  obtain ⟨rest, offset⟩ := c
  obtain ⟨hline, hblock, hdark⟩ := h
  rw [skipGap.eq_def]
  dsimp only at hline hblock hdark ⊢
  split
  · cases hline
  next s => exact absurd rfl (hblock s)
  · cases hline
  next s =>
    rw [if_neg]
    simpa [startsLineComment] using hline
  next ch s _ _ _ _ =>
    obtain ⟨hbreak, hblank⟩ := hdark ch s rfl
    rw [if_neg (by simp [hbreak]), if_neg (by simp [hblank])]
  · rfl

/-- Any number of rounds that exceeds what is left of the text is enough. -/
theorem skipGap_of_gapTo {fuel : Nat} (h : GapTo c onNewLine c' onNewLine') (hfuel : c.rest.length < fuel)
    (comments : List Span) : ∃ more, skipGap fuel c onNewLine comments = some ⟨c', onNewLine', more⟩ := by
  induction h generalizing fuel comments with
  | token here =>
    obtain ⟨fuel, rfl⟩ : ∃ n, fuel = n + 1 := ⟨fuel - 1, by omega⟩
    exact ⟨comments, skipGap_token here⟩
  | lineComment starts _ ih =>
    obtain ⟨fuel, rfl⟩ : ∃ n, fuel = n + 1 := ⟨fuel - 1, by omega⟩
    obtain ⟨ch, t, hs, hch⟩ := exists_cons_of_startsLineComment starts
    have hlt := length_skipWhile_lt (p := (!isLineBreak ·)) hs (by simp [hch])
    obtain ⟨comments', hskip⟩ := @skipGap_lineComment _ _ fuel comments starts
    rw [hskip]
    exact ih (by omega) _
  | @comment c after c' onNewLine broken onNewLine' s starts ends _ ih =>
    obtain ⟨fuel, rfl⟩ : ∃ n, fuel = n + 1 := ⟨fuel - 1, by omega⟩
    have hlt := blockCommentEnd_length ends
    rw [starts] at hfuel
    have hskip : skipGap (fuel + 1) c onNewLine comments =
        skipGap fuel after (onNewLine || broken) comments := by
      rw [skipGap.eq_def]
      simp [starts, ends]
    rw [hskip]
    exact ih (by simp at hfuel; omega) _
  | @lineBreak c c' onNewLine onNewLine' ch s starts breaks _ ih =>
    obtain ⟨fuel, rfl⟩ : ∃ n, fuel = n + 1 := ⟨fuel - 1, by omega⟩
    rw [skipGap_light starts (.inl breaks), if_pos breaks]
    refine ih ?_ _
    rw [starts] at hfuel
    simp only [Cursor.skip, starts, List.drop_succ_cons, List.drop_zero, List.length_cons] at hfuel ⊢
    omega
  | @white c c' onNewLine onNewLine' ch s starts blank _ ih =>
    obtain ⟨fuel, rfl⟩ : ∃ n, fuel = n + 1 := ⟨fuel - 1, by omega⟩
    have hlt := length_skipWhile_lt starts blank
    rw [skipGap_light starts (.inr blank), if_neg (by simp [not_isLineBreak_of_isWhiteSpace blank])]
    exact ih (by omega) _

theorem gap_eq_some_iff : (∃ comments, gap c onNewLine = some ⟨c', onNewLine', comments⟩) ↔
    GapTo c onNewLine c' onNewLine' := by
  constructor
  · rintro ⟨comments, h⟩
    exact gapTo_of_skipGap h
  · intro h
    exact skipGap_of_gapTo h (Nat.lt_succ_self _) []

theorem blockCommentEnd_shift {k offset : Nat} {broken : Bool} :
    blockCommentEnd s (offset + k) broken =
      (blockCommentEnd s offset broken).map fun p => (⟨p.1.rest, p.1.offset + k⟩, p.2) := by
  induction s, offset, broken using blockCommentEnd.induct with
  | case1 => rfl
  | case2 s offset broken =>
    have hcomm : offset + k + 2 = offset + 2 + k := by omega
    rw [blockCommentEnd, blockCommentEnd, hcomm]
    rfl
  | case3 ch s offset broken hend ih =>
    have hcomm : offset + k + ch.utf8Size = offset + ch.utf8Size + k := by omega
    rw [blockCommentEnd.eq_3 _ _ _ _ hend, blockCommentEnd.eq_3 _ _ _ _ hend, hcomm]
    exact ih

theorem GapTo.shift (h : GapTo c onNewLine c' onNewLine') (k : Nat) :
    GapTo ⟨c.rest, c.offset + k⟩ onNewLine ⟨c'.rest, c'.offset + k⟩ onNewLine' := by
  induction h with
  | token here => exact .token here
  | lineComment starts _ ih =>
    refine .lineComment starts ?_
    rw [Cursor.skipWhile, Nat.add_right_comm]
    exact ih
  | @comment c _ _ _ _ _ s starts ends _ ih =>
    refine .comment starts ?_ ih
    rw [Nat.add_right_comm, blockCommentEnd_shift, ends]
    rfl
  | lineBreak starts breaks _ ih =>
    refine .lineBreak starts breaks ?_
    rw [Cursor.skip, Nat.add_right_comm]
    exact ih
  | white starts blank _ ih =>
    refine .white starts blank ?_
    rw [Cursor.skipWhile, Nat.add_right_comm]
    exact ih

/-- A line does not lose its beginning to a gap. -/
theorem onNewLine_of_gapTo (h : GapTo c onNewLine c' onNewLine') (hstart : onNewLine = true) :
    onNewLine' = true := by
  induction h with
  | token => exact hstart
  | lineComment _ _ ih => exact ih hstart
  | comment _ _ _ ih => exact ih (by simp [hstart])
  | lineBreak _ _ _ ih => exact ih rfl
  | white _ _ _ ih => exact ih hstart

theorem blockCommentEnd_append {offset : Nat} {broken broken' : Bool}
    (h : blockCommentEnd s offset broken = some (c, broken')) :
    blockCommentEnd (s ++ y) offset broken = some (⟨c.rest ++ y, c.offset⟩, broken') := by
  induction s, offset, broken using blockCommentEnd.induct with
  | case1 => cases h
  | case2 s offset broken =>
    cases h
    rfl
  | case3 ch s offset broken hend ih =>
    rw [blockCommentEnd.eq_3 _ _ _ _ hend] at h
    have hend' : ∀ t, ch = '*' → s ++ y = '/' :: t → False := by
      rintro t rfl ht
      cases s with
      | nil => cases h
      | cons d s =>
        obtain ⟨rfl, -⟩ := List.cons.inj ht
        exact hend s rfl rfl
    rw [List.cons_append, blockCommentEnd.eq_3 _ _ _ _ hend']
    exact ih h

theorem startsLineComment_below :
    startsLineComment onNewLine (s ++ '\n' :: y) = startsLineComment onNewLine s := by
  rw [startsLineComment.eq_def onNewLine s]
  split
  · rfl
  · rfl
  · rfl
  next hslash hopen harrow =>
    exact startsLineComment.eq_4 _ _ (not_below ['/', '/'] hslash) (not_below ['<', '!', '-', '-'] hopen)
      (not_below ['-', '-', '>'] harrow)

theorem AtToken.below (h : AtToken onNewLine s) (hs : s ≠ []) : AtToken onNewLine (s ++ '\n' :: y) := by
  refine ⟨startsLineComment_below.trans h.noLineComment, not_below ['/', '*'] h.noComment, fun ch t ht => ?_⟩
  cases s with
  | nil => exact absurd rfl hs
  | cons d s =>
    obtain ⟨rfl, -⟩ := List.cons.inj ht
    exact h.dark d s rfl

/-- A gap goes at least as far if another line follows. -/
theorem gapTo_below {later : Cursor} {onNewLine'' : Bool} (h : GapTo c onNewLine c' onNewLine')
    (hrest : GapTo ⟨c'.rest ++ '\n' :: y, c'.offset⟩ onNewLine' later onNewLine'') :
    GapTo ⟨c.rest ++ '\n' :: y, c.offset⟩ onNewLine later onNewLine'' := by
  induction h with
  | token => exact hrest
  | @lineComment c _ onNewLine _ starts _ ih =>
    refine .lineComment (startsLineComment_below.trans starts) ?_
    rw [Cursor.skipWhile, dropWhile_below (by decide), takeWhile_below (by decide)]
    exact ih hrest
  | @comment c _ _ _ _ _ s starts ends _ ih =>
    refine .comment (s := s ++ '\n' :: y) ?_ (blockCommentEnd_append ends) (ih hrest)
    rw [starts]
    rfl
  | @lineBreak c _ _ _ ch s starts breaks _ ih =>
    have hstarts : c.rest ++ '\n' :: y = ch :: (s ++ '\n' :: y) := by
      rw [starts]
      rfl
    refine .lineBreak hstarts breaks ?_
    simp only [Cursor.skip, starts] at ih ⊢
    exact ih hrest
  | @white c _ _ _ ch s starts blank _ ih =>
    have hstarts : c.rest ++ '\n' :: y = ch :: (s ++ '\n' :: y) := by
      rw [starts]
      rfl
    refine .white hstarts blank ?_
    rw [Cursor.skipWhile, dropWhile_below (by decide), takeWhile_below (by decide)]
    exact ih hrest

end FlatBundle.Script
