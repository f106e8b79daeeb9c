import FlatBundle.Proofs.Text.Position
import FlatBundle.Script.Lexer

/-!
Tokens and the gaps between them: each reads a part of the text and leaves the rest of it.
-/

namespace FlatBundle.Script

variable {source s rest : List Char}

theorem suffix_cons_of_suffix {c : Char} (h : rest <:+ s) : rest <:+ c :: s :=
  h.trans (List.suffix_cons c s)

theorem fixedHex?_suffix {count n : Nat} (h : fixedHex? count s = some (n, rest)) : rest <:+ s := by
  simp only [fixedHex?] at h
  split at h
  · cases h
  · obtain ⟨_, _, h⟩ := Option.bind_eq_some_iff.mp h
    cases h
    exact List.drop_suffix count s

theorem bracedCode?_suffix {n : Nat} (h : bracedCode? s = some (n, rest)) : rest <:+ s := by
  simp only [bracedCode?] at h
  split at h
  · rename_i hdrop
    obtain ⟨_, _, h⟩ := Option.bind_eq_some_iff.mp h
    split at h
    · cases h
      exact (suffix_cons_of_suffix List.suffix_rfl).trans (hdrop ▸ List.drop_suffix _ s)
    · cases h
  · cases h

theorem unicodeCode?_suffix {n : Nat} (h : unicodeCode? s = some (n, rest)) : rest <:+ s := by
  unfold unicodeCode? at h
  split at h
  · exact suffix_cons_of_suffix (bracedCode?_suffix h)
  · exact fixedHex?_suffix h

theorem unicodeEscape?_suffix {unit : Unit16} (h : unicodeEscape? s = some (unit, rest)) :
    rest <:+ s := by
  unfold unicodeEscape? at h
  split at h
  · obtain ⟨⟨n, after⟩, hcode, h⟩ := Option.bind_eq_some_iff.mp h
    cases h
    exact suffix_cons_of_suffix (bracedCode?_suffix hcode)
  · obtain ⟨⟨n, after⟩, hcode, h⟩ := Option.bind_eq_some_iff.mp h
    have hafter := fixedHex?_suffix hcode
    dsimp only at h
    split at h
    · cases h
      exact hafter
    · split at h
      · split at h
        · rename_i low rest' hlow
          have hrest : rest' <:+ s :=
            (suffix_cons_of_suffix (suffix_cons_of_suffix (fixedHex?_suffix hlow))).trans hafter
          split at h
          · cases h
            exact hrest
          · cases h
            exact hafter
        · cases h
          exact hafter
      · cases h
        exact hafter

theorem octalEscape_suffix {first : Char} : (octalEscape first s).2 <:+ s := by
  unfold octalEscape
  grind [List.suffix_cons_iff, List.suffix_refl]

theorem escape?_suffix {inTemplate : Bool} {units : List Unit16}
    (h : escape? inTemplate s = some (units, rest)) : rest <:+ s := by
  unfold escape? at h
  split at h
  · cases h
  · cases h
    exact suffix_cons_of_suffix (suffix_cons_of_suffix List.suffix_rfl)
  · obtain ⟨_, hcode, h⟩ := Option.bind_eq_some_iff.mp h
    cases h
    exact suffix_cons_of_suffix (fixedHex?_suffix hcode)
  · obtain ⟨_, hcode, h⟩ := Option.bind_eq_some_iff.mp h
    cases h
    exact suffix_cons_of_suffix (unicodeEscape?_suffix hcode)
  iterate 6
    cases h
    exact suffix_cons_of_suffix List.suffix_rfl
  · split at h
    · cases h
      exact suffix_cons_of_suffix List.suffix_rfl
    · split at h
      · split at h <;> cases h
        exact suffix_cons_of_suffix List.suffix_rfl
      · split at h <;> cases h
        · exact suffix_cons_of_suffix octalEscape_suffix
        · exact suffix_cons_of_suffix List.suffix_rfl

theorem wordRest_suffix {first : Bool} {fuel : Nat} {cs : List Char} {escaped : Bool}
    (h : wordRest first fuel s = some (cs, escaped, rest)) : rest <:+ s := by
  induction fuel generalizing first s cs escaped with
  | zero => simp [wordRest] at h
  | succ fuel ih =>
    rw [wordRest.eq_def] at h
    dsimp -zeta only at h
    extract_lets fits at h
    -- which characters fit does not matter here, and their condition must not be split
    clear_value fits
    split at h
    · obtain ⟨⟨n, after⟩, hcode, h⟩ := Option.bind_eq_some_iff.mp h
      dsimp only at h
      split at h
      · cases h
      · obtain ⟨⟨_, _, _⟩, hword, h⟩ := Option.bind_eq_some_iff.mp h
        cases h
        have hafter := (ih hword).trans (unicodeCode?_suffix hcode)
        exact suffix_cons_of_suffix (suffix_cons_of_suffix hafter)
    · cases h
    · split at h
      · obtain ⟨⟨_, _, _⟩, hword, h⟩ := Option.bind_eq_some_iff.mp h
        cases h
        exact suffix_cons_of_suffix (ih hword)
      · split at h <;> cases h
        exact List.suffix_rfl
    · split at h <;> cases h
      exact List.suffix_rfl

theorem word?_suffix {cs : List Char} {escaped : Bool} (h : word? s = some (cs, escaped, rest)) :
    rest <:+ s :=
  wordRest_suffix h

theorem word?_shorter {cs : List Char} {escaped : Bool} (h : word? s = some (cs, escaped, rest)) :
    rest.length < s.length := by
  rw [word?, wordRest.eq_def] at h
  dsimp -zeta only at h
  extract_lets fits at h
  clear_value fits
  split at h
  · obtain ⟨⟨n, after⟩, hcode, h⟩ := Option.bind_eq_some_iff.mp h
    dsimp only at h
    split at h
    · cases h
    · obtain ⟨⟨_, _, _⟩, hword, h⟩ := Option.bind_eq_some_iff.mp h
      cases h
      have hafter := ((wordRest_suffix hword).trans (unicodeCode?_suffix hcode)).length_le
      simp only [List.length_cons]
      omega
  · cases h
  · split at h
    · obtain ⟨⟨_, _, _⟩, hword, h⟩ := Option.bind_eq_some_iff.mp h
      cases h
      exact Nat.lt_succ_of_le (wordRest_suffix hword).length_le
    · cases h
  · cases h

/-- What the characters of a word are, or of the rest of one. -/
theorem wordRest_fits {first : Bool} {fuel : Nat} {cs : List Char} {escaped : Bool}
    (h : wordRest first fuel s = some (cs, escaped, rest)) :
    if first then Text.isIdentifierName cs else cs.all Text.isIdContinue := by
  induction fuel generalizing first s cs escaped rest with
  | zero => simp [wordRest] at h
  | succ fuel ih =>
    rw [wordRest.eq_def] at h
    dsimp -zeta only at h
    extract_lets fits at h
    have hcons {c : Char} {cs : List Char} {escaped : Bool} {s rest : List Char} (hc : fits c)
        (hword : wordRest false fuel s = some (cs, escaped, rest)) :
        if first then Text.isIdentifierName (c :: cs) else (c :: cs).all Text.isIdContinue := by
      have hcs : cs.all Text.isIdContinue := by simpa using ih hword
      cases first with
      | true => simpa [Text.isIdentifierName, fits, hcs] using hc
      | false => simpa [fits, hcs] using hc
    clear_value fits
    split at h
    · obtain ⟨⟨n, after⟩, -, h⟩ := Option.bind_eq_some_iff.mp h
      dsimp only at h
      split at h
      · cases h
      · rename_i hfits
        obtain ⟨⟨_, _, _⟩, hword, h⟩ := Option.bind_eq_some_iff.mp h
        cases h
        exact hcons (by simp at hfits; exact hfits.2) hword
    · cases h
    · split at h
      · rename_i hfits
        obtain ⟨⟨_, _, _⟩, hword, h⟩ := Option.bind_eq_some_iff.mp h
        cases h
        exact hcons hfits hword
      · cases first <;> cases h
        rfl
    · cases first <;> cases h
      rfl

theorem separatedDigits_suffix {isDigit : Char → Bool} (h : separatedDigits isDigit s = some rest) :
    rest <:+ s := by
  induction s using separatedDigits.induct isDigit <;>
    grind [separatedDigits, List.suffix_cons_iff]

theorem separatedDigits1_suffix {isDigit : Char → Bool}
    (h : separatedDigits1 isDigit s = some rest) : rest <:+ s := by
  unfold separatedDigits1 at h
  grind [separatedDigits_suffix, List.suffix_cons_iff]

theorem numberEnd?_suffix (h : numberEnd? s = some rest) : rest <:+ s := by
  unfold numberEnd? at h
  grind

theorem exponentEnd?_suffix (h : exponentEnd? s = some rest) : rest <:+ s := by
  obtain ⟨after, hdigits, h⟩ := Option.bind_eq_some_iff.mp h
  refine ((numberEnd?_suffix h).trans (separatedDigits1_suffix hdigits)).trans ?_
  split
  · exact List.suffix_cons _ _
  · exact List.suffix_cons _ _
  · exact List.suffix_rfl

theorem fractionEnd?_suffix (h : fractionEnd? s = some rest) : rest <:+ s := by
  unfold fractionEnd? at h
  grind [exponentEnd?_suffix, numberEnd?_suffix, List.suffix_cons_iff]

theorem pointEnd?_suffix (h : pointEnd? s = some rest) : rest <:+ s := by
  unfold pointEnd? at h
  split at h
  · split at h
    · obtain ⟨after, hdigits, h⟩ := Option.bind_eq_some_iff.mp h
      exact (fractionEnd?_suffix h).trans (separatedDigits1_suffix hdigits)
    · exact fractionEnd?_suffix h
  · cases h
    exact List.suffix_rfl

theorem integerEnd?_suffix (h : integerEnd? s = some rest) : rest <:+ s := by
  unfold integerEnd? at h
  grind [pointEnd?_suffix, numberEnd?_suffix, fractionEnd?_suffix, List.suffix_cons_iff]

theorem radixEnd?_suffix {isDigit : Char → Bool} (h : radixEnd? isDigit s = some rest) :
    rest <:+ s := by
  obtain ⟨after, hdigits, h⟩ := Option.bind_eq_some_iff.mp h
  refine List.IsSuffix.trans ?_ (separatedDigits1_suffix hdigits)
  split at h
  · exact suffix_cons_of_suffix (numberEnd?_suffix h)
  · exact numberEnd?_suffix h

theorem leadingZeroEnd?_suffix (h : leadingZeroEnd? s = some rest) : rest <:+ s := by
  have hdrop := List.drop_suffix (s.takeWhile Char.isDigit).length s
  unfold leadingZeroEnd? at h
  dsimp only at h
  split at h
  · exact (numberEnd?_suffix h).trans hdrop
  · split at h
    · rename_i hdot
      exact (suffix_cons_of_suffix (pointEnd?_suffix h)).trans (hdot ▸ hdrop)
    · exact (fractionEnd?_suffix h).trans hdrop

theorem numberRest?_suffix (h : numberRest? s = some rest) : rest <:+ s := by
  unfold numberRest? at h
  split at h
  · refine suffix_cons_of_suffix ?_
    split at h
    iterate 6 exact suffix_cons_of_suffix (radixEnd?_suffix h)
    · split at h
      · exact leadingZeroEnd?_suffix h
      · exact integerEnd?_suffix h
    · cases h
      exact List.suffix_rfl
  · exact suffix_cons_of_suffix (pointEnd?_suffix h)
  · obtain ⟨after, hdigits, h⟩ := Option.bind_eq_some_iff.mp h
    exact (integerEnd?_suffix h).trans (separatedDigits1_suffix hdigits)

theorem stringRest_suffix {quote : Char} {fuel : Nat} {units : List Unit16}
    (h : stringRest quote fuel s = some (units, rest)) : rest <:+ s := by
  induction fuel generalizing s units with
  | zero => simp [stringRest] at h
  | succ fuel ih =>
    rw [stringRest.eq_def] at h
    dsimp only at h
    split at h
    · cases h
    · obtain ⟨⟨_, after⟩, hescape, h⟩ := Option.bind_eq_some_iff.mp h
      obtain ⟨⟨_, _⟩, hrest, h⟩ := Option.bind_eq_some_iff.mp h
      cases h
      exact suffix_cons_of_suffix ((ih hrest).trans (escape?_suffix hescape))
    · split at h
      · cases h
        exact suffix_cons_of_suffix List.suffix_rfl
      · split at h
        · cases h
        · obtain ⟨⟨_, _⟩, hrest, h⟩ := Option.bind_eq_some_iff.mp h
          cases h
          exact suffix_cons_of_suffix (ih hrest)

theorem templateRest_suffix {fuel : Nat} {units : Option (List Unit16)} {last : Bool}
    (h : templateRest fuel s = some (units, last, rest)) : rest <:+ s := by
  induction fuel generalizing s units with
  | zero => simp [templateRest] at h
  | succ fuel ih =>
    have step : ∀ {before : Option (List Unit16)} {after : List Char},
        ((templateRest fuel after).bind fun more =>
          some ((do return (← before) ++ (← more.1)), more.2)) = some (units, last, rest) →
        rest <:+ after := by
      intro before after h
      obtain ⟨⟨_, _, _⟩, hrest, h⟩ := Option.bind_eq_some_iff.mp h
      cases h
      exact ih hrest
    simp only [templateRest] at h
    split at h
    · cases h
    · cases h
      exact suffix_cons_of_suffix List.suffix_rfl
    · cases h
      exact suffix_cons_of_suffix (suffix_cons_of_suffix List.suffix_rfl)
    · split at h
      · rename_i hescape
        exact suffix_cons_of_suffix ((step h).trans (escape?_suffix hescape))
      · exact suffix_cons_of_suffix (suffix_cons_of_suffix (step h))
      · cases h
    · exact suffix_cons_of_suffix (suffix_cons_of_suffix (step h))
    · exact suffix_cons_of_suffix (step h)
    · exact suffix_cons_of_suffix (step h)

theorem regularExpressionBody_suffix {inClass : Bool}
    (h : regularExpressionBody inClass s = some rest) : rest <:+ s := by
  induction inClass, s using regularExpressionBody.induct <;>
    grind [regularExpressionBody, List.suffix_cons_iff]

theorem regularExpressionRest?_suffix (h : regularExpressionRest? s = some rest) : rest <:+ s := by
  obtain ⟨after, hbody, h⟩ := Option.bind_eq_some_iff.mp h
  dsimp only at h
  split at h <;> cases h
  exact (List.drop_suffix _ after).trans (regularExpressionBody_suffix hbody)

/-- What follows a token is an end of the text that it starts. -/
theorem kind?_suffix {kind : TokenKind} (h : kind? s = some (kind, rest)) : rest <:+ s := by
  unfold kind? at h
  split at h
  · cases h
    exact List.suffix_rfl
  · obtain ⟨⟨_, _⟩, hrest, h⟩ := Option.bind_eq_some_iff.mp h
    cases h
    exact suffix_cons_of_suffix (stringRest_suffix hrest)
  · obtain ⟨⟨_, _⟩, hrest, h⟩ := Option.bind_eq_some_iff.mp h
    cases h
    exact suffix_cons_of_suffix (stringRest_suffix hrest)
  · obtain ⟨⟨_, _, _⟩, hrest, h⟩ := Option.bind_eq_some_iff.mp h
    cases h
    exact suffix_cons_of_suffix (templateRest_suffix hrest)
  · obtain ⟨⟨_, _, _⟩, hrest, h⟩ := Option.bind_eq_some_iff.mp h
    cases h
    exact suffix_cons_of_suffix (word?_suffix hrest)
  · split at h
    · obtain ⟨_, hrest, h⟩ := Option.bind_eq_some_iff.mp h
      cases h
      exact numberRest?_suffix hrest
    · split at h
      · cases h
        exact List.drop_suffix _ _
      · obtain ⟨⟨_, _, _⟩, hrest, h⟩ := Option.bind_eq_some_iff.mp h
        cases h
        exact word?_suffix hrest

/-- What a word spells is an identifier. -/
def TokenKind.SpellsIdentifier : TokenKind → Prop
  | .word _ name _ => Text.isIdentifierName name.toList
  | _ => True

theorem kind?_spellsIdentifier {kind : TokenKind} (h : kind? s = some (kind, rest)) :
    kind.SpellsIdentifier := by
  unfold kind? at h
  split at h
  · cases h
    trivial
  iterate 4
    obtain ⟨_, -, h⟩ := Option.bind_eq_some_iff.mp h
    cases h
    trivial
  · split at h
    · obtain ⟨_, -, h⟩ := Option.bind_eq_some_iff.mp h
      cases h
      trivial
    · split at h
      · cases h
        trivial
      · obtain ⟨⟨name, _, _⟩, hword, h⟩ := Option.bind_eq_some_iff.mp h
        cases h
        have hname : Text.isIdentifierName name := wordRest_fits hword
        rwa [TokenKind.SpellsIdentifier, String.toList_ofList]

theorem mark?_length {m : Mark} {n : Nat} (h : mark? s = some (m, n)) : 0 < n ∧ n ≤ s.length := by
  unfold mark? at h
  split at h
  case h_13 => split at h <;> cases h <;> simp
  case h_59 => cases h
  all_goals
    cases h
    simp

/-- Words, marks and strings: kinds of tokens that a token is never read anew as. -/
def TokenKind.isSolid : TokenKind → Bool
  | .word _ _ _ | .mark _ | .text _ => true
  | _ => false

/-- Such a token has some text. -/
theorem kind?_shorter {kind : TokenKind} (h : kind? s = some (kind, rest)) (hk : kind.isSolid) :
    rest.length < s.length := by
  unfold kind? at h
  split at h
  · cases h
    cases hk
  iterate 2
    obtain ⟨⟨_, _⟩, hrest, h⟩ := Option.bind_eq_some_iff.mp h
    cases h
    exact Nat.lt_succ_of_le (stringRest_suffix hrest).length_le
  iterate 2
    obtain ⟨_, -, h⟩ := Option.bind_eq_some_iff.mp h
    cases h
    cases hk
  · split at h
    · obtain ⟨_, -, h⟩ := Option.bind_eq_some_iff.mp h
      cases h
      cases hk
    · split at h
      · rename_i hmark
        cases h
        have hlength := mark?_length hmark
        rw [List.length_drop]
        omega
      · obtain ⟨⟨_, _, _⟩, hword, h⟩ := Option.bind_eq_some_iff.mp h
        cases h
        exact word?_shorter hword

theorem restAt_of_suffix {start : Nat} (h : RestAt source s start) (hs : rest <:+ s) :
    RestAt source rest (start + bytesBetween s rest) := by
  obtain ⟨part, rfl⟩ := hs
  have hpart : (part ++ rest).take ((part ++ rest).length - rest.length) = part := by simp
  rw [bytesBetween, hpart]
  exact h.append _

namespace Cursor

variable {c : Cursor}

theorem restAt_skip {n : Nat} (h : RestAt source c.rest c.offset) :
    RestAt source (c.skip n).rest (c.skip n).offset := by
  rw [← List.take_append_drop n c.rest] at h
  exact h.append _

theorem restAt_skipWhile {p : Char → Bool} (h : RestAt source c.rest c.offset) :
    RestAt source (c.skipWhile p).rest (c.skipWhile p).offset := by
  rw [← List.takeWhile_append_dropWhile (p := p) (l := c.rest)] at h
  exact h.append _

end Cursor

theorem restAt_blockCommentEnd {offset : Nat} {broken broken' : Bool} {after : Cursor}
    (h : RestAt source s offset)
    (hend : blockCommentEnd s offset broken = some (after, broken')) :
    RestAt source after.rest after.offset ∧ offset ≤ after.offset := by
  induction s, offset, broken using blockCommentEnd.induct with
  | case1 => simp [blockCommentEnd] at hend
  | case2 s offset broken =>
    rw [blockCommentEnd] at hend
    cases hend
    exact ⟨h.append ['*', '/'], Nat.le_add_right offset 2⟩
  | case3 c s offset broken hc ih =>
    rw [blockCommentEnd.eq_3 _ _ _ _ hc] at hend
    have hnext : RestAt source s (offset + c.utf8Size) := by
      simpa using h.append [c]
    obtain ⟨hrest, hle⟩ := ih hnext hend
    exact ⟨hrest, Nat.le_trans (Nat.le_add_right offset _) hle⟩

/-- A comment from one offset to a later one. -/
structure CommentBetween (source : List Char) (lo hi : Nat) (comment : Span) : Prop where
  lo_le : lo ≤ comment.start
  le_stop : comment.start ≤ comment.stop
  stop_le : comment.stop ≤ hi
  start : isBoundary source comment.start
  stop : isBoundary source comment.stop

theorem CommentBetween.mono {lo lo' hi hi' : Nat} {comment : Span}
    (h : CommentBetween source lo hi comment) (hlo : lo' ≤ lo) (hhi : hi ≤ hi') :
    CommentBetween source lo' hi' comment :=
  { h with lo_le := Nat.le_trans hlo h.lo_le, stop_le := Nat.le_trans h.stop_le hhi }

/-- A gap goes on from a cursor, with its comments in it. -/
structure GapFrom (source : List Char) (c : Cursor) (comments : List Span) (g : Gap) : Prop where
  restAt : RestAt source g.after.rest g.after.offset
  le : c.offset ≤ g.after.offset
  comments : ∃ new, g.lineComments = new ++ comments ∧
    ∀ k ∈ new, CommentBetween source c.offset g.after.offset k

theorem GapFrom.step {c after : Cursor} {comments : List Span} {g : Gap}
    (h : GapFrom source after comments g) (hle : c.offset ≤ after.offset) :
    GapFrom source c comments g := by
  obtain ⟨new, hnew, hfits⟩ := h.comments
  exact ⟨h.restAt, Nat.le_trans hle h.le, new, hnew, fun k hk =>
    (hfits k hk).mono hle (Nat.le_refl _)⟩

theorem GapFrom.comment {c after : Cursor} {comments : List Span} {g : Gap}
    (h : GapFrom source after (⟨c.offset, after.offset⟩ :: comments) g)
    (hc : RestAt source c.rest c.offset) (hafter : RestAt source after.rest after.offset)
    (hle : c.offset ≤ after.offset) : GapFrom source c comments g := by
  obtain ⟨new, hnew, hfits⟩ := h.comments
  refine ⟨h.restAt, Nat.le_trans hle h.le, new ++ [⟨c.offset, after.offset⟩], by simp [hnew], ?_⟩
  intro k hk
  rcases List.mem_append.mp hk with hk | hk
  · exact (hfits k hk).mono hle (Nat.le_refl _)
  · obtain rfl := List.mem_singleton.mp hk
    exact ⟨Nat.le_refl _, hle, h.le, hc.isBoundary, hafter.isBoundary⟩

theorem gapFrom_skipGap {fuel : Nat} {c : Cursor} {onNewLine : Bool} {comments : List Span} {g : Gap}
    (hc : RestAt source c.rest c.offset) (h : skipGap fuel c onNewLine comments = some g) :
    GapFrom source c comments g := by
  induction fuel generalizing c onNewLine comments with
  | zero => simp [skipGap] at h
  | succ fuel ih =>
    have hstop : GapFrom source c comments ⟨c, onNewLine, comments⟩ :=
      ⟨hc, Nat.le_refl _, [], rfl, by simp⟩
    have hline (h : skipGap fuel (c.skipWhile (!isLineBreak ·)) onNewLine
        (⟨c.offset, (c.skipWhile (!isLineBreak ·)).offset⟩ :: comments) = some g) :
        GapFrom source c comments g :=
      (ih (Cursor.restAt_skipWhile hc) h).comment hc (Cursor.restAt_skipWhile hc)
        (Nat.le_add_right _ _)
    rw [skipGap.eq_def] at h
    dsimp only at h
    split at h
    · exact hline h
    · rename_i s hrest
      split at h
      · cases h
      · rename_i after broken hend
        have hblock : RestAt source s (c.offset + 2) := by
          rw [hrest] at hc
          exact hc.append ['/', '*']
        obtain ⟨hafter, hle⟩ := restAt_blockCommentEnd hblock hend
        exact (ih hafter h).step (by omega)
    · exact hline h
    · split at h
      · exact hline h
      · cases h
        exact hstop
    · split at h
      · exact (ih (Cursor.restAt_skip hc) h).step (Nat.le_add_right _ _)
      · split at h
        · exact (ih (Cursor.restAt_skipWhile hc) h).step (Nat.le_add_right _ _)
        · cases h
          exact hstop
    · cases h
      exact hstop

end FlatBundle.Script
