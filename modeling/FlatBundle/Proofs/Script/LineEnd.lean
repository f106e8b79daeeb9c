import FlatBundle.Proofs.Script.Program

/-!
Where an operand ends. On a line of its own, a token goes on with the operand above it only if it is one of
the marks or words that stand between or after operands.
-/

namespace FlatBundle.Script

open Reader

/-- Whether a token can go on with an operand that ends on a line above it. -/
def TokenKind.continuesOperand : TokenKind → Bool
  | .mark (.operator _) | .mark .assign | .mark (.assignWith _) | .mark .dot | .mark .questionDot => true
  | .mark .bracketOpen | .mark .parenOpen | .mark .question | .mark .comma | .mark .colon => true
  | .template _ _ => true
  | .word (some .inWord) _ _ | .word (some .instanceofWord) _ _ => true
  | _ => false

/-- Whatever can follow an operand does not follow it at the current token. -/
structure EndsOperand (s : State) : Prop where
  accesses : ∀ r ctx start a, accesses r ctx start a s = some (a, s)
  calls : ∀ r ctx start a, loop (callStep r ctx start) a s = some (a, s)
  update : ∀ r ctx s₀ n, isUpdateMark s₀.token.kind = false → leftHand r ctx s₀ = some (n, s) →
    update r ctx s₀ = some (n, s)
  operators : ∀ r ctx start strength inParens left,
    binaryRest r ctx start strength inParens left s = some (left, s)
  assignment : ∀ r ctx start left, assignmentRest r ctx start left s = some (left, s)
  expression : ∀ (r : Recur) ctx s₀ n, r (.assignment ctx) s₀ = some (n, s) →
    expression r ctx s₀ = some (n, s)
  label : isMark .colon s = some (false, s)

variable {s s' : State} {r : Recur} {ctx : Ctx} {start : Nat}

theorem loop_of_done {σ α : Type} {step : σ → Reader (Round σ α)} {x : σ} {a : α}
    (h : step x s = some (.done a, s')) : loop step x s = some (a, s') := by
  have hround : loop step x s = loopFor (s.size + 1 + 1) step x s := rfl
  rw [hround, loopFor]
  exact Option.bind_eq_some_iff.mpr ⟨_, h, rfl⟩

theorem bind_of_eq {α β : Type} {x : Reader α} {k : α → Reader β} {a : α} (h : x s = some (a, s')) :
    (x >>= k) s = k a s' := by
  change (x s).bind _ = _
  rw [h]
  rfl

theorem bind_tokenKind {α : Type} {k : TokenKind → Reader α} : (tokenKind >>= k) s = k s.token.kind s :=
  rfl

theorem bind_token {α : Type} {k : Token → Reader α} : (token >>= k) s = k s.token s :=
  rfl

theorem bind_start {α : Type} {k : Nat → Reader α} : (Reader.start >>= k) s = k s.token.span.start s :=
  rfl

theorem isMark_eq_false {m : Mark} (h : s.token.kind ≠ .mark m) : isMark m s = some (false, s) := by
  have hbeq : (s.token.kind == .mark m) = false := by simpa using h
  exact congrArg (fun b => some (b, s)) hbeq

theorem eatMark_eq_false {m : Mark} (h : s.token.kind ≠ .mark m) : eatMark m s = some (false, s) := by
  rw [eatMark, bind_of_eq (isMark_eq_false h)]
  rfl

section Continuing

variable (h : s.token.kind.continuesOperand = false)
include h

theorem kind_ne {k : TokenKind} (hk : k.continuesOperand = true) : s.token.kind ≠ k := by
  rintro rfl
  rw [h] at hk
  cases hk

theorem accessStep_eq {a : Access} : accessStep r ctx start a s = some (.done a, s) := by
  rw [accessStep, bind_tokenKind]
  generalize s.token.kind = kind at h ⊢
  cases kind with
  | mark m => cases m <;> first | rfl | cases h
  | template => cases h
  | word | privateName | number | text | regularExpression | ending => rfl

theorem accesses_eq {a : Access} : accesses r ctx start a s = some (a, s) :=
  loop_of_done (accessStep_eq h)

theorem callStep_eq {a : Access} : callStep r ctx start a s = some (.done a, s) := by
  have hquestion := eatMark_eq_false (m := .questionDot) (kind_ne h rfl)
  have hparen := isMark_eq_false (m := .parenOpen) (kind_ne h rfl)
  rw [callStep, bind_of_eq (accesses_eq h), bind_of_eq hquestion, bind_of_eq hparen]
  rfl

theorem binaryRest_eq {strength : Nat} {inParens : Bool} {left : Node} :
    binaryRest r ctx start strength inParens left s = some (left, s) := by
  have hnone : binaryOp? ctx s.token.kind = none := by
    generalize s.token.kind = kind at h ⊢
    unfold binaryOp?
    split
    · cases h
    · cases h
    · cases h
    · rfl
  refine loop_of_done ?_
  rw [bind_tokenKind, hnone]
  rfl

theorem assignmentRest_eq {left : Node} : assignmentRest r ctx start left s = some (left, s) := by
  have hrest : conditionalRest r ctx start left s = some (left, s) := by
    have hquestion : s.token.kind ≠ .mark .question := kind_ne h rfl
    rw [conditionalRest, bind_of_eq (eatMark_eq_false hquestion)]
    rfl
  rw [assignmentRest, bind_tokenKind]
  generalize s.token.kind = kind at h ⊢
  cases kind with
  | mark m => cases m <;> first | exact hrest | cases h
  | template | word | privateName | number | text | regularExpression | ending => exact hrest

/-- What starts on a line of its own goes on with the operand above it only if the mark or the word is one
of those that can. -/
theorem endsOperand_of_not_continues (hline : s.token.onNewLine = true) : EndsOperand s where
  accesses _ _ _ _ := accesses_eq h
  calls _ _ _ _ := loop_of_done (callStep_eq h)
  update r ctx s₀ n hfirst hleft := by
    rw [update, bind_start, bind_tokenKind, hfirst, if_neg (by simp), bind_of_eq hleft, bind_token,
      if_neg (by simp [hline])]
    rfl
  operators _ _ _ _ _ _ := binaryRest_eq h
  assignment _ _ _ _ := assignmentRest_eq h
  expression r ctx s₀ n hn := by
    rw [expression, bind_start, bind_of_eq hn, bind_of_eq (isMark_eq_false (kind_ne h rfl))]
    rfl
  label := isMark_eq_false (kind_ne h rfl)

end Continuing

theorem statementEnd_eq (hline : s.token.onNewLine = true) (hsemicolon : s.token.kind ≠ .mark .semicolon) :
    statementEnd s = some ((), s) := by
  have hend : atStatementEnd s = some (true, s) := by
    rw [atStatementEnd, bind_token, hline]
    rfl
  rw [statementEnd, bind_of_eq (eatMark_eq_false hsemicolon), if_neg (by simp), bind_of_eq hend]
  rfl

/-- The only words that go on with an operand start alike. -/
theorem first_of_continues {name : List Char} {escaped : Bool}
    (h : (TokenKind.word (Keyword.ofChars? name) (String.ofList name) escaped).continuesOperand = true) :
    name.head? = some 'i' := by
  have hspell (k : Keyword) (hk : Keyword.ofChars? name = some k)
      (hfirst : ∀ p ∈ Keyword.spellings, p.2 = k → p.1.head? = some 'i') : name.head? = some 'i' := by
    obtain ⟨before, after, hparts, -⟩ := List.lookup_eq_some_iff.mp hk
    refine hfirst (name, k) ?_ rfl
    rw [hparts]
    exact List.mem_append_right _ (List.mem_cons_self ..)
  cases hk : Keyword.ofChars? name with
  | none =>
    rw [hk] at h
    cases h
  | some k =>
    rw [hk] at h
    cases k with
    | inWord | instanceofWord => exact hspell _ hk (by decide)
    | _ => cases h

/-- A word with another first letter does not. -/
theorem not_continues_of_first {c : Char} {source rest : List Char} {kind : TokenKind}
    (hc : Text.isIdStart c ∧ c.isDigit = false ∧ c ≠ 'i') (h : kind? (c :: source) = some (kind, rest)) :
    ∃ keyword name escaped, kind = .word keyword name escaped ∧ kind.continuesOperand = false := by
  obtain ⟨hstart, hdigit, hi⟩ := hc
  have hne (d : Char) (hd : Text.isIdStart d = false) : c ≠ d := by
    rintro rfl
    rw [hstart] at hd
    cases hd
  have hnumber : ¬(c.isDigit || (c = '.' && source.head?.any Char.isDigit)) := by
    simp [hdigit, hne '.' (by decide)]
  rw [kind?.eq_6 _ _ (hne _ (by decide)) (hne _ (by decide)) (hne _ (by decide)) (hne _ (by decide)),
    if_neg hnumber, mark?_of_isIdStart hstart] at h
  obtain ⟨⟨name, escaped, after⟩, hword, h⟩ := Option.bind_eq_some_iff.mp h
  cases h
  refine ⟨_, _, _, rfl, Bool.eq_false_iff.mpr fun hcontinues => ?_⟩
  have hhead : name.head? = some c := by
    have hslash : c ≠ '\\' := hne _ (by decide)
    rw [word?, wordRest.eq_4 true _ c source (fun _ hc _ => hslash hc) hslash] at hword
    rw [if_pos (by simp [hstart])] at hword
    obtain ⟨_, -, hword⟩ := Option.bind_eq_some_iff.mp hword
    cases hword
    rfl
  rw [first_of_continues hcontinues] at hhead
  exact hi (Option.some.inj hhead).symm

/-- On a line of its own, a text leaves whatever stands above it at its end. -/
def EndsAbove (text : List Char) : Prop :=
  ∀ y p, Place.first? ⟨text ++ y, 0⟩ true = some p → ∀ (s : State) k, s.place = p.movedBy k →
    EndsOperand s ∧ statementEnd s = some ((), s)

theorem Place.endsAbove {p : Place} {c : Cursor} (hp : first? c true = some p)
    (hcontinues : p.token.kind.continuesOperand = false) {s : State} {k : Nat}
    (hs : s.place = p.movedBy k) :
    EndsOperand s ∧ (p.token.kind ≠ .mark .semicolon → statementEnd s = some ((), s)) := by
  obtain ⟨_, hgap, -, -⟩ := first?_eq_some_iff.mp hp
  have htoken : s.token = p.token.movedBy k := congrArg Place.token hs
  have hkind : s.token.kind = p.token.kind := by rw [htoken, Token.movedBy]
  have hline : s.token.onNewLine = true := by
    rw [htoken, Token.movedBy]
    exact onNewLine_of_gapTo hgap rfl
  exact ⟨endsOperand_of_not_continues (hkind ▸ hcontinues) hline,
    fun hsemicolon => statementEnd_eq hline (hkind ▸ hsemicolon)⟩

/-- A character that a token starts with, and no comment. -/
theorem atToken_cons {c : Char} {source : List Char} (hslash : c ≠ '/' ∧ c ≠ '<' ∧ c ≠ '-')
    (hdark : isLineBreak c = false ∧ isWhiteSpace c = false) : AtToken true (c :: source) := by
  obtain ⟨hslash, hopen, harrow⟩ := hslash
  refine ⟨?_, fun t ht => hslash (List.cons.inj ht).1, fun ch t ht => (List.cons.inj ht).1 ▸ hdark⟩
  exact startsLineComment.eq_4 _ _ (fun _ heq => hslash (List.cons.inj heq).1)
    (fun _ heq => hopen (List.cons.inj heq).1) (fun _ heq => harrow (List.cons.inj heq).1)

/-- A word does not start with the first letter of the two that go on with an operand. -/
theorem Place.word_of_first? {c : Char} {source : List Char} {p : Place}
    (hc : Text.isIdStart c ∧ c.isDigit = false ∧ c ≠ 'i')
    (hdark : isLineBreak c = false ∧ isWhiteSpace c = false)
    (h : first? ⟨c :: source, 0⟩ true = some p) :
    ∃ keyword name escaped, p.token.kind = .word keyword name escaped ∧
      p.token.kind.continuesOperand = false := by
  have hne (d : Char) (hd : Text.isIdStart d = false) : c ≠ d := by
    rintro rfl
    simp [hd] at hc
  have hat : AtToken true (c :: source) :=
    atToken_cons ⟨hne _ (by decide), hne _ (by decide), hne _ (by decide)⟩ hdark
  have hsource := source_of_atToken hat h
  obtain ⟨_, -, hkind, -⟩ := first?_eq_some_iff.mp h
  rw [hsource] at hkind
  exact not_continues_of_first hc hkind

theorem endsAbove_word {c : Char} {source : List Char}
    (hc : Text.isIdStart c ∧ c.isDigit = false ∧ c ≠ 'i')
    (hdark : isLineBreak c = false ∧ isWhiteSpace c = false) : EndsAbove (c :: source) := by
  intro y p hp s k hs
  obtain ⟨_, _, _, hkind, hcontinues⟩ := Place.word_of_first? hc hdark hp
  obtain ⟨hends, hend⟩ := Place.endsAbove hp hcontinues hs
  exact ⟨hends, hend (by simp [hkind])⟩

theorem endsAbove_quote {source : List Char} : EndsAbove ('"' :: source) := by
  intro y p hp s k hs
  have hat : AtToken true ('"' :: (source ++ y)) := atToken_cons (by decide) (by decide)
  have hsource : p.source = '"' :: (source ++ y) := Place.source_of_atToken hat hp
  obtain ⟨_, -, hkind, -⟩ := Place.first?_eq_some_iff.mp hp
  obtain ⟨value, hkind⟩ : ∃ value, p.token.kind = .text value := by
    rw [hsource] at hkind
    obtain ⟨⟨units, rest⟩, -, hkind⟩ := Option.bind_eq_some_iff.mp hkind
    exact ⟨_, (Prod.mk.inj (Option.some.inj hkind)).1.symm⟩
  obtain ⟨hends, hend⟩ := Place.endsAbove hp (by simp [hkind, TokenKind.continuesOperand]) hs
  exact ⟨hends, hend (by simp [hkind])⟩

/-- An operand in parentheses is taken for the arguments of a call. -/
theorem not_endsAbove_parens : ¬EndsAbove "(\x7b\x7d)".toList := by
  intro h
  let p : Place := ⟨⟨.mark .parenOpen, ⟨0, 1⟩, true⟩, ['(', '\x7b', '\x7d', ')'], ['\x7b', '\x7d', ')']⟩
  let s : State := ⟨4, p.token, p.source, p.rest, 0, [], [], []⟩
  obtain ⟨hends, -⟩ := h [] p (by rfl) s 0 rfl
  have hcalls := hends.calls (fun _ => failure) {} 0 ⟨default, false⟩
  have hnone : (loop (callStep (fun _ => failure) {} 0) ⟨default, false⟩ s).isSome = false := by
    decide +kernel
  rw [hcalls] at hnone
  cases hnone

/-- The statements of a script are read up to its end. -/
theorem ending_of_statements {items : List Node}
    (h : statements r ctx (do return (← tokenKind) == .ending) s = some (items, s')) :
    s'.token.kind = .ending := by
  obtain ⟨⟨held, atHead⟩, s₁, hlast⟩ := exists_last_round h
  obtain ⟨ended, s₂, hended, hlast⟩ := bind_eq_some hlast
  cases hended
  split at hlast
  next hending =>
    cases hlast
    simpa using hending
  next =>
    obtain ⟨n, s₃, -, hlast⟩ := bind_eq_some hlast
    split at hlast <;> cases hlast

/-- What a script is read as can be told by its tokens alone. -/
theorem exists_tokens {text : String} {p : Program} (h : Program.parse? text = some p) :
    ∃ ts, Tokens text.toList ts := by
  obtain ⟨s, hs, h⟩ := Option.bind_eq_some_iff.mp h
  obtain ⟨⟨q, s'⟩, hq, -⟩ := Option.bind_eq_some_iff.mp h
  obtain ⟨items, s₁, hitems, -⟩ := bind_eq_some hq
  have hends : Reads text.toList false (do return (← tokenKind) == .ending) nothing :=
    .of_on fun _ => .look reads_tokenKind fun _ => .pure rfl
  have hp := reads_statements readsPhrases_phrase hends s items s₁ (sound_start? hs) hitems
  have hstart : Place.start? text.toList = some s.place := State.place_moveTo hs
  have hend : s₁.source = [] :=
    Place.source_eq_nil_of_steps hstart hp.steps (ending_of_statements hitems)
  obtain ⟨ts, e, htrail, he⟩ := Place.exists_trail hp.steps hend
  exact ⟨ts, s.place, e, hstart, htrail, he⟩

end FlatBundle.Script
