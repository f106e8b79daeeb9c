import FlatBundle.Proofs.Script.Lexer
import Mathlib.Data.List.TakeWhile

/-!
A text above a line break. What is read of it is the same whatever stands below, since no token and no
part of one goes on after a line break that it does not hold already.
-/

namespace FlatBundle.Script

variable {s rest y : List Char}

/-- A line break in between hides nothing of a start that has none itself. -/
theorem not_below (start : List Char) (h : ∀ t, s = start ++ t → False)
    (hstart : '\n' ∉ start := by decide) : ∀ t, s ++ '\n' :: y = start ++ t → False := by
  intro t ht
  rcases List.append_eq_append_iff.mp ht with ⟨more, rfl, hmore⟩ | ⟨more, rfl, -⟩
  · cases more with
    | nil => exact h [] (by simp)
    | cons c more =>
      obtain ⟨rfl, -⟩ := List.cons.inj hmore
      exact hstart (List.mem_append_right _ (List.mem_cons_self ..))
  · exact h more rfl

theorem takeWhile_below {p : Char → Bool} (hp : p '\n' = false) :
    (s ++ '\n' :: y).takeWhile p = s.takeWhile p := by
  induction s with
  | nil => simp [hp]
  | cons c s ih =>
    rw [List.cons_append, List.takeWhile_cons, List.takeWhile_cons, ih]

theorem dropWhile_below {p : Char → Bool} (hp : p '\n' = false) :
    (s ++ '\n' :: y).dropWhile p = s.dropWhile p ++ '\n' :: y := by
  induction s with
  | nil => simp [hp]
  | cons c s ih =>
    rw [List.cons_append, List.dropWhile_cons, List.dropWhile_cons, ih]
    split <;> rfl

/-- Some character that cannot be a hexadecimal digit. -/
def HasMark (s : List Char) : Prop :=
  ∃ c ∈ s, Json.hexValue? c = none

theorem hexNumber?_eq_none (h : HasMark s) : hexNumber? s = none := by
  obtain ⟨c, hc, hnone⟩ := h
  have run (n : Nat) : s.foldlM (fun n c => (Json.hexValue? c).map (n * 16 + ·)) n = none := by
    induction s generalizing n with
    | nil => cases hc
    | cons d s ih =>
      rw [List.foldlM_cons]
      cases hd : Json.hexValue? d with
      | none => rfl
      | some digit =>
        rcases List.mem_cons.mp hc with rfl | hc
        · rw [hnone] at hd
          cases hd
        · exact ih hc _
  exact run 0

theorem fixedHex?_append {count n : Nat} (h : fixedHex? count s = some (n, rest)) :
    fixedHex? count (s ++ y) = some (n, rest ++ y) := by
  simp only [fixedHex?] at h ⊢
  split at h
  · cases h
  next hlength =>
    have hle : count ≤ s.length := by
      rw [List.length_take] at hlength
      omega
    rw [List.take_append_of_le_length hle, List.drop_append_of_le_length hle, if_neg hlength]
    obtain ⟨n', hn, h⟩ := Option.bind_eq_some_iff.mp h
    cases h
    exact Option.bind_eq_some_iff.mpr ⟨_, hn, rfl⟩

theorem fixedHex?_append_eq_none {count : Nat} (hmark : HasMark s) (h : fixedHex? count s = none) :
    fixedHex? count (s ++ y) = none := by
  simp only [fixedHex?] at h ⊢
  by_cases hle : count ≤ s.length
  · rw [List.take_append_of_le_length hle]
    split at h
    next hlength =>
      rw [if_pos hlength]
      rfl
    next hlength =>
      rw [if_neg hlength]
      cases hn : hexNumber? (s.take count) with
      | none => rfl
      | some n =>
        rw [hn] at h
        cases h
  · have htake : (s ++ y).take count = s ++ y.take (count - s.length) := by
      rw [List.take_append, List.take_of_length_le (by omega)]
    have hnone : hexNumber? ((s ++ y).take count) = none := by
      obtain ⟨c, hc, hvalue⟩ := hmark
      rw [htake]
      exact hexNumber?_eq_none ⟨c, List.mem_append_left _ hc, hvalue⟩
    split
    · rfl
    · rw [hnone]
      rfl

theorem takeWhile_append_of_mem {p : Char → Bool} (h : ∃ c ∈ s, p c = false) :
    (s ++ y).takeWhile p = s.takeWhile p := by
  obtain ⟨c, hc, hp⟩ := h
  induction s with
  | nil => cases hc
  | cons d s ih =>
    rw [List.cons_append, List.takeWhile_cons, List.takeWhile_cons]
    rcases List.mem_cons.mp hc with rfl | hc
    · rw [hp]
      rfl
    · rw [ih hc]

theorem bracedCode?_append (h : HasMark s) :
    bracedCode? (s ++ y) = (bracedCode? s).map fun p => (p.1, p.2 ++ y) := by
  obtain ⟨c, hc, hvalue⟩ := h
  have hdigits : (s ++ y).takeWhile (fun c => (Json.hexValue? c).isSome) =
      s.takeWhile fun c => (Json.hexValue? c).isSome :=
    takeWhile_append_of_mem ⟨c, hc, by rw [hvalue]; rfl⟩
  have hdrop : (s ++ y).drop (s.takeWhile fun c => (Json.hexValue? c).isSome).length =
      s.drop (s.takeWhile fun c => (Json.hexValue? c).isSome).length ++ y :=
    List.drop_append_of_le_length (List.takeWhile_sublist _).length_le
  have hrest : s.drop (s.takeWhile fun c => (Json.hexValue? c).isSome).length ≠ [] := by
    intro hnil
    have hall := List.takeWhile_append_dropWhile (p := fun c => (Json.hexValue? c).isSome) (l := s)
    have hle := List.drop_eq_nil_iff.mp hnil
    have hmem : c ∈ s.takeWhile fun c => (Json.hexValue? c).isSome := by
      rwa [(List.takeWhile_sublist _).eq_of_length_le hle]
    have hdigit := List.mem_takeWhile_imp hmem
    rw [hvalue] at hdigit
    cases hdigit
  simp only [bracedCode?]
  rw [hdigits, hdrop]
  generalize s.takeWhile (fun c => (Json.hexValue? c).isSome) = digits at hrest ⊢
  generalize s.drop digits.length = after at hrest ⊢
  cases digits with
  | nil => rfl
  | cons d digits =>
    cases after with
    | nil => exact absurd rfl hrest
    | cons c after =>
      by_cases hbrace : c = '\x7d'
      · subst hbrace
        dsimp only [List.cons_append]
        cases hexNumber? (d :: digits) with
        | none => rfl
        | some n => simp only [Option.bind_eq_bind, Option.bind_some]; split <;> rfl
      · simp [hbrace]

theorem separatedDigits_below {isDigit : Char → Bool} (hbreak : isDigit '\n' = false)
    (h : separatedDigits isDigit s = some rest) :
    separatedDigits isDigit (s ++ '\n' :: y) = some (rest ++ '\n' :: y) := by
  induction s using separatedDigits.induct isDigit with
  | case1 c s hdigit ih =>
    rw [separatedDigits, if_pos hdigit] at h
    rw [List.cons_append, List.cons_append, separatedDigits, if_pos hdigit]
    exact ih h
  | case2 c s hdigit =>
    rw [separatedDigits, if_neg hdigit] at h
    cases h
  | case3 => cases h
  | case4 c s hcons hnil hdigit ih =>
    have hmark : c ≠ '_' := by
      rintro rfl
      cases s with
      | nil => exact hnil rfl rfl
      | cons b t => exact hcons b t rfl rfl
    rw [separatedDigits, if_pos hdigit] at h
    · rw [List.cons_append, separatedDigits, if_pos hdigit]
      · exact ih h
      all_goals simp [hmark]
    all_goals assumption
  | case5 c s hcons hnil hdigit =>
    have hmark : c ≠ '_' := by
      rintro rfl
      cases s with
      | nil => exact hnil rfl rfl
      | cons b t => exact hcons b t rfl rfl
    rw [separatedDigits, if_neg hdigit] at h
    · cases h
      rw [List.cons_append, separatedDigits, if_neg hdigit]
      all_goals simp [hmark]
    all_goals assumption
  | case6 =>
    cases h
    rw [List.nil_append, separatedDigits, if_neg (by simp [hbreak])]
    all_goals simp

theorem separatedDigits1_below {isDigit : Char → Bool} (hbreak : isDigit '\n' = false)
    (h : separatedDigits1 isDigit s = some rest) :
    separatedDigits1 isDigit (s ++ '\n' :: y) = some (rest ++ '\n' :: y) := by
  unfold separatedDigits1 at h ⊢
  grind [separatedDigits_below]

theorem numberEnd?_below (h : numberEnd? s = some rest) :
    numberEnd? (s ++ '\n' :: y) = some (rest ++ '\n' :: y) := by
  have hstart : Text.isIdStart '\n' = false := by decide
  unfold numberEnd? at h ⊢
  grind

theorem exponentEnd?_below (h : exponentEnd? s = some rest) :
    exponentEnd? (s ++ '\n' :: y) = some (rest ++ '\n' :: y) := by
  obtain ⟨after, hdigits, h⟩ := Option.bind_eq_some_iff.mp h
  refine Option.bind_eq_some_iff.mpr ⟨after ++ '\n' :: y, ?_, numberEnd?_below h⟩
  split at hdigits
  · exact separatedDigits1_below rfl hdigits
  · exact separatedDigits1_below rfl hdigits
  next hplus hminus =>
    split
    next heq => exact ((not_below ['+'] hplus) _ heq).elim
    next heq => exact ((not_below ['-'] hminus) _ heq).elim
    · exact separatedDigits1_below rfl hdigits

theorem fractionEnd?_below (h : fractionEnd? s = some rest) :
    fractionEnd? (s ++ '\n' :: y) = some (rest ++ '\n' :: y) := by
  unfold fractionEnd? at h
  split at h
  · exact exponentEnd?_below h
  · exact exponentEnd?_below h
  next lower upper =>
    rw [fractionEnd?.eq_3 _ (not_below ['e'] lower) (not_below ['E'] upper)]
    exact numberEnd?_below h

theorem pointEnd?_below (h : pointEnd? s = some rest) :
    pointEnd? (s ++ '\n' :: y) = some (rest ++ '\n' :: y) := by
  cases s with
  | nil =>
    cases h
    rfl
  | cons c s =>
    simp only [pointEnd?, List.cons_append] at h ⊢
    split at h
    next hdigit =>
      obtain ⟨after, hdigits, h⟩ := Option.bind_eq_some_iff.mp h
      rw [if_pos hdigit]
      exact Option.bind_eq_some_iff.mpr
        ⟨_, separatedDigits1_below (s := c :: s) rfl hdigits, fractionEnd?_below h⟩
    next hdigit =>
      rw [if_neg hdigit]
      exact fractionEnd?_below (s := c :: s) h

theorem integerEnd?_below (h : integerEnd? s = some rest) :
    integerEnd? (s ++ '\n' :: y) = some (rest ++ '\n' :: y) := by
  unfold integerEnd? at h
  split at h
  · exact pointEnd?_below h
  · exact numberEnd?_below h
  next hpoint hbig =>
    rw [integerEnd?.eq_3 _ (not_below ['.'] hpoint) (not_below ['n'] hbig)]
    exact fractionEnd?_below h

theorem radixEnd?_below {isDigit : Char → Bool} (hbreak : isDigit '\n' = false)
    (h : radixEnd? isDigit s = some rest) :
    radixEnd? isDigit (s ++ '\n' :: y) = some (rest ++ '\n' :: y) := by
  obtain ⟨after, hdigits, h⟩ := Option.bind_eq_some_iff.mp h
  refine Option.bind_eq_some_iff.mpr ⟨_, separatedDigits1_below hbreak hdigits, ?_⟩
  split at h
  · exact numberEnd?_below h
  next hbig =>
    split
    next heq => exact ((not_below ['n'] hbig) _ heq).elim
    · exact numberEnd?_below h

theorem leadingZeroEnd?_below (h : leadingZeroEnd? s = some rest) :
    leadingZeroEnd? (s ++ '\n' :: y) = some (rest ++ '\n' :: y) := by
  have hdrop : (s ++ '\n' :: y).drop (s.takeWhile Char.isDigit).length =
      s.drop (s.takeWhile Char.isDigit).length ++ '\n' :: y :=
    List.drop_append_of_le_length (List.takeWhile_sublist _).length_le
  unfold leadingZeroEnd? at h ⊢
  dsimp only at h ⊢
  rw [takeWhile_below rfl, hdrop]
  split at h
  next hoctal =>
    rw [if_pos hoctal]
    exact numberEnd?_below h
  next hoctal =>
    rw [if_neg hoctal]
    split at h
    next hpoint =>
      rw [hpoint]
      exact pointEnd?_below h
    next hpoint =>
      split
      next heq => exact ((not_below ['.'] hpoint) _ heq).elim
      · exact fractionEnd?_below h

theorem numberRest?_below (h : numberRest? s = some rest) :
    numberRest? (s ++ '\n' :: y) = some (rest ++ '\n' :: y) := by
  unfold numberRest? at h
  split at h
  · split at h
    iterate 6 exact radixEnd?_below (by decide) h
    next c s hb hB ho hO hx hX =>
      rw [List.cons_append, List.cons_append, numberRest?.eq_7 c _ hb hB ho hO hx hX]
      split at h
      next hdigit =>
        rw [if_pos hdigit]
        exact leadingZeroEnd?_below (s := c :: s) h
      next hdigit =>
        rw [if_neg hdigit]
        exact integerEnd?_below (s := c :: s) h
    · cases h
      rfl
  · exact pointEnd?_below h
  next hzero hpoint =>
    rw [numberRest?.eq_10 _ (not_below ['0'] hzero) (not_below ['.'] hpoint)]
    obtain ⟨after, hdigits, h⟩ := Option.bind_eq_some_iff.mp h
    exact Option.bind_eq_some_iff.mpr ⟨_, separatedDigits1_below rfl hdigits, integerEnd?_below h⟩

theorem unicodeCode?_append {n : Nat} (h : unicodeCode? s = some (n, rest)) :
    unicodeCode? (s ++ y) = some (n, rest ++ y) := by
  unfold unicodeCode? at h
  split at h
  next s =>
    have hmark : HasMark s := by
      unfold bracedCode? at h
      dsimp only at h
      split at h
      next hdrop => exact ⟨'\x7d', List.mem_of_mem_drop (hdrop ▸ List.mem_cons_self ..), by decide⟩
      · cases h
    have hcode := bracedCode?_append (y := y) hmark
    rw [h] at hcode
    exact hcode
  next hbrace =>
    have hs : ∀ t, s ++ y = '\x7b' :: t → False := by
      intro t ht
      cases s with
      | nil => cases h
      | cons c s =>
        obtain ⟨rfl, -⟩ := List.cons.inj ht
        exact hbrace s rfl
    rw [unicodeCode?.eq_2 _ hs]
    exact fixedHex?_append h

theorem wordRest_below {first : Bool} {fuel more : Nat} {cs : List Char} {escaped : Bool}
    (hfuel : fuel ≤ more) (h : wordRest first fuel s = some (cs, escaped, rest)) :
    wordRest first more (s ++ '\n' :: y) = some (cs, escaped, rest ++ '\n' :: y) := by
  have hbreak : Text.isIdStart '\n' = false ∧ Text.isIdContinue '\n' = false := by decide
  induction fuel generalizing more first s cs escaped rest with
  | zero => simp [wordRest] at h
  | succ fuel ih =>
    obtain ⟨more, rfl⟩ : ∃ m, more = m + 1 := ⟨more - 1, by omega⟩
    rw [wordRest.eq_def] at h
    dsimp -zeta only at h
    extract_lets fits at h
    split at h
    · rename_i s
      obtain ⟨⟨n, after⟩, hcode, h⟩ := Option.bind_eq_some_iff.mp h
      rw [List.cons_append, List.cons_append, wordRest.eq_2]
      refine Option.bind_eq_some_iff.mpr ⟨_, unicodeCode?_append hcode, ?_⟩
      dsimp only at h ⊢
      split at h
      · cases h
      next hfits =>
        obtain ⟨⟨cs, escaped, after⟩, hword, h⟩ := Option.bind_eq_some_iff.mp h
        cases h
        rw [if_neg hfits]
        exact Option.bind_eq_some_iff.mpr ⟨_, ih (by omega) hword, rfl⟩
    · cases h
    next c s hcode hslash =>
      rw [List.cons_append, wordRest.eq_4 first more c _ (fun t hc _ => hslash hc) hslash]
      split at h
      next hfits =>
        obtain ⟨⟨cs, escaped, after⟩, hword, h⟩ := Option.bind_eq_some_iff.mp h
        cases h
        rw [if_pos hfits]
        exact Option.bind_eq_some_iff.mpr ⟨_, ih (by omega) hword, rfl⟩
      next hfits =>
        rw [if_neg hfits]
        split at h
        · cases h
        next hfirst =>
          cases h
          rw [if_neg hfirst]
          rfl
    · split at h
      · cases h
      next hfirst =>
        cases h
        have hfirst : first = false := by simpa using hfirst
        simp [wordRest, hfirst, hbreak]

theorem word?_below {cs : List Char} {escaped : Bool} (h : word? s = some (cs, escaped, rest)) :
    word? (s ++ '\n' :: y) = some (cs, escaped, rest ++ '\n' :: y) :=
  wordRest_below (by simp) h

theorem first_of_word? {c : Char} {cs : List Char} {escaped : Bool}
    (h : word? (c :: s) = some (cs, escaped, rest)) : Text.isIdStart c ∨ c = '\\' := by
  refine or_iff_not_imp_right.mpr fun hslash => ?_
  rw [word?, wordRest.eq_4 true _ c s (fun _ hc _ => hslash hc) hslash] at h
  cases hc : Text.isIdStart c with
  | true => rfl
  | false =>
    rw [if_neg (by simp [hc])] at h
    cases h

/-- Some character that ends a string or a piece of a template. -/
def Closes (s : List Char) : Prop :=
  ∃ c ∈ s, c = '"' ∨ c = '\'' ∨ c = '\x60' ∨ c = '$'

theorem Closes.hasMark (h : Closes s) : HasMark s := by
  obtain ⟨c, hc, rfl | rfl | rfl | rfl⟩ := h <;> exact ⟨_, hc, by decide⟩

theorem Closes.of_cons {c : Char} (h : Closes (c :: s))
    (hc : c ≠ '"' ∧ c ≠ '\'' ∧ c ≠ '\x60' ∧ c ≠ '$') : Closes s := by
  obtain ⟨d, hd, hclose⟩ := h
  rcases List.mem_cons.mp hd with rfl | hd
  · obtain ⟨h₁, h₂, h₃, h₄⟩ := hc
    rcases hclose with h | h | h | h
    · exact absurd h h₁
    · exact absurd h h₂
    · exact absurd h h₃
    · exact absurd h h₄
  · exact ⟨d, hd, hclose⟩

theorem Closes.of_suffix (h : Closes rest) (hs : rest <:+ s) : Closes s := by
  obtain ⟨c, hc, hclose⟩ := h
  exact ⟨c, hs.subset hc, hclose⟩

theorem Closes.ne_nil (h : Closes s) : s ≠ [] := by
  rintro rfl
  obtain ⟨c, hc, -⟩ := h
  cases hc

/-- There is a first character already. -/
theorem Closes.not_append {c : Char} (h : Closes s) (hc : ∀ t, s = c :: t → False) :
    ∀ t, s ++ y = c :: t → False := by
  intro t ht
  cases s with
  | nil => exact h.ne_nil rfl
  | cons d s =>
    obtain ⟨rfl, -⟩ := List.cons.inj ht
    exact hc s rfl

/-- Digits close nothing. -/
theorem Closes.of_fixedHex? {count n : Nat} (h : Closes s) (hn : fixedHex? count s = some (n, rest)) :
    Closes rest := by
  simp only [fixedHex?] at hn
  split at hn
  · cases hn
  · obtain ⟨n', hvalue, hn⟩ := Option.bind_eq_some_iff.mp hn
    cases hn
    obtain ⟨c, hc, hclose⟩ := h
    rw [← List.take_append_drop count s] at hc
    rcases List.mem_append.mp hc with hc | hc
    · have hmark : HasMark (s.take count) := Closes.hasMark ⟨c, hc, hclose⟩
      rw [hexNumber?_eq_none hmark] at hvalue
      cases hvalue
    · exact ⟨c, hc, hclose⟩

/-- Two characters that close nothing stand at the start of a text, whatever follows it. -/
theorem Closes.escape_of_append {t : List Char} (h : Closes s) (heq : s ++ y = '\\' :: 'u' :: t) :
    ∃ t, s = '\\' :: 'u' :: t := by
  rcases s with _ | ⟨c, _ | ⟨d, s⟩⟩
  · exact absurd rfl h.ne_nil
  · obtain ⟨rfl, -⟩ := List.cons.inj heq
    exact absurd rfl (h.of_cons (by decide)).ne_nil
  · obtain ⟨rfl, htail⟩ := List.cons.inj heq
    obtain ⟨rfl, -⟩ := List.cons.inj htail
    exact ⟨s, rfl⟩

theorem unicodeEscape?_append (h : Closes s) :
    unicodeEscape? (s ++ y) = (unicodeEscape? s).map fun p => (p.1, p.2 ++ y) := by
  by_cases hbrace : ∃ t, s = '\x7b' :: t
  · obtain ⟨s, rfl⟩ := hbrace
    have hcode := bracedCode?_append (y := y) (h.of_cons (by decide)).hasMark
    rw [List.cons_append, unicodeEscape?.eq_1, unicodeEscape?.eq_1, hcode]
    cases bracedCode? s <;> rfl
  · have hs : ∀ t, s = '\x7b' :: t → False := fun t ht => hbrace ⟨t, ht⟩
    rw [unicodeEscape?.eq_2 _ hs, unicodeEscape?.eq_2 _ (h.not_append hs)]
    cases hcode : fixedHex? 4 s with
    | none =>
      rw [fixedHex?_append_eq_none h.hasMark hcode]
      rfl
    | some p =>
      obtain ⟨n, after⟩ := p
      rw [fixedHex?_append hcode]
      have hafter : Closes after := h.of_fixedHex? hcode
      simp only [Option.bind_eq_bind, Option.bind_some]
      split
      · rfl
      · by_cases hpair : ∃ t, after = '\\' :: 'u' :: t
        · obtain ⟨t, rfl⟩ := hpair
          have ht : Closes t := (hafter.of_cons (by decide)).of_cons (by decide)
          simp only [List.cons_append]
          cases hlow : fixedHex? 4 t with
          | none =>
            rw [fixedHex?_append_eq_none ht.hasMark hlow]
            rfl
          | some p =>
            rw [fixedHex?_append hlow]
            dsimp only
            split <;> rfl
        · have hafter' : ∀ t, after ++ y = '\\' :: 'u' :: t → False := fun t ht =>
            hpair (hafter.escape_of_append ht)
          split
          · exact (hafter' _ ‹_›).elim
          · split
            · exact (hpair ⟨_, rfl⟩).elim
            · rfl

theorem octalEscape_append {first : Char} (h : Closes s) :
    octalEscape first (s ++ y) = ((octalEscape first s).1, (octalEscape first s).2 ++ y) := by
  cases s with
  | nil => exact absurd rfl h.ne_nil
  | cons b s =>
    by_cases hb : isOctal b
    · cases s with
      | nil => 
        exfalso
        obtain ⟨c, hc, hclose⟩ := h
        rw [List.mem_singleton.mp hc] at hclose
        obtain rfl | rfl | rfl | rfl := hclose <;> cases hb
      | cons c s =>
        simp only [octalEscape, List.cons_append, hb]
        simp only [Bool.not_true, Bool.false_eq_true, if_false]
        split <;> rfl
    · simp [octalEscape, hb]

theorem escape?_append {inTemplate : Bool} (h : Closes s) :
    escape? inTemplate (s ++ y) = (escape? inTemplate s).map fun p => (p.1, p.2 ++ y) := by
  have hcr {c : Char} {s : List Char} (h : Closes (c :: s))
      (hpair : ∀ t, c = '\r' → s = '\n' :: t → False) :
      ∀ t, c = '\r' → s ++ y = '\n' :: t → False := by
    rintro t rfl ht
    exact (h.of_cons (by decide)).not_append (fun t => hpair t rfl) t ht
  have hdigits {c : Char} {s : List Char} (h : Closes (c :: s)) (hc : c.isDigit ∨ isOctal c) :
      Closes s := by
    refine h.of_cons ⟨?_, ?_, ?_, ?_⟩ <;>
    · rintro rfl
      revert hc
      decide
  have hhead {c : Char} {s : List Char} (h : Closes (c :: s)) (hc : (c.isDigit && inTemplate) = true) :
      (s ++ y).head? = s.head? := by
    have hs : Closes s := hdigits h (.inl (Bool.and_eq_true_iff.mp hc).1)
    cases s with
    | nil => exact absurd rfl hs.ne_nil
    | cons d s => rfl
  fun_cases escape? inTemplate s with
  | case1 => exact absurd rfl h.ne_nil
  | case3 s =>
    rw [List.cons_append, escape?.eq_3]
    have hs := (h.of_cons (by decide)).hasMark
    cases hcode : fixedHex? 2 s with
    | none =>
      rw [fixedHex?_append_eq_none hs hcode]
      rfl
    | some p =>
      rw [fixedHex?_append hcode]
      rfl
  | case4 s =>
    rw [List.cons_append, escape?.eq_4, unicodeEscape?_append (h.of_cons (by decide))]
    cases unicodeEscape? s <;> rfl
  | case2 | case5 | case6 | case7 | case8 | case9 | case10 => rfl
  | case11 c s hpair _ _ _ _ _ _ _ _ hline =>
    rw [List.cons_append, escape?.eq_11 _ _ _ (hcr h hpair), if_pos hline]
    · rfl
    all_goals assumption
  | case12 c s hpair _ _ _ _ _ _ _ _ hline hdigit hzero =>
    rw [List.cons_append, escape?.eq_11 _ _ _ (hcr h hpair), if_neg hline, if_pos hdigit,
      hhead h hdigit, if_pos hzero]
    · rfl
    all_goals assumption
  | case13 c s hpair _ _ _ _ _ _ _ _ hline hdigit hzero =>
    rw [List.cons_append, escape?.eq_11 _ _ _ (hcr h hpair), if_neg hline, if_pos hdigit,
      hhead h hdigit, if_neg hzero]
    · rfl
    all_goals assumption
  | case14 c s hpair _ _ _ _ _ _ _ _ hline hdigit hoctal n after hrest =>
    rw [List.cons_append, escape?.eq_11 _ _ _ (hcr h hpair), if_neg hline, if_neg hdigit, if_pos hoctal,
      octalEscape_append (hdigits h (.inr hoctal)), hrest]
    · rfl
    all_goals assumption
  | case15 c s hpair _ _ _ _ _ _ _ _ hline hdigit hoctal =>
    rw [List.cons_append, escape?.eq_11 _ _ _ (hcr h hpair), if_neg hline, if_neg hdigit, if_neg hoctal]
    · rfl
    all_goals assumption

theorem mem_of_stringRest {quote : Char} {fuel : Nat} {units : List Unit16}
    (h : stringRest quote fuel s = some (units, rest)) : quote ∈ s := by
  induction fuel generalizing s units with
  | zero => simp [stringRest] at h
  | succ fuel ih =>
    rw [stringRest.eq_def] at h
    dsimp only at h
    split at h
    · cases h
    · obtain ⟨⟨_, after⟩, hescape, h⟩ := Option.bind_eq_some_iff.mp h
      obtain ⟨⟨_, _⟩, hrest, h⟩ := Option.bind_eq_some_iff.mp h
      cases h
      exact List.mem_cons_of_mem _ ((escape?_suffix hescape).subset (ih hrest))
    · split at h
      next hquote => exact hquote ▸ List.mem_cons_self ..
      · split at h
        · cases h
        · obtain ⟨⟨_, _⟩, hrest, h⟩ := Option.bind_eq_some_iff.mp h
          cases h
          exact List.mem_cons_of_mem _ (ih hrest)

/-- A string ends with its quote, and what follows that does not matter. -/
theorem stringRest_append {quote : Char} {fuel more : Nat} {units : List Unit16}
    (hquote : quote = '"' ∨ quote = '\'') (hfuel : fuel ≤ more)
    (h : stringRest quote fuel s = some (units, rest)) :
    stringRest quote more (s ++ y) = some (units, rest ++ y) := by
  induction fuel generalizing more s units with
  | zero => simp [stringRest] at h
  | succ fuel ih =>
    obtain ⟨more, rfl⟩ : ∃ m, more = m + 1 := ⟨more - 1, by omega⟩
    rw [stringRest.eq_def] at h
    dsimp only at h
    split at h
    · cases h
    next s =>
      obtain ⟨⟨before, after⟩, hescape, h⟩ := Option.bind_eq_some_iff.mp h
      obtain ⟨⟨later, _⟩, hrest, h⟩ := Option.bind_eq_some_iff.mp h
      cases h
      have hcloses : Closes s := by
        refine ⟨quote, (escape?_suffix hescape).subset (mem_of_stringRest hrest), ?_⟩
        exact hquote.imp id .inl
      have happend : escape? false (s ++ y) = some (before, after ++ y) := by
        rw [escape?_append hcloses, hescape]
        rfl
      rw [List.cons_append, stringRest.eq_3]
      exact Option.bind_eq_some_iff.mpr
        ⟨_, happend, Option.bind_eq_some_iff.mpr ⟨_, ih (by omega) hrest, rfl⟩⟩
    next c s hslash =>
      rw [List.cons_append, stringRest.eq_4 _ _ _ _ hslash]
      split at h
      next hend =>
        cases h
        rw [if_pos hend]
      next hend =>
        rw [if_neg hend]
        split at h
        · cases h
        next hline =>
          obtain ⟨⟨later, _⟩, hrest, h⟩ := Option.bind_eq_some_iff.mp h
          cases h
          rw [if_neg hline]
          exact Option.bind_eq_some_iff.mpr ⟨_, ih (by omega) hrest, rfl⟩

theorem closes_of_templateRest {fuel : Nat} {units : Option (List Unit16)} {last : Bool}
    (h : templateRest fuel s = some (units, last, rest)) : Closes s := by
  induction fuel generalizing s units with
  | zero => simp [templateRest] at h
  | succ fuel ih =>
    have step {before : Option (List Unit16)} {after : List Char}
        (h : ((templateRest fuel after).bind fun more =>
          some ((do return (← before) ++ (← more.1)), more.2)) = some (units, last, rest)) :
        Closes after := by
      obtain ⟨⟨_, _, _⟩, hrest, h⟩ := Option.bind_eq_some_iff.mp h
      cases h
      exact ih hrest
    simp only [templateRest] at h
    split at h
    · cases h
    · exact ⟨'\x60', List.mem_cons_self .., by decide⟩
    · exact ⟨'$', List.mem_cons_self .., by decide⟩
    · split at h
      next hescape =>
        exact (step h).of_suffix (suffix_cons_of_suffix (escape?_suffix hescape))
      · exact (step h).of_suffix (suffix_cons_of_suffix (List.suffix_cons ..))
      · cases h
    · exact (step h).of_suffix (suffix_cons_of_suffix (List.suffix_cons ..))
    · exact (step h).of_suffix (List.suffix_cons ..)
    · exact (step h).of_suffix (List.suffix_cons ..)

/-- A piece of a template ends within it, and what follows that does not matter. -/
theorem templateRest_append {fuel more : Nat} {units : Option (List Unit16)} {last : Bool}
    (hfuel : fuel ≤ more) (h : templateRest fuel s = some (units, last, rest)) :
    templateRest more (s ++ y) = some (units, last, rest ++ y) := by
  induction fuel generalizing more s units with
  | zero => simp [templateRest] at h
  | succ fuel ih =>
    obtain ⟨more, rfl⟩ : ∃ m, more = m + 1 := ⟨more - 1, by omega⟩
    have step {before : Option (List Unit16)} {after : List Char}
        (h : ((templateRest fuel after).bind fun more =>
          some ((do return (← before) ++ (← more.1)), more.2)) = some (units, last, rest)) :
        Closes after ∧ ((templateRest more (after ++ y)).bind fun more =>
          some ((do return (← before) ++ (← more.1)), more.2)) = some (units, last, rest ++ y) := by
      obtain ⟨⟨_, _, _⟩, hrest, h⟩ := Option.bind_eq_some_iff.mp h
      cases h
      exact ⟨closes_of_templateRest hrest, Option.bind_eq_some_iff.mpr ⟨_, ih (by omega) hrest, rfl⟩⟩
    rw [templateRest.eq_def] at h
    dsimp only at h
    split at h
    · cases h
    · cases h
      rfl
    · cases h
      rfl
    next s =>
      split at h
      next s _ _ units after hescape =>
        obtain ⟨hcloses, hafter⟩ := step h
        have happend : escape? true (s ++ y) = some (units, after ++ y) := by
          rw [escape?_append (hcloses.of_suffix (escape?_suffix hescape)), hescape]
          rfl
        rw [List.cons_append, templateRest.eq_5 _ _ _ _ happend]
        exact hafter
      next c s hescape =>
        obtain ⟨hcloses, hafter⟩ := step h
        have happend : escape? true (c :: (s ++ y)) = none := by
          rw [← List.cons_append, escape?_append (hcloses.of_suffix (List.suffix_cons ..)), hescape]
          rfl
        rw [List.cons_append, List.cons_append, templateRest.eq_6 _ _ _ happend]
        exact hafter
      · cases h
    next s =>
      obtain ⟨-, hafter⟩ := step h
      exact hafter
    next s hpair =>
      obtain ⟨hcloses, hafter⟩ := step h
      rw [List.cons_append, templateRest.eq_9 _ _ (hcloses.not_append hpair)]
      exact hafter
    next c s hend hopen hslash hpair hcr =>
      obtain ⟨hcloses, hafter⟩ := step h
      rw [List.cons_append, templateRest.eq_10 _ _ _ hend
        (fun t hc ht => hcloses.not_append (fun t => hopen t hc) t ht) hslash
        (fun _ hc _ => hcr hc) hcr]
      exact hafter

theorem regularExpressionBody_append {inClass : Bool} (h : regularExpressionBody inClass s = some rest) :
    regularExpressionBody inClass (s ++ y) = some (rest ++ y) := by
  have hslash {inClass : Bool} {c : Char} {s : List Char}
      (hpair : ∀ d t, c = '\\' → s = d :: t → False)
      (h : regularExpressionBody inClass (c :: s) = some rest) : c ≠ '\\' := by
    rintro rfl
    cases s with
    | nil => cases h
    | cons d t => exact hpair d t rfl rfl
  induction inClass, s using regularExpressionBody.induct with
  | case1 => cases h
  | case2 inClass c s hline =>
    rw [regularExpressionBody, if_pos hline] at h
    cases h
  | case3 inClass c s hline ih =>
    rw [regularExpressionBody, if_neg hline] at h
    rw [List.cons_append, List.cons_append, regularExpressionBody, if_neg hline]
    exact ih h
  | case4 inClass c s hpair hline =>
    rw [regularExpressionBody.eq_3 _ _ _ hpair, if_pos hline] at h
    cases h
  | case5 inClass c s hpair hline hend =>
    have hc := hslash hpair h
    rw [regularExpressionBody.eq_3 _ _ _ hpair, if_neg hline, if_pos hend] at h
    cases h
    rw [List.cons_append, regularExpressionBody.eq_3 _ _ _ fun _ _ h _ => hc h, if_neg hline,
      if_pos hend]
  | case6 inClass s hpair hline hend ih =>
    rw [regularExpressionBody.eq_3 _ _ _ hpair, if_neg hline, if_neg hend, if_pos rfl] at h
    rw [List.cons_append, regularExpressionBody.eq_3 _ _ _ (by simp), if_neg hline, if_neg hend,
      if_pos rfl]
    exact ih h
  | case7 inClass s hpair hline hend hopen ih =>
    rw [regularExpressionBody.eq_3 _ _ _ hpair, if_neg hline, if_neg hend, if_neg hopen,
      if_pos rfl] at h
    rw [List.cons_append, regularExpressionBody.eq_3 _ _ _ (by simp), if_neg hline, if_neg hend,
      if_neg hopen, if_pos rfl]
    exact ih h
  | case8 inClass c s hpair hline hend hopen hclose ih =>
    have hc := hslash hpair h
    rw [regularExpressionBody.eq_3 _ _ _ hpair, if_neg hline, if_neg hend, if_neg hopen,
      if_neg hclose] at h
    rw [List.cons_append, regularExpressionBody.eq_3 _ _ _ fun _ _ h _ => hc h, if_neg hline,
      if_neg hend, if_neg hopen, if_neg hclose]
    exact ih h

theorem regularExpressionRest?_below (h : regularExpressionRest? s = some rest) :
    regularExpressionRest? (s ++ '\n' :: y) = some (rest ++ '\n' :: y) := by
  obtain ⟨after, hbody, h⟩ := Option.bind_eq_some_iff.mp h
  refine Option.bind_eq_some_iff.mpr ⟨_, regularExpressionBody_append hbody, ?_⟩
  dsimp only at h ⊢
  rw [takeWhile_below rfl]
  split at h
  next hflags =>
    cases h
    rw [if_pos hflags]
    exact congrArg some (List.drop_append_of_le_length (List.takeWhile_sublist _).length_le)
  · cases h

theorem mark?_of_isIdStart {c : Char} (hc : Text.isIdStart c) : mark? (c :: s) = none := by
  have hne (d : Char) (hd : Text.isIdStart d = false) : c ≠ d := by
    rintro rfl
    rw [hc] at hd
    cases hd
  unfold mark?
  split
  case h_59 => rfl
  all_goals exact absurd (List.cons.inj ‹c :: s = _›).1 (hne _ (by decide))

theorem mark?_below {m : Mark} {n : Nat} (h : mark? s = some (m, n)) :
    mark? (s ++ '\n' :: y) = some (m, n) := by
  have heq {s : List Char} (h : ∀ t, s = '=' :: t → False) : ∀ t, s ++ '\n' :: y = '=' :: t → False :=
    not_below ['='] h
  unfold mark? at h
  split at h
  case h_10 hno => exact (mark?.eq_10 _ (not_below ['.', '.'] hno)).trans h
  case h_12 hno => exact (mark?.eq_12 _ (heq hno)).trans h
  case h_14 h₁ h₂ h₃ =>
    exact (mark?.eq_14 _ (not_below ['?', '='] h₁) (not_below ['?'] h₂) (not_below ['.'] h₃)).trans h
  case h_20 hno => exact (mark?.eq_20 _ (heq hno)).trans h
  case h_21 h₁ h₂ h₃ =>
    exact (mark?.eq_21 _ (not_below ['>'] h₁) (not_below ['=', '='] h₂) (heq h₃)).trans h
  case h_23 hno => exact (mark?.eq_23 _ (heq hno)).trans h
  case h_24 h₁ h₂ => exact (mark?.eq_24 _ (not_below ['=', '='] h₁) (heq h₂)).trans h
  case h_27 h₁ h₂ => exact (mark?.eq_27 _ (not_below ['+'] h₁) (heq h₂)).trans h
  case h_30 h₁ h₂ => exact (mark?.eq_30 _ (not_below ['-'] h₁) (heq h₂)).trans h
  case h_32 hno => exact (mark?.eq_32 _ (heq hno)).trans h
  case h_34 h₁ h₂ h₃ =>
    exact (mark?.eq_34 _ (not_below ['*', '='] h₁) (not_below ['*'] h₂) (heq h₃)).trans h
  case h_36 hno => exact (mark?.eq_36 _ (heq hno)).trans h
  case h_38 hno => exact (mark?.eq_38 _ (heq hno)).trans h
  case h_40 hno => exact (mark?.eq_40 _ (heq hno)).trans h
  case h_42 h₁ h₂ h₃ =>
    exact (mark?.eq_42 _ (not_below ['<', '='] h₁) (not_below ['<'] h₂) (heq h₃)).trans h
  case h_44 hno => exact (mark?.eq_44 _ (heq hno)).trans h
  case h_46 h₁ h₂ h₃ =>
    exact (mark?.eq_46 _ (not_below ['>', '='] h₁) (not_below ['>'] h₂) (heq h₃)).trans h
  case h_48 h₁ h₂ h₃ h₄ h₅ =>
    exact (mark?.eq_48 _ (not_below ['>', '>', '='] h₁) (not_below ['>', '>'] h₂) (not_below ['>', '='] h₃)
      (not_below ['>'] h₄) (heq h₅)).trans h
  case h_50 hno => exact (mark?.eq_50 _ (heq hno)).trans h
  case h_52 h₁ h₂ h₃ =>
    exact (mark?.eq_52 _ (not_below ['&', '='] h₁) (not_below ['&'] h₂) (heq h₃)).trans h
  case h_54 hno => exact (mark?.eq_54 _ (heq hno)).trans h
  case h_56 h₁ h₂ h₃ =>
    exact (mark?.eq_56 _ (not_below ['|', '='] h₁) (not_below ['|'] h₂) (heq h₃)).trans h
  case h_58 hno => exact (mark?.eq_58 _ (heq hno)).trans h
  case h_13 s =>
    have hhead : (s ++ '\n' :: y).head?.any Char.isDigit = s.head?.any Char.isDigit := by
      cases s <;> rfl
    rw [← hhead] at h
    exact h
  case h_59 => cases h
  all_goals exact h

/-- A token ends before a line that follows. -/
theorem kind?_below {kind : TokenKind} (hs : s ≠ []) (h : kind? s = some (kind, rest)) :
    kind? (s ++ '\n' :: y) = some (kind, rest ++ '\n' :: y) := by
  unfold kind? at h
  split at h
  · exact absurd rfl hs
  next s =>
    obtain ⟨⟨units, _⟩, hrest, h⟩ := Option.bind_eq_some_iff.mp h
    cases h
    exact Option.bind_eq_some_iff.mpr ⟨_, stringRest_append (.inl rfl) (by simp) hrest, rfl⟩
  next s =>
    obtain ⟨⟨units, _⟩, hrest, h⟩ := Option.bind_eq_some_iff.mp h
    cases h
    exact Option.bind_eq_some_iff.mpr ⟨_, stringRest_append (.inr rfl) (by simp) hrest, rfl⟩
  next s =>
    obtain ⟨⟨units, last, _⟩, hrest, h⟩ := Option.bind_eq_some_iff.mp h
    cases h
    exact Option.bind_eq_some_iff.mpr ⟨_, templateRest_append (by simp) hrest, rfl⟩
  next s =>
    obtain ⟨⟨name, escaped, _⟩, hword, h⟩ := Option.bind_eq_some_iff.mp h
    cases h
    exact Option.bind_eq_some_iff.mpr ⟨_, word?_below hword, rfl⟩
  next c next h₁ h₂ h₃ h₄ =>
    rw [List.cons_append, kind?.eq_6 _ _ h₁ h₂ h₃ h₄]
    have hhead : (next ++ '\n' :: y).head?.any Char.isDigit = next.head?.any Char.isDigit := by
      cases next <;> rfl
    rw [hhead]
    split at h
    next hnumber =>
      obtain ⟨after, hrest, h⟩ := Option.bind_eq_some_iff.mp h
      cases h
      rw [if_pos hnumber]
      exact Option.bind_eq_some_iff.mpr ⟨_, numberRest?_below (s := c :: next) hrest, rfl⟩
    next hnumber =>
      rw [if_neg hnumber]
      split at h
      next m n hmark =>
        cases h
        have hbelow := mark?_below (y := y) hmark
        rw [List.cons_append] at hbelow
        rw [hbelow]
        exact congrArg (fun t => some (TokenKind.mark m, t))
          (List.drop_append_of_le_length (mark?_length hmark).2)
      next hmark =>
        obtain ⟨⟨name, escaped, _⟩, hword, h⟩ := Option.bind_eq_some_iff.mp h
        cases h
        have hnone : mark? (c :: (next ++ '\n' :: y)) = none := by
          rcases first_of_word? hword with hstart | rfl
          · exact mark?_of_isIdStart hstart
          · rfl
        rw [hnone]
        exact Option.bind_eq_some_iff.mpr ⟨_, word?_below (s := c :: next) hword, rfl⟩

end FlatBundle.Script
