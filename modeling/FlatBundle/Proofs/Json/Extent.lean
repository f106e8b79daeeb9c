import FlatBundle.Proofs.Json.Reader

/-!
Where values end. A reader that stops inside of a text stops there whatever follows the text; a value in brackets or
braces ends with its last character, so that it does not depend on what follows at all.
-/

namespace FlatBundle.Json

variable {c : Char} {s t r rest : List Char} {fuel fuel' : Nat} {v : Value}

theorem bind_eq_ok_iff {ε α β : Type} {x : Except ε α} {f : α → Except ε β} {b : β} :
    (x >>= f) = .ok b ↔ ∃ a, x = .ok a ∧ f a = .ok b := by
  cases x with
  | error e => exact ⟨nofun, fun ⟨_, h, _⟩ => nomatch h⟩
  | ok a => exact ⟨fun h => ⟨a, rfl, h⟩, fun ⟨_, h, hb⟩ => by cases h; exact hb⟩

theorem skipSpace_append (h : skipSpace s = c :: t) (rest : List Char) : skipSpace (s ++ rest) = c :: (t ++ rest) := by
  unfold skipSpace at h ⊢
  rw [List.dropWhile_append, h]
  rfl

/-- A reader that stops inside of a text, stops there whatever follows. -/
def StopsInside {α : Type} (read : List Char → Except Failure (α × List Char)) : Prop :=
  ∀ {s a r}, read s = .ok (a, r) → r ≠ [] → ∀ rest, read (s ++ rest) = .ok (a, r ++ rest)

section Numbers

theorem stopsInside_digits : StopsInside fun s => .ok (digits s) := by
  intro s ds r h hr rest
  cases h
  have hdrop : s.dropWhile Char.isDigit ≠ [] := hr
  have htake : (s.takeWhile Char.isDigit).length ≠ s.length := by
    intro hlength
    have hsplit := congrArg List.length (List.takeWhile_append_dropWhile (p := Char.isDigit) (l := s))
    rw [List.length_append, hlength] at hsplit
    exact hdrop (List.eq_nil_of_length_eq_zero (by omega))
  simp [digits, List.takeWhile_append, List.dropWhile_append, hdrop, htake]

theorem stopsInside_digits1 : StopsInside digits1 := by
  intro s ds r h hr rest
  cases s with
  | nil => cases h
  | cons c s =>
    rw [digits1] at h
    rw [List.cons_append, digits1]
    split at h
    next hc => rw [if_pos hc]; exact stopsInside_digits h hr rest
    next => cases h

theorem integerPart_cons (hc : c ≠ '0') : integerPart (c :: s) = digits1 (c :: s) := by
  unfold integerPart
  split
  next heq => exact absurd (List.cons.inj heq).1 hc
  next => rfl

theorem stopsInside_integerPart : StopsInside integerPart := by
  intro s ds r h hr rest
  cases s with
  | nil => cases h
  | cons c s =>
    by_cases hc : c = '0'
    · subst hc
      cases s with
      | nil =>
        cases h
        exact absurd rfl hr
      | cons d s =>
        rw [integerPart] at h
        rw [List.cons_append, List.cons_append, integerPart]
        split at h
        next => cases h
        next hd =>
          cases h
          rw [if_neg hd, List.cons_append]
    · rw [integerPart_cons hc] at h
      rw [List.cons_append, integerPart_cons hc]
      exact stopsInside_digits1 h hr rest

theorem fractionPart_cons (hc : c ≠ '.') : fractionPart (c :: s) = .ok (none, c :: s) := by
  unfold fractionPart
  split
  next heq => exact absurd (List.cons.inj heq).1 hc
  next => rfl

theorem stopsInside_fractionPart : StopsInside fractionPart := by
  intro s ds r h hr rest
  cases s with
  | nil =>
    cases h
    exact absurd rfl hr
  | cons c s =>
    by_cases hc : c = '.'
    · subst hc
      rw [fractionPart] at h
      obtain ⟨⟨ds, s'⟩, hdigits, h⟩ := bind_eq_ok_iff.mp h
      cases h
      rw [List.cons_append, fractionPart, stopsInside_digits1 hdigits hr rest]
      rfl
    · rw [fractionPart_cons hc] at h
      cases h
      rw [List.cons_append, fractionPart_cons hc]

/-- The sign of an exponent, and what follows it. -/
def exponentSign : List Char → Int × List Char
  | '+' :: s => (1, s)
  | '-' :: s => (-1, s)
  | s => (1, s)

theorem exponentSign_append (hs : s ≠ []) (rest : List Char) :
    exponentSign (s ++ rest) = ((exponentSign s).1, (exponentSign s).2 ++ rest) := by
  obtain ⟨c, s, rfl⟩ := List.exists_cons_of_ne_nil hs
  unfold exponentSign
  split
  next heq => obtain ⟨rfl, rfl⟩ := List.cons.inj heq; rfl
  next heq => obtain ⟨rfl, rfl⟩ := List.cons.inj heq; rfl
  next hplus hminus =>
    split
    next heq => exact absurd (congrArg (· ++ rest) heq) (hplus _)
    next heq => exact absurd (congrArg (· ++ rest) heq) (hminus _)
    next => rfl

theorem exponentPart_cons : exponentPart (c :: s) =
    if c = 'e' || c = 'E' then do
      let (ds, r) ← digits1 (exponentSign s).2
      return (some ((exponentSign s).1 * (ds.foldl (fun (n : Nat) d => n * 10 + d) 0 : Nat)), r)
    else .ok (none, c :: s) :=
  rfl

theorem stopsInside_exponentPart : StopsInside exponentPart := by
  intro s e r h hr rest
  cases s with
  | nil =>
    cases h
    exact absurd rfl hr
  | cons c s =>
    rw [exponentPart_cons] at h
    rw [List.cons_append, exponentPart_cons]
    split at h
    next hc =>
      obtain ⟨⟨ds, s'⟩, hdigits, h⟩ := bind_eq_ok_iff.mp h
      cases h
      have hs : s ≠ [] := by
        rintro rfl
        cases hdigits
      rw [if_pos hc, exponentSign_append hs]
      dsimp only
      rw [stopsInside_digits1 hdigits hr rest]
      rfl
    next hc =>
      cases h
      rw [if_neg hc, List.cons_append]

theorem stopsInside_readNumber (negative : Bool) : StopsInside (readNumber negative) := by
  intro s v r h hr rest
  obtain ⟨⟨whole, s₁⟩, hwhole, h⟩ := bind_eq_ok_iff.mp h
  obtain ⟨⟨fraction, s₂⟩, hfraction, h⟩ := bind_eq_ok_iff.mp h
  obtain ⟨⟨exponent, s₃⟩, hexponent, h⟩ := bind_eq_ok_iff.mp h
  cases h
  have hs₂ : s₂ ≠ [] := by
    rintro rfl
    cases hexponent
    exact hr rfl
  have hs₁ : s₁ ≠ [] := by
    rintro rfl
    cases hfraction
    exact hs₂ rfl
  exact bind_eq_ok_iff.mpr ⟨_, stopsInside_integerPart hwhole hs₁ rest, bind_eq_ok_iff.mpr
    ⟨_, stopsInside_fractionPart hfraction hs₂ rest, bind_eq_ok_iff.mpr
      ⟨_, stopsInside_exponentPart hexponent hr rest, rfl⟩⟩⟩

end Numbers

section Strings

variable {n : Nat} {c? : Option Char} {text? : Option (List Char)}

theorem hexEscape?_append (h : hexEscape? s = .ok (n, r)) (rest : List Char) :
    hexEscape? (s ++ rest) = .ok (n, r ++ rest) := by
  unfold hexEscape? at h
  split at h
  next a b c d s =>
    split at h
    next ha hb hc hd =>
      cases h
      simp [hexEscape?, ha, hb, hc, hd]
    next => cases h
  next => cases h

/-- The rest of an escape with a code, which may be the first half of a pair. -/
def escapedChar? (n : Nat) (s : List Char) : Except Failure (Option Char × List Char) := do
  if isLowSurrogate n then return (none, s)
  else if isHighSurrogate n then
    match s with
    | '\\' :: 'u' :: rest =>
      let (low, rest) ← hexEscape? rest
      return if isLowSurrogate low then (some (joinSurrogates n low), rest) else (none, s)
    | _ => return (none, s)
  else return (some (Char.ofNat n), s)

theorem stringChar?_escape :
    stringChar? ('\\' :: 'u' :: s) = hexEscape? s >>= fun (n, s) => escapedChar? n s :=
  rfl

theorem escapedChar?_append (h : escapedChar? n s = .ok (c?, r)) (hr : r ≠ []) (hslash : r ≠ ['\\'])
    (rest : List Char) : escapedChar? n (s ++ rest) = .ok (c?, r ++ rest) := by
  unfold escapedChar? at h ⊢
  split at h
  next hlow =>
    cases h
    rw [if_pos hlow]
    rfl
  next hlow =>
    rw [if_neg hlow]
    split at h
    next hhigh =>
      rw [if_pos hhigh]
      split at h
      next s =>
        obtain ⟨⟨low, s'⟩, hescape, h⟩ := bind_eq_ok_iff.mp h
        refine bind_eq_ok_iff.mpr ⟨_, hexEscape?_append hescape rest, ?_⟩
        dsimp only at h ⊢
        split at h <;> cases h
        next hpair => rw [if_pos hpair]; rfl
        next hpair => rw [if_neg hpair]; rfl
      next hpair =>
        cases h
        split
        next heq =>
          -- a pair that only shows with what follows would need `s` to end behind its slash
          obtain ⟨c, t, rfl⟩ := List.exists_cons_of_ne_nil hr
          obtain ⟨rfl, htail⟩ := List.cons.inj heq
          cases t with
          | nil => exact absurd rfl hslash
          | cons d t =>
            obtain ⟨rfl, -⟩ := List.cons.inj htail
            exact absurd rfl (hpair t)
        next => rfl
    next hhigh =>
      cases h
      rw [if_neg hhigh]
      rfl

theorem stringChar?_cons (hc : c ≠ '\\') :
    stringChar? (c :: s) = if c.toNat < 0x20 then .error .unexpected else .ok (some c, s) := by
  rw [stringChar?.eq_def]
  split
  next heq => cases heq
  next heq => exact absurd (List.cons.inj heq).1 hc
  next heq => exact absurd (List.cons.inj heq).1 hc
  next heq => exact absurd (List.cons.inj heq).1 hc
  next heq =>
    obtain ⟨rfl, rfl⟩ := List.cons.inj heq
    rfl

theorem stringChar?_simple (hc : c ≠ 'u') : stringChar? ('\\' :: c :: s) =
    match simpleEscape? c with
    | some c => .ok (some c, s)
    | none => .error .unexpected := by
  rw [stringChar?.eq_def]
  split
  next heq => cases heq
  next heq => exact absurd (List.cons.inj (List.cons.inj heq).2).1 hc
  next heq =>
    obtain ⟨rfl, rfl⟩ := List.cons.inj (List.cons.inj heq).2
    rfl
  next heq => cases (List.cons.inj heq).2
  next hsimple _ heq => exact (hsimple c s (List.cons.inj heq).1.symm (List.cons.inj heq).2.symm).elim

theorem stringChar?_append (h : stringChar? s = .ok (c?, r)) (hr : r ≠ []) (hslash : r ≠ ['\\'])
    (rest : List Char) : stringChar? (s ++ rest) = .ok (c?, r ++ rest) := by
  cases s with
  | nil => cases h
  | cons c s =>
    by_cases hc : c = '\\'
    · subst hc
      cases s with
      | nil => cases h
      | cons d s =>
        by_cases hd : d = 'u'
        · subst hd
          rw [stringChar?_escape] at h
          obtain ⟨⟨n, s'⟩, hescape, h⟩ := bind_eq_ok_iff.mp h
          exact bind_eq_ok_iff.mpr ⟨_, hexEscape?_append hescape rest, escapedChar?_append h hr hslash rest⟩
        · rw [stringChar?_simple hd] at h
          rw [List.cons_append, List.cons_append, stringChar?_simple hd]
          cases hsimple : simpleEscape? d with
          | none =>
            rw [hsimple] at h
            cases h
          | some d =>
            rw [hsimple] at h
            cases h
            rfl
    · rw [stringChar?_cons hc] at h
      rw [List.cons_append, stringChar?_cons hc]
      split at h
      next => cases h
      next hcontrol =>
        cases h
        rw [if_neg hcontrol]

theorem stringRest_succ (hs : ∀ t, s ≠ '"' :: t) : stringRest (fuel + 1) s = do
    let (c, s) ← stringChar? s
    let (text, s) ← stringRest fuel s
    return ((do return (← c) :: (← text)), s) :=
  stringRest.eq_3 _ _ hs

theorem stringRest_ne_ok (hs : s = [] ∨ s = ['\\']) : stringRest fuel s ≠ .ok (text?, r) := by
  cases fuel with
  | zero => nofun
  | succ fuel => rcases hs with rfl | rfl <;> nofun

/-- A string ends with its closing quote. -/
theorem stringRest_append (h : stringRest fuel s = .ok (text?, r)) (hle : fuel ≤ fuel') (rest : List Char) :
    stringRest fuel' (s ++ rest) = .ok (text?, r ++ rest) := by
  induction fuel generalizing s text? fuel' with
  | zero => cases h
  | succ fuel ih =>
    obtain ⟨fuel', rfl⟩ := Nat.exists_eq_add_of_le' (Nat.le_trans (Nat.le_add_left 1 fuel) hle)
    cases s with
    | nil => exact absurd h (stringRest_ne_ok (.inl rfl))
    | cons c s =>
      by_cases hc : c = '"'
      · subst hc
        cases h
        rfl
      · have hquote : ∀ s t : List Char, c :: s ≠ '"' :: t := fun s t heq => hc (List.cons.inj heq).1
        rw [stringRest_succ (hquote s)] at h
        obtain ⟨⟨c?, s'⟩, hchar, h⟩ := bind_eq_ok_iff.mp h
        obtain ⟨⟨text?, s''⟩, hrest, h⟩ := bind_eq_ok_iff.mp h
        cases h
        have hs' : s' ≠ [] ∧ s' ≠ ['\\'] := not_or.mp fun hs' => stringRest_ne_ok hs' hrest
        rw [List.cons_append, stringRest_succ (hquote _), ← List.cons_append]
        exact bind_eq_ok_iff.mpr ⟨_, stringChar?_append hchar hs'.1 hs'.2 rest,
          bind_eq_ok_iff.mpr ⟨_, ih hrest (by omega), rfl⟩⟩

theorem readString_append {text? : Option String} (h : readString s = .ok (text?, r)) (rest : List Char) :
    readString (s ++ rest) = .ok (text?, r ++ rest) := by
  obtain ⟨⟨chars?, s'⟩, hrest, h⟩ := bind_eq_ok_iff.mp h
  cases h
  have hle : s.length + 1 ≤ (s ++ rest).length + 1 := by simp
  exact bind_eq_ok_iff.mpr ⟨_, stringRest_append hrest hle rest, rfl⟩

end Strings

theorem readWord_append {value : Value} {word : List Char} (h : readWord value word s = (v, r))
    (hv : v.isBroken = false) (rest : List Char) : readWord value word (s ++ rest) = (v, r ++ rest) := by
  induction word generalizing s with
  | nil =>
    cases h
    rfl
  | cons w word ih =>
    cases s with
    | nil =>
      cases h
      cases hv
    | cons c s =>
      rw [readWord] at h
      rw [List.cons_append, readWord]
      split at h
      next hw => rw [if_pos hw]; exact ih h
      next =>
        cases h
        cases hv

section Values

variable {items : List Value} {members : List (Option String × Value)}

theorem isSpace_of_skipSpace (h : skipSpace s = c :: t) : isSpace c = false := by
  have hhead := List.head?_dropWhile_not isSpace s
  rw [show s.dropWhile isSpace = c :: t from h] at hhead
  simpa using hhead

theorem skipSpace_skipSpace : skipSpace (skipSpace s) = skipSpace s := by
  cases h : skipSpace s with
  | nil => rfl
  | cons c t => exact skipSpace_cons (isSpace_of_skipSpace h)

theorem readValue_skipSpace : readValue fuel (skipSpace s) = readValue fuel s := by
  cases fuel with
  | zero => rfl
  | succ fuel => rw [readValue, readValue, skipSpace_skipSpace]

theorem readItems_skipSpace : readItems fuel (skipSpace s) = readItems fuel s := by
  cases fuel with
  | zero => rfl
  | succ fuel => rw [readItems, readItems, readValue_skipSpace]

theorem eq_ok_of_orBroken {x : Except Failure (Value × List Char)} (h : orBroken x = (v, r))
    (hv : v.isBroken = false) : x = .ok (v, r) := by
  cases x with
  | ok a => exact congrArg Except.ok h
  | error failure =>
    cases h
    cases hv

/-- The characters that tell what kind of value comes. -/
def valueMarks : List Char :=
  ['n', 't', 'f', '"', '[', '\x7b', '-']

theorem readValue_other (hspace : isSpace c = false) (hc : c ∉ valueMarks) : readValue (fuel + 1) (c :: s) =
    if c.isDigit then orBroken (readNumber false (c :: s)) else (.broken .unexpected, []) := by
  simp only [valueMarks, List.mem_cons, List.not_mem_nil, or_false, not_or] at hc
  rw [readValue, skipSpace_cons hspace]
  simp [hc]

/-- An array is read up to its bracket item by item. -/
theorem cases_readItems (h : readItems (fuel + 1) s = (items, none, r)) :
    ∃ v t, readValue fuel s = (v, t) ∧ v.isBroken = false ∧
      (skipSpace t = ']' :: r ∧ items = [v] ∨
        ∃ s₁ c s₂ rest, skipSpace t = ',' :: s₁ ∧ skipSpace s₁ = c :: s₂ ∧ c ≠ ']' ∧
          readItems fuel (c :: s₂) = (rest, none, r) ∧ items = v :: rest) := by
  rw [readItems] at h
  generalize readValue fuel s = result at h ⊢
  obtain ⟨v, t⟩ := result
  dsimp only at h
  split at h
  next => cases h
  next hv =>
    refine ⟨v, t, rfl, by simpa using hv, ?_⟩
    split at h
    next => cases h
    next ht =>
      cases h
      exact .inl ⟨ht, rfl⟩
    next s₁ ht =>
      split at h
      next => cases h
      next => cases h
      next hempty hclosed =>
        obtain ⟨c, s₂, hs₁⟩ := List.exists_cons_of_ne_nil hempty
        rw [hs₁] at h
        generalize hrest : readItems fuel (c :: s₂) = result at h
        obtain ⟨rest, cut, r'⟩ := result
        cases h
        refine .inr ⟨s₁, c, s₂, rest, ht, hs₁, ?_, hrest, rfl⟩
        rintro rfl
        exact hclosed _ hs₁
    next => cases h

/-- An object is read up to its brace member by member. -/
theorem cases_readMembers (h : readMembers (fuel + 1) s = (members, none, r)) :
    ∃ s₀ key? s₁ s₂ v t, s = '"' :: s₀ ∧ readString s₀ = .ok (key?, s₁) ∧ skipSpace s₁ = ':' :: s₂ ∧
      readValue fuel s₂ = (v, t) ∧ v.isBroken = false ∧
      (skipSpace t = '\x7d' :: r ∧ members = [(key?, v)] ∨
        ∃ s₃ c s₄ rest, skipSpace t = ',' :: s₃ ∧ skipSpace s₃ = c :: s₄ ∧
          readMembers fuel (c :: s₄) = (rest, none, r) ∧ members = (key?, v) :: rest) := by
  rw [readMembers.eq_def] at h
  dsimp only at h
  split at h
  next s₀ =>
    split at h
    next => cases h
    next key? s₁ hkey =>
      split at h
      next => cases h
      next s₂ hs₁ =>
        generalize hvalue : readValue fuel s₂ = result at h
        obtain ⟨v, t⟩ := result
        dsimp only at h
        split at h
        next => cases h
        next hv =>
          refine ⟨s₀, key?, s₁, s₂, v, t, rfl, hkey, hs₁, hvalue, by simpa using hv, ?_⟩
          split at h
          next => cases h
          next ht =>
            cases h
            exact .inl ⟨ht, rfl⟩
          next s₃ ht =>
            split at h
            next => cases h
            next hempty =>
              obtain ⟨c, s₄, hs₃⟩ := List.exists_cons_of_ne_nil hempty
              rw [hs₃] at h
              generalize hrest : readMembers fuel (c :: s₄) = result at h
              obtain ⟨rest, cut, r'⟩ := result
              cases h
              exact .inr ⟨s₃, c, s₄, rest, ht, hs₃, hrest, rfl⟩
          next => cases h
      next => cases h
  next => cases h
  next => cases h

/-- Reading up to some depth gives what reading deeper gives, whatever follows the text. -/
structure Settled (fuel : Nat) : Prop where
  value : ∀ {s v r}, readValue fuel s = (v, r) → v.isBroken = false → r ≠ [] →
    ∀ {fuel'}, fuel ≤ fuel' → ∀ rest, readValue fuel' (s ++ rest) = (v, r ++ rest)
  items : ∀ {s items r}, readItems fuel s = (items, none, r) →
    ∀ {fuel'}, fuel ≤ fuel' → ∀ rest, readItems fuel' (s ++ rest) = (items, none, r ++ rest)
  members : ∀ {s members r}, readMembers fuel s = (members, none, r) →
    ∀ {fuel'}, fuel ≤ fuel' → ∀ rest, readMembers fuel' (s ++ rest) = (members, none, r ++ rest)

theorem ne_nil_of_skipSpace (h : skipSpace s = c :: t) : s ≠ [] := by
  rintro rfl
  cases h

theorem Settled.items_succ (h : Settled fuel) (hitems : readItems (fuel + 1) s = (items, none, r))
    (hle : fuel ≤ fuel') (rest : List Char) :
    readItems (fuel' + 1) (s ++ rest) = (items, none, r ++ rest) := by
  obtain ⟨v, t, hvalue, hv, ⟨ht, rfl⟩ | ⟨s₁, c, s₂, vs, ht, hs₁, hc, hrest, rfl⟩⟩ := cases_readItems hitems
  · have hvalue := h.value hvalue hv (ne_nil_of_skipSpace ht) hle rest
    exact readItems_closed hvalue hv (skipSpace_append ht rest)
  · have hvalue := h.value hvalue hv (ne_nil_of_skipSpace ht) hle rest
    have hmore := h.items hrest hle rest
    rw [readItems_more hvalue hv (skipSpace_append ht rest) (skipSpace_append hs₁ rest) hc, ← List.cons_append, hmore]

theorem Settled.members_succ (h : Settled fuel) (hmembers : readMembers (fuel + 1) s = (members, none, r))
    (hle : fuel ≤ fuel') (rest : List Char) :
    readMembers (fuel' + 1) (s ++ rest) = (members, none, r ++ rest) := by
  obtain ⟨s₀, key?, s₁, s₂, v, t, rfl, hkey, hs₁, hvalue, hv, hend⟩ := cases_readMembers hmembers
  have hkey := readString_append hkey rest
  have hs₁ := skipSpace_append hs₁ rest
  rcases hend with ⟨ht, rfl⟩ | ⟨s₃, c, s₄, vs, ht, hs₃, hrest, rfl⟩
  · have hvalue := h.value hvalue hv (ne_nil_of_skipSpace ht) hle rest
    exact readMembers_closed hkey hs₁ hvalue hv (skipSpace_append ht rest)
  · have hvalue := h.value hvalue hv (ne_nil_of_skipSpace ht) hle rest
    have hmore := h.members hrest hle rest
    rw [List.cons_append, readMembers_more hkey hs₁ hvalue hv (skipSpace_append ht rest) (skipSpace_append hs₃ rest),
      ← List.cons_append, hmore]

/-- A value in braces ends with its last character. -/
theorem Settled.object_succ (h : Settled fuel) (hread : readValue (fuel + 1) ('\x7b' :: s) = (v, r))
    (hv : v.isBroken = false) (hle : fuel ≤ fuel') (rest : List Char) :
    readValue (fuel' + 1) ('\x7b' :: (s ++ rest)) = (v, r ++ rest) := by
  cases hs : skipSpace s with
  | nil =>
    rw [readValue, skipSpace_cons (by decide)] at hread
    simp only [hs] at hread
    cases hread
    cases hv
  | cons c t =>
    by_cases hc : c = '\x7d'
    · subst hc
      rw [readValue_emptyObject hs] at hread
      cases hread
      exact readValue_emptyObject (skipSpace_append hs rest)
    · rw [readValue_object hs hc] at hread
      generalize hmembers : readMembers fuel (c :: t) = result at hread
      obtain ⟨members, cut, r'⟩ := result
      cases hread
      obtain rfl : cut = none := Option.isSome_eq_false_iff.mp hv |> Option.isNone_iff_eq_none.mp
      rw [readValue_object (skipSpace_append hs rest) hc, ← List.cons_append, h.members hmembers hle rest]

theorem Settled.array_succ (h : Settled fuel) (hread : readValue (fuel + 1) ('[' :: s) = (v, r))
    (hv : v.isBroken = false) (hle : fuel ≤ fuel') (rest : List Char) :
    readValue (fuel' + 1) ('[' :: (s ++ rest)) = (v, r ++ rest) := by
  cases hs : skipSpace s with
  | nil =>
    rw [readValue, skipSpace_cons (by decide)] at hread
    simp only [hs] at hread
    cases hread
    cases hv
  | cons c t =>
    by_cases hc : c = ']'
    · subst hc
      rw [readValue_emptyArray hs] at hread
      cases hread
      exact readValue_emptyArray (skipSpace_append hs rest)
    · rw [readValue_array hs hc] at hread
      generalize hitems : readItems fuel (c :: t) = result at hread
      obtain ⟨items, cut, r'⟩ := result
      cases hread
      obtain rfl : cut = none := Option.isSome_eq_false_iff.mp hv |> Option.isNone_iff_eq_none.mp
      rw [readValue_array (skipSpace_append hs rest) hc, ← List.cons_append, h.items hitems hle rest]

theorem Settled.value_succ (h : Settled fuel) (hread : readValue (fuel + 1) s = (v, r)) (hv : v.isBroken = false)
    (hr : r ≠ []) (hle : fuel ≤ fuel') (rest : List Char) : readValue (fuel' + 1) (s ++ rest) = (v, r ++ rest) := by
  cases hs : skipSpace s with
  | nil =>
    rw [readValue] at hread
    simp only [hs] at hread
    cases hread
    cases hv
  | cons c t =>
    rw [← readValue_skipSpace, hs] at hread
    rw [← readValue_skipSpace, skipSpace_append hs rest]
    by_cases hc : c ∈ valueMarks
    · simp only [valueMarks, List.mem_cons, List.not_mem_nil, or_false] at hc
      rcases hc with rfl | rfl | rfl | rfl | rfl | rfl | rfl
      · exact readWord_append hread hv rest
      · exact readWord_append hread hv rest
      · exact readWord_append hread hv rest
      · obtain ⟨⟨text?, t'⟩, hstring, hvalue⟩ := bind_eq_ok_iff.mp (eq_ok_of_orBroken hread hv)
        cases hvalue
        exact congrArg orBroken (bind_eq_ok_iff.mpr ⟨_, readString_append hstring rest, rfl⟩)
      · exact h.array_succ hread hv hle rest
      · exact h.object_succ hread hv hle rest
      · have hnumber := eq_ok_of_orBroken hread hv
        exact congrArg orBroken (stopsInside_readNumber true hnumber hr rest)
    · have hspace := isSpace_of_skipSpace hs
      rw [readValue_other hspace hc] at hread ⊢
      split at hread
      next hdigit =>
        have hnumber := eq_ok_of_orBroken hread hv
        rw [if_pos hdigit]
        exact congrArg orBroken (stopsInside_readNumber false hnumber hr rest)
      next =>
        cases hread
        cases hv

/-- Whatever is read without coming to its end too early does not depend on what follows. -/
theorem settled (fuel : Nat) : Settled fuel := by
  induction fuel with
  | zero =>
    refine ⟨fun h hv => ?_, nofun, nofun⟩
    cases h
    cases hv
  | succ fuel ih =>
    have hpred {n : Nat} (hle : fuel + 1 ≤ n) : ∃ m, n = m + 1 ∧ fuel ≤ m := ⟨n - 1, by omega, by omega⟩
    refine ⟨fun h hv hr n hle rest => ?_, fun h n hle rest => ?_, fun h n hle rest => ?_⟩
    · obtain ⟨m, rfl, hm⟩ := hpred hle
      exact ih.value_succ h hv hr hm rest
    · obtain ⟨m, rfl, hm⟩ := hpred hle
      exact ih.items_succ h hm rest
    · obtain ⟨m, rfl, hm⟩ := hpred hle
      exact ih.members_succ h hm rest

/-- A text is an object with some members, from its first character to its last one. -/
structure ObjectText (s : List Char) (members : List (Option String × Value)) : Prop where
  first : s.head? = some '\x7b'
  reads : read s = (.object members none, [])

theorem ObjectText.readValue_append (h : ObjectText s members) (hfuel : s.length < fuel) (rest : List Char) :
    readValue fuel (s ++ rest) = (.object members none, rest) := by
  obtain ⟨t, rfl⟩ : ∃ t, s = '\x7b' :: t := ⟨s.tail, (List.cons_head?_tail h.first).symm⟩
  obtain ⟨fuel, rfl⟩ := Nat.exists_eq_add_of_lt hfuel
  exact (settled _).object_succ h.reads rfl (Nat.le_add_right _ fuel) rest

theorem objectText_objectText {field : String × String} {fields : List (String × String)}
    {members : List (Option String × Value)} (h : List.Forall₂ MemberReadsAs (field :: fields) members) :
    ObjectText (objectText (field :: fields)).toList members where
  first := by
    have hobject : objectText (field :: fields) =
        "\x7b" ++ ",".intercalate ((field :: fields).map memberText) ++ "\x7d" := rfl
    rw [hobject, String.toList_append, String.toList_append]
    rfl
  reads := read_objectText h

end Values

end FlatBundle.Json
