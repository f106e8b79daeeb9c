import FlatBundle.Json.Reader
import Mathlib.Data.List.Forall2
import Mathlib.Tactic.IntervalCases

/-!
Reading back the JSON texts that are written: quoted strings, arrays and objects.
-/

namespace FlatBundle.Json

variable {c : Char} {s s₁ s₂ s₃ t r text rest : List Char} {fuel : Nat} {v : Value}

theorem stringChar?_of_lt : ∀ n < 32, ∀ t,
    stringChar? (Text.quoteChar (Char.ofNat n) ++ t) = .ok (some (Char.ofNat n), t) := by
  intro n hn t
  interval_cases n <;> rfl

theorem stringChar?_quoteChar (c : Char) (t : List Char) :
    stringChar? (Text.quoteChar c ++ t) = .ok (some c, t) := by
  by_cases hquote : c = '"'
  · rw [hquote]
    rfl
  by_cases hslash : c = '\\'
  · rw [hslash]
    rfl
  by_cases hcontrol : c.toNat < 0x20
  · have := stringChar?_of_lt c.toNat hcontrol t
    rwa [Char.ofNat_toNat] at this
  have hself : Text.quoteChar c = [c] := by simp [Text.quoteChar, hquote, hslash, hcontrol]
  rw [hself, List.singleton_append, stringChar?.eq_def]
  split
  next heq => cases heq
  next heq => exact absurd (List.cons.inj heq).1 hslash
  next heq => exact absurd (List.cons.inj heq).1 hslash
  next heq => exact absurd (List.cons.inj heq).1 hslash
  next heq =>
    obtain ⟨rfl, rfl⟩ := List.cons.inj heq
    rw [if_neg hcontrol]

theorem quoteChar_eq_cons (c : Char) : ∃ d t, Text.quoteChar c = d :: t ∧ d ≠ '"' := by
  by_cases hquote : c = '"'
  · rw [hquote]
    exact ⟨_, _, rfl, by decide⟩
  unfold Text.quoteChar
  rw [if_neg hquote]
  split_ifs
  · exact ⟨_, _, rfl, by decide⟩
  · split <;> exact ⟨_, _, rfl, by decide⟩
  · exact ⟨_, _, rfl, hquote⟩

/-- The characters between the quotes are read up to the closing one. -/
theorem stringRest_quote (h : (s.flatMap Text.quoteChar).length < fuel) :
    stringRest fuel (s.flatMap Text.quoteChar ++ '"' :: rest) = .ok (some s, rest) := by
  induction s generalizing fuel with
  | nil =>
    obtain ⟨fuel, rfl⟩ := Nat.exists_eq_succ_of_ne_zero (Nat.ne_of_gt h)
    rfl
  | cons c s ih =>
    obtain ⟨fuel, rfl⟩ := Nat.exists_eq_succ_of_ne_zero (Nat.ne_of_gt (Nat.zero_lt_of_lt h))
    obtain ⟨d, t, hchar, hd⟩ := quoteChar_eq_cons c
    rw [List.flatMap_cons, hchar, List.cons_append, List.length_cons, List.length_append] at h
    have hne : ∀ u, Text.quoteChar c ++ (s.flatMap Text.quoteChar ++ '"' :: rest) ≠ '"' :: u := by
      intro u heq
      rw [hchar] at heq
      exact hd (List.cons.inj heq).1
    rw [List.flatMap_cons, List.append_assoc, stringRest.eq_3 _ _ hne, stringChar?_quoteChar]
    simp only [bind, Except.bind]
    rw [ih (by omega)]
    rfl

theorem readString_quote :
    readString (s.flatMap Text.quoteChar ++ '"' :: rest) = .ok (some (String.ofList s), rest) := by
  have hfuel : (s.flatMap Text.quoteChar).length < (s.flatMap Text.quoteChar ++ '"' :: rest).length + 1 := by
    rw [List.length_append]
    omega
  rw [readString, stringRest_quote hfuel]
  rfl

theorem isBroken_eq_false (h : v.failure? = none) : v.isBroken = false := by
  cases v with
  | array items cut => simp_all [Value.failure?, Value.isBroken]
  | object members cut => simp_all [Value.failure?, Value.isBroken]
  | broken failure => simp_all [Value.failure?]
  | _ => rfl

/-- What may follow a value inside an array or an object. -/
def Delimited (rest : List Char) : Prop :=
  ∃ c s, rest = c :: s ∧ (c = ',' ∨ c = ']' ∨ c = '\x7d')

/-- A text is read as a value, and nothing is wrong with it. -/
structure ReadsAs (text : List Char) (v : Value) : Prop where
  first : ∃ c s, text = c :: s ∧ isSpace c = false ∧ c ≠ ']'
  reads : ∀ fuel rest, text.length ≤ fuel → Delimited rest → readValue fuel (text ++ rest) = (v, rest)
  sound : v.failure? = none

theorem readsAs_quote (s : String) : ReadsAs (Text.quote s).toList (.text s) where
  first := ⟨'"', _, by rw [Text.quote, String.toList_ofList]; rfl, by decide, by decide⟩
  reads fuel rest hfuel _ := by
    rw [Text.quote, String.toList_ofList] at hfuel ⊢
    obtain ⟨fuel, rfl⟩ := Nat.exists_eq_succ_of_ne_zero (Nat.ne_of_gt (Nat.zero_lt_of_lt hfuel))
    rw [List.cons_append, List.cons_append, List.append_assoc, List.singleton_append, readValue]
    have hspace (t) : skipSpace ('"' :: t) = '"' :: t := rfl
    rw [hspace]
    simp [readString_quote, orBroken, bind, Except.bind, pure, Except.pure]
  sound := rfl

theorem readsAs_null : ReadsAs "null".toList .null where
  first := ⟨'n', _, rfl, by decide, by decide⟩
  reads fuel rest hfuel _ := by
    obtain ⟨fuel, rfl⟩ := Nat.exists_eq_succ_of_ne_zero (Nat.ne_of_gt (Nat.zero_lt_of_lt hfuel))
    rfl
  sound := rfl

theorem readsAs_three : ReadsAs "3".toList (.number (.natural 3)) where
  first := ⟨'3', _, rfl, by decide, by decide⟩
  reads fuel rest hfuel hrest := by
    obtain ⟨fuel, rfl⟩ := Nat.exists_eq_succ_of_ne_zero (Nat.ne_of_gt (Nat.zero_lt_of_lt hfuel))
    obtain ⟨c, s, rfl, rfl | rfl | rfl⟩ := hrest
    · rfl
    · rfl
    · rfl
  sound := rfl

theorem skipSpace_cons (h : isSpace c = false) : skipSpace (c :: s) = c :: s :=
  List.dropWhile_cons_of_neg (by simp [h])

theorem readValue_emptyArray (h : skipSpace s = ']' :: r) :
    readValue (fuel + 1) ('[' :: s) = (.array [] none, r) := by
  rw [readValue, skipSpace_cons (by decide)]
  simp only [h]

theorem readValue_array (h : skipSpace s = c :: t) (hc : c ≠ ']') : readValue (fuel + 1) ('[' :: s) =
    (.array (readItems fuel (c :: t)).1 (readItems fuel (c :: t)).2.1, (readItems fuel (c :: t)).2.2) := by
  rw [readValue, skipSpace_cons (by decide)]
  simp [h, hc]

theorem readValue_emptyObject (h : skipSpace s = '\x7d' :: r) :
    readValue (fuel + 1) ('\x7b' :: s) = (.object [] none, r) := by
  rw [readValue, skipSpace_cons (by decide)]
  simp only [h]

theorem readValue_object (h : skipSpace s = c :: t) (hc : c ≠ '\x7d') : readValue (fuel + 1) ('\x7b' :: s) =
    (.object (readMembers fuel (c :: t)).1 (readMembers fuel (c :: t)).2.1, (readMembers fuel (c :: t)).2.2) := by
  rw [readValue, skipSpace_cons (by decide)]
  simp [h, hc]

theorem readItems_closed (h : readValue fuel s = (v, t)) (hv : v.isBroken = false) (ht : skipSpace t = ']' :: r) :
    readItems (fuel + 1) s = ([v], none, r) := by
  rw [readItems, h]
  simp [hv, ht]

theorem readItems_more (h : readValue fuel s = (v, t)) (hv : v.isBroken = false) (ht : skipSpace t = ',' :: s₁)
    (hs₁ : skipSpace s₁ = c :: s₂) (hc : c ≠ ']') : readItems (fuel + 1) s =
      (v :: (readItems fuel (c :: s₂)).1, (readItems fuel (c :: s₂)).2) := by
  rw [readItems, h]
  simp [hv, ht, hs₁, hc]

theorem readItems_last (h : ReadsAs text v) (hfuel : text.length ≤ fuel) :
    readItems (fuel + 1) (text ++ ']' :: rest) = ([v], none, rest) := by
  have hv := h.reads fuel _ hfuel ⟨']', rest, rfl, .inr (.inl rfl)⟩
  exact readItems_closed hv (isBroken_eq_false h.sound) (skipSpace_cons (by decide))

theorem readItems_comma (h : ReadsAs text v) (hfuel : text.length ≤ fuel) (hc : isSpace c = false)
    (hbracket : c ≠ ']') : readItems (fuel + 1) (text ++ ',' :: c :: s) =
      (v :: (readItems fuel (c :: s)).1, (readItems fuel (c :: s)).2) := by
  have hv := h.reads fuel (',' :: c :: s) hfuel ⟨',', _, rfl, .inl rfl⟩
  exact readItems_more hv (isBroken_eq_false h.sound) (skipSpace_cons (by decide)) (skipSpace_cons hc) hbracket

theorem toList_intercalate_cons_cons (a b : String) (texts : List String) :
    (",".intercalate (a :: b :: texts)).toList =
      a.toList ++ ',' :: (",".intercalate (b :: texts)).toList := by
  simp [String.intercalate_cons_cons]

section Items

variable {a : String} {texts : List String} {vs : List Value}

theorem first_intercalate (h : List.Forall₂ (fun text v => ReadsAs text.toList v) (a :: texts) vs) :
    ∃ c s, (",".intercalate (a :: texts)).toList = c :: s ∧ isSpace c = false ∧ c ≠ ']' := by
  obtain ⟨v, vs, ha, -, rfl⟩ := List.forall₂_cons_left_iff.mp h
  obtain ⟨c, s, heq, hc⟩ := ha.first
  cases texts with
  | nil => exact ⟨c, s, by rw [String.intercalate_singleton, heq], hc⟩
  | cons b texts => exact ⟨c, _, by rw [toList_intercalate_cons_cons, heq, List.cons_append], hc⟩

/-- Items are read one by one up to the closing bracket. -/
theorem readItems_intercalate (h : List.Forall₂ (fun text v => ReadsAs text.toList v) (a :: texts) vs)
    (hfuel : (",".intercalate (a :: texts)).toList.length < fuel) (rest : List Char) :
    readItems fuel ((",".intercalate (a :: texts)).toList ++ ']' :: rest) = (vs, none, rest) := by
  obtain ⟨fuel, rfl⟩ := Nat.exists_eq_succ_of_ne_zero (Nat.ne_of_gt (Nat.zero_lt_of_lt hfuel))
  induction texts generalizing a vs fuel with
  | nil =>
    obtain ⟨v, vs, ha, hvs, rfl⟩ := List.forall₂_cons_left_iff.mp h
    obtain rfl := List.forall₂_nil_left_iff.mp hvs
    rw [String.intercalate_singleton] at hfuel ⊢
    exact readItems_last ha (Nat.le_of_lt_succ hfuel)
  | cons b texts ih =>
    obtain ⟨v, vs, ha, hvs, rfl⟩ := List.forall₂_cons_left_iff.mp h
    obtain ⟨c, s, hnext, hc, hbracket⟩ := first_intercalate hvs
    rw [toList_intercalate_cons_cons, List.length_append, List.length_cons] at hfuel
    obtain ⟨fuel, rfl⟩ : ∃ n, fuel = n + 1 := ⟨fuel - 1, by omega⟩
    have hrest := ih hvs fuel (by omega)
    rw [hnext, List.cons_append] at hrest
    rw [toList_intercalate_cons_cons, List.append_assoc, List.cons_append, hnext, List.cons_append,
      readItems_comma ha (by omega) hc hbracket, hrest]

theorem itemsFailure?_eq_none (h : List.Forall₂ (fun text v => ReadsAs text.toList v) texts vs) :
    itemsFailure? vs = none := by
  induction h with
  | nil => rfl
  | cons hv _ ih => rw [itemsFailure?, hv.sound, ih, Option.orElse_eq_orElse, Option.orElse_none]

theorem toList_arrayText (texts : List String) :
    (arrayText texts).toList = '[' :: ((",".intercalate texts).toList ++ [']']) := by
  simp [arrayText]

theorem readsAs_arrayText (h : List.Forall₂ (fun text v => ReadsAs text.toList v) texts vs) :
    ReadsAs (arrayText texts).toList (.array vs none) where
  first := ⟨'[', _, toList_arrayText texts, by decide, by decide⟩
  reads fuel rest hfuel _ := by
    rw [toList_arrayText, List.length_cons, List.length_append] at hfuel
    obtain ⟨fuel, rfl⟩ : ∃ n, fuel = n + 1 := ⟨fuel - 1, by omega⟩
    rw [toList_arrayText, List.cons_append, List.append_assoc, List.singleton_append]
    cases texts with
    | nil =>
      obtain rfl := List.forall₂_nil_left_iff.mp h
      exact readValue_emptyArray (skipSpace_cons (by decide))
    | cons a texts =>
      obtain ⟨c, s, hnext, hc, hclosing⟩ := first_intercalate h
      have hitems := readItems_intercalate h (Nat.lt_of_succ_le (Nat.le_of_succ_le_succ hfuel)) rest
      rw [hnext, List.cons_append] at hitems ⊢
      rw [readValue_array (skipSpace_cons hc) hclosing, hitems]
  sound := by rw [Value.failure?, itemsFailure?_eq_none h]; rfl

end Items

section Members

variable {key : String} {field : String × String} {fields : List (String × String)}
  {members : List (Option String × Value)} {key? : Option String}

/-- A key with the text of its value. -/
def memberText (field : String × String) : String :=
  Text.quote field.1 ++ ":" ++ field.2

theorem toList_memberText (field : String × String) : (memberText field).toList =
    '"' :: (field.1.toList.flatMap Text.quoteChar ++ '"' :: ':' :: field.2.toList) := by
  simp [memberText, Text.quote]

/-- A key and a text are read as a key and a value. -/
def MemberReadsAs (field : String × String) (member : Option String × Value) : Prop :=
  member.1 = some field.1 ∧ ReadsAs field.2.toList member.2

theorem readMembers_closed (hkey : readString s = .ok (key?, s₁)) (hs₁ : skipSpace s₁ = ':' :: s₂)
    (h : readValue fuel s₂ = (v, t)) (hv : v.isBroken = false) (ht : skipSpace t = '\x7d' :: r) :
    readMembers (fuel + 1) ('"' :: s) = ([(key?, v)], none, r) := by
  rw [readMembers, hkey]
  simp [hs₁, h, hv, ht]

theorem readMembers_more (hkey : readString s = .ok (key?, s₁)) (hs₁ : skipSpace s₁ = ':' :: s₂)
    (h : readValue fuel s₂ = (v, t)) (hv : v.isBroken = false) (ht : skipSpace t = ',' :: s₃)
    (hs₃ : skipSpace s₃ = c :: r) : readMembers (fuel + 1) ('"' :: s) =
      ((key?, v) :: (readMembers fuel (c :: r)).1, (readMembers fuel (c :: r)).2) := by
  rw [readMembers, hkey]
  simp [hs₁, h, hv, ht, hs₃]

theorem readMembers_last (h : ReadsAs field.2.toList v) (hfuel : field.2.toList.length ≤ fuel) :
    readMembers (fuel + 1) ((memberText field).toList ++ '\x7d' :: rest) =
      ([(some field.1, v)], none, rest) := by
  have hv := h.reads fuel _ hfuel ⟨'\x7d', rest, rfl, .inr (.inr rfl)⟩
  rw [toList_memberText, List.cons_append, List.append_assoc, List.cons_append, List.cons_append,
    readMembers_closed readString_quote (skipSpace_cons (by decide)) hv (isBroken_eq_false h.sound)
      (skipSpace_cons (by decide)), String.ofList_toList]

theorem readMembers_comma (h : ReadsAs field.2.toList v) (hfuel : field.2.toList.length ≤ fuel) :
    readMembers (fuel + 1) ((memberText field).toList ++ ',' :: '"' :: s) =
      ((some field.1, v) :: (readMembers fuel ('"' :: s)).1, (readMembers fuel ('"' :: s)).2) := by
  have hv := h.reads fuel (',' :: '"' :: s) hfuel ⟨',', _, rfl, .inl rfl⟩
  rw [toList_memberText, List.cons_append, List.append_assoc, List.cons_append, List.cons_append,
    readMembers_more readString_quote (skipSpace_cons (by decide)) hv (isBroken_eq_false h.sound)
      (skipSpace_cons (by decide)) (skipSpace_cons (by decide)), String.ofList_toList]

theorem first_intercalate_members (field : String × String) (fields : List (String × String)) : ∃ s,
    (",".intercalate ((field :: fields).map memberText)).toList = '"' :: s := by
  cases fields with
  | nil => exact ⟨_, by rw [List.map_singleton, String.intercalate_singleton, toList_memberText]⟩
  | cons field' fields =>
    exact ⟨_, by rw [List.map_cons, List.map_cons, toList_intercalate_cons_cons, toList_memberText,
      List.cons_append]⟩

theorem length_memberText (field : String × String) : field.2.toList.length < (memberText field).toList.length := by
  rw [toList_memberText]
  simp only [List.length_cons, List.length_append]
  omega

theorem readMembers_intercalate (h : List.Forall₂ MemberReadsAs (field :: fields) members)
    (hfuel : (",".intercalate ((field :: fields).map memberText)).toList.length < fuel) (rest : List Char) :
    readMembers fuel ((",".intercalate ((field :: fields).map memberText)).toList ++ '\x7d' :: rest) =
      (members, none, rest) := by
  obtain ⟨fuel, rfl⟩ := Nat.exists_eq_succ_of_ne_zero (Nat.ne_of_gt (Nat.zero_lt_of_lt hfuel))
  have hlength := length_memberText field
  induction fields generalizing field members fuel with
  | nil =>
    obtain ⟨⟨key, v⟩, members, ⟨hkey, hv⟩, hmembers, rfl⟩ := List.forall₂_cons_left_iff.mp h
    obtain rfl := List.forall₂_nil_left_iff.mp hmembers
    rw [List.map_singleton, String.intercalate_singleton] at hfuel ⊢
    rw [readMembers_last hv (by omega), ← hkey]
  | cons field' fields ih =>
    obtain ⟨⟨key, v⟩, members, ⟨hkey, hv⟩, hmembers, rfl⟩ := List.forall₂_cons_left_iff.mp h
    obtain ⟨s, hnext⟩ := first_intercalate_members field' fields
    rw [List.map_cons, List.map_cons, toList_intercalate_cons_cons, ← List.map_cons, List.length_append,
      List.length_cons] at hfuel
    obtain ⟨fuel, rfl⟩ : ∃ n, fuel = n + 1 := ⟨fuel - 1, by omega⟩
    have hrest := ih hmembers fuel (by omega) (length_memberText _)
    rw [hnext, List.cons_append] at hrest
    rw [List.map_cons, List.map_cons, toList_intercalate_cons_cons, ← List.map_cons, List.append_assoc,
      List.cons_append, hnext, List.cons_append, readMembers_comma hv (by omega), hrest, ← hkey]

theorem membersFailure?_eq_none (h : List.Forall₂ MemberReadsAs fields members) :
    membersFailure? members = none := by
  induction h with
  | nil => rfl
  | @cons field member fields members hv _ ih =>
    obtain ⟨key, v⟩ := member
    obtain ⟨hkey, hv⟩ := hv
    obtain rfl : key = some field.1 := hkey
    rw [membersFailure?, hv.sound, ih]
    rfl

/-- An object that is written with some members is read with those members. -/
theorem read_objectText (h : List.Forall₂ MemberReadsAs (field :: fields) members) :
    read (objectText (field :: fields)).toList = (.object members none, []) := by
  have htext : (objectText (field :: fields)).toList =
      '\x7b' :: ((",".intercalate ((field :: fields).map memberText)).toList ++ ['\x7d']) := by
    have hobject : objectText (field :: fields) =
        "\x7b" ++ ",".intercalate ((field :: fields).map memberText) ++ "\x7d" := rfl
    rw [hobject]
    simp only [String.toList_append, List.append_assoc]
    rfl
  obtain ⟨s, hnext⟩ := first_intercalate_members field fields
  have hfuel : (",".intercalate ((field :: fields).map memberText)).toList.length <
      (objectText (field :: fields)).toList.length := by
    rw [htext, List.length_cons, List.length_append]
    omega
  have hmembers := readMembers_intercalate h hfuel []
  rw [htext] at hmembers ⊢
  rw [hnext, List.cons_append] at hmembers ⊢
  rw [read, readValue_object (skipSpace_cons (by decide)) (by decide), hmembers]

theorem readAll?_objectText (h : List.Forall₂ MemberReadsAs (field :: fields) members) :
    readAll? (objectText (field :: fields)).toList = .ok (.object members none) := by
  have hsound : (Value.object members none).failure? = none := by
    rw [Value.failure?, membersFailure?_eq_none h]
    rfl
  rw [readAll?, read_objectText h]
  simp only [hsound]
  rfl

end Members

end FlatBundle.Json
