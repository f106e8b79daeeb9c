import FlatBundle.Proofs.Text.Identifier

/-!
The identifier nearest to a text. A name grows out of an `_` along the text, which is a binding name at every step;
the `_` falls away again where the rest is a binding name by itself.
-/

namespace FlatBundle.Text

/-- A name that grows by a character, which is raised to upper case if the one before it fell away and others have
been kept. It falls away itself if the name is no binding name with it. -/
def grow : List Char × Bool → Char → List Char × Bool
  | (name, dropped), c =>
    let longer := name ++ if dropped && 1 < name.length then uppercase c else [c]
    if isBindingName (String.ofList longer) then (longer, false) else (name, true)

/-- The name that grows out of an `_` along a text. -/
def grownName (text : String) : String :=
  String.ofList (text.toList.foldl grow (['_'], false)).1

variable {dropped : Bool} {s kept : List Char} {text name : String}

theorem identifierChars_eq_nil_iff :
    identifierChars dropped true s = [] ↔ ∀ c ∈ s, isIdContinue c = false := by
  induction s generalizing dropped with
  | nil => simp [identifierChars]
  | cons c s ih =>
    rw [identifierChars, Bool.not_true, Bool.and_false, if_neg Bool.false_ne_true]
    cases hc : isIdContinue c with
    | true => simp [hc]
    | false => simp [hc, ih]

/-- Behind an `_`, the whole name is a binding name at every step just if the last characters fit. -/
theorem foldl_grow (h : kept.all isIdContinue) : (s.foldl grow ('_' :: kept, dropped)).1 =
    '_' :: (kept ++ identifierChars dropped kept.isEmpty s) := by
  induction s generalizing kept dropped with
  | nil => simp [identifierChars]
  | cons c s ih =>
    have hlength : decide (1 < ('_' :: kept).length) = !kept.isEmpty := by cases kept <;> simp
    generalize hraised : (if dropped && !kept.isEmpty then uppercase c else [c]) = raised
    have hname : isBindingName (String.ofList ('_' :: kept ++ raised)) = raised.all isIdContinue := by
      rw [List.cons_append, isBindingName_underscore, List.all_append, h, Bool.true_and]
    rw [List.foldl_cons, grow, hlength, hraised, identifierChars, hraised, hname]
    split
    next hfits =>
      have hkept : (kept ++ raised).isEmpty = false := by
        cases kept with
        | nil =>
          rw [List.isEmpty_nil, Bool.not_true, Bool.and_false, if_neg Bool.false_ne_true] at hraised
          rw [← hraised]
          rfl
        | cons => rfl
      rw [List.cons_append, ih (by rw [List.all_append, h, hfits, Bool.and_self]), hkept, List.append_assoc]
    next => exact ih h

theorem grownName_eq : grownName text = "_" ++ String.ofList (identifierChars false true text.toList) := by
  rw [grownName, @foldl_grow false _ [] rfl]
  exact String.toList_inj.mp (by simp)

theorem toIdentifier_eq_none_iff : toIdentifier text = none ↔ ∀ c ∈ text.toList, isIdContinue c = false := by
  rw [← @identifierChars_eq_nil_iff false]
  unfold toIdentifier
  split
  next hchars => simp [hchars]
  next hchars => simpa using hchars

/-- The added `_` stays where what has been kept is no binding name. -/
theorem eq_of_toIdentifier (h : toIdentifier text = some name) : ∃ kept, grownName text = "_" ++ kept ∧
    kept.toList.all isIdContinue ∧ name = if isBindingName kept then kept else "_" ++ kept := by
  unfold toIdentifier at h
  split at h
  next => cases h
  next =>
    refine ⟨_, grownName_eq, ?_, ?_⟩
    · rw [String.toList_ofList]
      exact List.all_eq_true.mpr fun c hc => isIdContinue_of_mem_identifierChars hc
    · rw [← Option.some.inj h]
      exact if_congr Iff.rfl rfl (String.toList_inj.mp (by simp))

theorem toIdentifier_of_isBindingName (h : isBindingName text) : toIdentifier text = some text := by
  have hname : isIdentifierName text.toList := (Bool.and_eq_true_iff.mp h).1
  unfold toIdentifier
  rw [identifierChars_of_all (all_isIdContinue_of_isIdentifierName hname)]
  split
  next hnil =>
    rw [hnil] at hname
    cases hname
  next =>
    rw [String.ofList_toList]
    exact congrArg some (if_pos h)

theorem isBindingName_of_toIdentifier (h : toIdentifier text = some name) : isBindingName name := by
  obtain ⟨kept, -, hkept, rfl⟩ := eq_of_toIdentifier h
  split
  next hname => exact hname
  next =>
    have hchars : "_" ++ kept = String.ofList ('_' :: kept.toList) := String.toList_inj.mp (by simp)
    rw [hchars, isBindingName_underscore]
    exact hkept

/-- A text has a nearest identifier just if it has a character that identifiers can go on with. That is a binding
name, and so its own nearest identifier; a binding name is its own. It is the name that grows out of an `_` along the
text, without that `_` unless the rest is no binding name. -/
theorem toIdentifier_nearest (text : String) :
    (toIdentifier text = none ↔ ∀ c ∈ text.toList, isIdContinue c = false) ∧
    (isBindingName text → toIdentifier text = some text) ∧
    ∀ name, toIdentifier text = some name → isBindingName name ∧ toIdentifier name = some name ∧
      ∃ kept, grownName text = "_" ++ kept ∧
        (name = kept ∨ name = "_" ++ kept ∧ isBindingName kept = false) := by
  refine ⟨toIdentifier_eq_none_iff, toIdentifier_of_isBindingName, fun name h => ?_⟩
  have hname := isBindingName_of_toIdentifier h
  obtain ⟨kept, hgrown, -, rfl⟩ := eq_of_toIdentifier h
  refine ⟨hname, toIdentifier_of_isBindingName hname, kept, hgrown, ?_⟩
  cases hkept : isBindingName kept with
  | true => exact .inl (if_pos rfl)
  | false => exact .inr ⟨if_neg Bool.false_ne_true, rfl⟩

/-- A text that starts as no name does, and loses a character before one that is raised to upper case. -/
theorem toIdentifier_nearest_numberedName : toIdentifier "1a-b" = some "_1aB" ∧ isBindingName "_1aB" ∧
    toIdentifier "_1aB" = some "_1aB" ∧ isBindingName "1aB" = false := by
  have h : toIdentifier "1a-b" = some "_1aB" := by decide +kernel
  have hgrown : grownName "1a-b" = "_" ++ "1aB" := by decide +kernel
  obtain ⟨hname, -, kept, hkept, hadded⟩ := (toIdentifier_nearest "1a-b").2.2 _ h
  have hrest : kept = "1aB" := String.toList_inj.mp (by simpa using congrArg String.toList (hkept.symm.trans hgrown))
  refine ⟨h, hname, (toIdentifier_nearest "_1aB").2.1 hname, ?_⟩
  rw [hrest] at hadded
  exact (hadded.resolve_left (by decide)).2

end FlatBundle.Text
