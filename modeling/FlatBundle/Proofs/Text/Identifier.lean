import FlatBundle.Record.Id
import FlatBundle.Text.Identifier
import Mathlib.Data.List.Basic

/-!
What is left of a text in the identifier nearest to it. A text that starts with `_` loses characters
but gains nothing at its front, and what stands on one side of an `_` has no part in what is kept on
the other side.
-/

namespace FlatBundle.Text

variable {dropped empty : Bool} {c : Char} {s r : List Char} {a b x y : String}

theorem identifierChars_cons : ∃ kept : List Char, ∀ s, identifierChars dropped empty (c :: s) =
    if kept.all isIdContinue then kept ++ identifierChars false false s
    else identifierChars true empty s :=
  ⟨_, fun _ => rfl⟩

theorem isIdContinue_of_mem_identifierChars (h : c ∈ identifierChars dropped empty s) :
    isIdContinue c := by
  induction s generalizing dropped empty with
  | nil => cases h
  | cons d s ih =>
    obtain ⟨kept, hcons⟩ := @identifierChars_cons dropped empty d
    rw [hcons] at h
    split at h
    · rename_i hkept
      rcases List.mem_append.mp h with h | h
      · exact List.all_eq_true.mp hkept c h
      · exact ih h
    · exact ih h

theorem identifierChars_of_all (h : s.all isIdContinue) : identifierChars false empty s = s := by
  induction s generalizing empty with
  | nil => rfl
  | cons d s ih =>
    obtain ⟨hd, hs⟩ : isIdContinue d = true ∧ s.all isIdContinue = true := by simpa using h
    have hkept : [d].all isIdContinue = true := by simpa using hd
    have hrest : identifierChars false false s = s := ih hs
    simp [identifierChars, hkept, hrest]

/-- Nothing before an `_` changes what is kept after it. -/
theorem identifierChars_append_underscore :
    identifierChars dropped empty (s ++ '_' :: r) =
      identifierChars dropped empty s ++ '_' :: identifierChars false false r := by
  induction s generalizing dropped empty with
  | nil =>
    have hupper : uppercase '_' = ['_'] := rfl
    have hmark : isIdContinue '_' = true := by decide
    simp [identifierChars, hupper, hmark]
  | cons d s ih =>
    obtain ⟨kept, hcons⟩ := @identifierChars_cons dropped empty d
    rw [List.cons_append, hcons, hcons]
    split
    · rw [ih, List.append_assoc]
    · exact ih

/-- What is kept of a text that goes on behind characters that stay. -/
def keptText (s : String) : String :=
  String.ofList (identifierChars false false s.toList)

theorem keptText_append_underscore : keptText (a ++ "_" ++ b) = keptText a ++ "_" ++ keptText b := by
  have hmark : "_".toList = ['_'] := rfl
  have hchars : (a ++ "_" ++ b).toList = a.toList ++ '_' :: b.toList := by
    simp [hmark]
  rw [keptText, hchars, identifierChars_append_underscore]
  refine String.toList_inj.mp ?_
  simp [keptText, hmark]

theorem keptText_cons (hc : isIdContinue c) :
    keptText (String.ofList [c] ++ a) = String.ofList [c] ++ keptText a := by
  have hkept : [c].all isIdContinue = true := by simpa using hc
  refine String.toList_inj.mp ?_
  simp [keptText, identifierChars, hkept]

theorem keptText_of_all (h : a.toList.all isIdContinue) : keptText a = a := by
  rw [keptText, identifierChars_of_all h, String.ofList_toList]

theorem isIdContinue_of_isIdStart (h : isIdStart c) : isIdContinue c := by
  unfold isIdStart at h
  unfold isIdContinue
  split at h
  next hascii =>
    rw [if_pos hascii]
    rcases Bool.or_eq_true_iff.mp h with h | h
    · rcases Bool.or_eq_true_iff.mp h with h | h
      · simp [Char.isAlphanum, h]
      · simp [h]
    · simp [h]
  next hwide =>
    rw [if_neg hwide]
    simp [h]

theorem all_isIdContinue_of_isIdentifierName (h : isIdentifierName s) : s.all isIdContinue := by
  cases s with
  | nil => rfl
  | cons c s =>
    obtain ⟨hstart, hrest⟩ : isIdStart c = true ∧ s.all isIdContinue = true := by
      simpa [isIdentifierName] using h
    rw [List.all_cons, isIdContinue_of_isIdStart hstart, hrest, Bool.and_self]

theorem keptText_of_isIdentifierName (h : isIdentifierName a.toList) : keptText a = a :=
  keptText_of_all (all_isIdContinue_of_isIdentifierName h)

/-- No reserved word starts with `_`. -/
theorem isBindingName_underscore :
    isBindingName (String.ofList ('_' :: s)) = s.all isIdContinue := by
  have hfree : reservedWords.contains (String.ofList ('_' :: s)) = false := by
    have hstart : ∀ w ∈ reservedWords, w.toList.head? ≠ some '_' := by decide
    rw [Bool.eq_false_iff]
    intro hmem
    refine hstart _ (List.contains_iff_mem.mp hmem) ?_
    rw [String.toList_ofList, List.head?_cons]
  have hstart : isIdStart '_' = true := by decide
  rw [isBindingName, hfree, String.toList_ofList, isIdentifierName, hstart, Bool.true_and, Bool.not_false,
    Bool.and_true]

theorem toIdentifier_underscore : toIdentifier ("_" ++ a) = some ("_" ++ keptText a) := by
  have hmark : ['_'].all isIdContinue = true := by decide
  have hchars : identifierChars false true ("_" ++ a).toList =
      '_' :: identifierChars false false a.toList := by
    rw [String.toList_append, show "_".toList = ['_'] from rfl, List.singleton_append,
      identifierChars]
    simp [hmark]
  have hname : String.ofList ('_' :: identifierChars false false a.toList) = "_" ++ keptText a :=
    String.toList_inj.mp (by simp [keptText])
  have hword : isBindingName ("_" ++ keptText a) = true := by
    rw [← hname, isBindingName_underscore]
    exact List.all_eq_true.mpr fun c hc => isIdContinue_of_mem_identifierChars hc
  unfold toIdentifier
  rw [hchars]
  dsimp only
  rw [hname, if_pos hword]

theorem underscore_of_isDigit (h : ∀ c ∈ s, c.isDigit = true) : '_' ∉ s := fun hmem =>
  absurd (h _ hmem) (by decide)

/-- The last `_` tells what stands before it from what stands after it. -/
theorem append_underscore_inj (hx : '_' ∉ x.toList) (hy : '_' ∉ y.toList)
    (h : a ++ "_" ++ x = b ++ "_" ++ y) : a = b ∧ x = y := by
  have hmark : "_".toList = ['_'] := rfl
  have hchars : a.toList ++ '_' :: x.toList = b.toList ++ '_' :: y.toList := by
    simpa [hmark] using congrArg String.toList h
  have hlonger {s : List Char} {x y : String} (hx : '_' ∉ x.toList)
      (hs : '_' :: x.toList = s ++ '_' :: y.toList) : s = [] ∧ x = y := by
    cases s with
    | nil => exact ⟨rfl, String.toList_inj.mp (List.cons.inj hs).2⟩
    | cons c s =>
      have hmem : '_' ∈ x.toList := by
        rw [(List.cons.inj hs).2]
        simp
      exact absurd hmem hx
  rcases List.append_eq_append_iff.mp hchars with ⟨s, hb, hs⟩ | ⟨s, ha, hs⟩
  · obtain ⟨rfl, heq⟩ := hlonger hx hs
    exact ⟨String.toList_inj.mp (by simpa using hb.symm), heq⟩
  · obtain ⟨rfl, heq⟩ := hlonger hy hs
    exact ⟨String.toList_inj.mp (by simpa using ha), heq.symm⟩

end FlatBundle.Text

namespace FlatBundle.ModuleId

theorem keptText_number (n : Nat) :
    Text.keptText (number n).text = toString n ∧ '_' ∉ (toString n).toList := by
  have hdigits : ∀ c ∈ (toString n).toList, c.isDigit = true := by
    intro c hc
    rw [Nat.toString_eq_ofList_toDigits, String.toList_ofList] at hc
    exact Nat.isDigit_of_mem_toDigits (by decide) (by decide) hc
  refine ⟨Text.keptText_of_all (List.all_eq_true.mpr fun c hc => ?_),
    Text.underscore_of_isDigit hdigits⟩
  have hdigit : c.isDigit = true := hdigits c hc
  have hascii : c.toNat < 0x80 := by
    have hbound : c.toNat ≤ 57 := (Char.isDigit_iff_toNat.mp hdigit).2
    omega
  simp [Text.isIdContinue, hascii, Char.isAlphanum, hdigit]

end FlatBundle.ModuleId
