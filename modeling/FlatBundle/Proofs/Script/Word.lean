import FlatBundle.Proofs.Script.Boundary
import FlatBundle.Proofs.Script.Layout
import FlatBundle.Proofs.Text.Identifier

/-!
How words are written: what characters there are in the text of a name.
-/

namespace FlatBundle.Script

variable {source s t rest : List Char} {c : Char} {name : String} {start stop n : Nat}

/-- The characters that words are written with, those of escapes among them. -/
def isWordPart (c : Char) : Bool :=
  Text.isIdContinue c || c == '\\' || c == '\x7b' || c == '\x7d'

/-- A text goes on behind some characters of a word. -/
def PassesWord (s rest : List Char) : Prop :=
  ∃ front, s = front ++ rest ∧ ∀ c ∈ front, isWordPart c

namespace PassesWord

theorem refl : PassesWord s s :=
  ⟨[], rfl, nofun⟩

theorem cons (hc : isWordPart c) (h : PassesWord s rest) : PassesWord (c :: s) rest := by
  obtain ⟨front, rfl, hfront⟩ := h
  exact ⟨c :: front, rfl, List.forall_mem_cons.mpr ⟨hc, hfront⟩⟩

theorem trans (h : PassesWord s t) (h' : PassesWord t rest) : PassesWord s rest := by
  obtain ⟨front, rfl, hfront⟩ := h
  obtain ⟨back, rfl, hback⟩ := h'
  exact ⟨front ++ back, (List.append_assoc ..).symm, List.forall_mem_append.mpr ⟨hfront, hback⟩⟩

end PassesWord

theorem isWordPart_of_isIdContinue (h : Text.isIdContinue c) : isWordPart c := by
  simp [isWordPart, h]

theorem isWordPart_of_hexValue? (h : (Json.hexValue? c).isSome) : isWordPart c := by
  have hvalue : c.val.toNat = c.toNat := rfl
  have hdigit : '0' ≤ c ∧ c ≤ '9' ∨ 'a' ≤ c ∧ c ≤ 'f' ∨ 'A' ≤ c ∧ c ≤ 'F' := by
    unfold Json.hexValue? at h
    grind
  simp only [Char.le_def, UInt32.le_iff_toNat_le, hvalue] at hdigit
  have hascii : c.toNat < 0x80 := by grind
  refine isWordPart_of_isIdContinue ?_
  rw [Text.isIdContinue, if_pos hascii]
  delta Char.isAlphanum Char.isAlpha Char.isUpper Char.isLower Char.isDigit
  simp only [UInt32.le_iff_toNat_le, hvalue]
  grind

theorem passesWord_hexDigits {digits : List Char} (h : (hexNumber? digits).isSome) :
    PassesWord (digits ++ rest) rest := by
  refine ⟨digits, rfl, fun c hc => isWordPart_of_hexValue? ?_⟩
  rw [Option.isSome_iff_ne_none]
  intro hnone
  rw [hexNumber?_eq_none ⟨c, hc, hnone⟩] at h
  cases h

theorem passesWord_fixedHex? {count : Nat} (h : fixedHex? count s = some (n, rest)) : PassesWord s rest := by
  simp only [fixedHex?] at h
  split at h
  · cases h
  · obtain ⟨value, hvalue, h⟩ := Option.bind_eq_some_iff.mp h
    cases h
    have hdigits : (hexNumber? (s.take count)).isSome := by rw [hvalue]; rfl
    simpa using @passesWord_hexDigits (s.drop count) _ hdigits

theorem passesWord_bracedCode? (h : bracedCode? s = some (n, rest)) : PassesWord s rest := by
  simp only [bracedCode?] at h
  split at h
  next hdrop =>
    obtain ⟨value, hvalue, h⟩ := Option.bind_eq_some_iff.mp h
    split at h
    · cases h
      let digits := s.takeWhile fun c => (Json.hexValue? c).isSome
      have hparts : s = digits ++ '\x7d' :: rest := by
        rw [← hdrop]
        exact (List.prefix_iff_eq_append.mp (List.takeWhile_prefix _)).symm
      have hdigits : (hexNumber? digits).isSome := by rw [hvalue]; rfl
      rw [hparts]
      exact (passesWord_hexDigits hdigits).trans (PassesWord.refl.cons (by decide))
    · cases h
  next => cases h

theorem passesWord_unicodeCode? (h : unicodeCode? s = some (n, rest)) : PassesWord s rest := by
  unfold unicodeCode? at h
  split at h
  · exact (passesWord_bracedCode? h).cons (by decide)
  · exact passesWord_fixedHex? h

theorem passesWord_wordRest {first escaped : Bool} {fuel : Nat} {cs : List Char}
    (h : wordRest first fuel s = some (cs, escaped, rest)) : PassesWord s rest := by
  induction fuel generalizing first s cs escaped with
  | zero => simp [wordRest] at h
  | succ fuel ih =>
    rw [wordRest.eq_def] at h
    dsimp -zeta only at h
    extract_lets fits at h
    have hword {c : Char} (hc : fits c) : isWordPart c := by
      refine isWordPart_of_isIdContinue ?_
      cases first with
      | true => exact Text.isIdContinue_of_isIdStart hc
      | false => exact hc
    clear_value fits
    split at h
    · obtain ⟨⟨n, after⟩, hcode, h⟩ := Option.bind_eq_some_iff.mp h
      dsimp only at h
      split at h
      · cases h
      · obtain ⟨⟨_, _, _⟩, hrest, h⟩ := Option.bind_eq_some_iff.mp h
        cases h
        have hcode := (passesWord_unicodeCode? hcode).trans (ih hrest)
        exact (hcode.cons (by decide)).cons (by decide)
    · cases h
    · split at h
      next hfits =>
        obtain ⟨⟨_, _, _⟩, hrest, h⟩ := Option.bind_eq_some_iff.mp h
        cases h
        exact (ih hrest).cons (hword hfits)
      next =>
        split at h <;> cases h
        exact .refl
    · split at h <;> cases h
      exact .refl

theorem passesWord_kind? {k : Option Keyword} {escaped : Bool}
    (h : kind? s = some (.word k name escaped, rest)) : PassesWord s rest := by
  unfold kind? at h
  split at h
  · cases h
  iterate 4
    obtain ⟨_, -, h⟩ := Option.bind_eq_some_iff.mp h
    cases h
  · split at h
    · obtain ⟨_, -, h⟩ := Option.bind_eq_some_iff.mp h
      cases h
    · split at h
      · cases h
      · obtain ⟨⟨cs, escaped, rest⟩, hword, h⟩ := Option.bind_eq_some_iff.mp h
        cases h
        exact passesWord_wordRest hword

/-- What a name is written with. -/
theorem Names.exists_part (h : Names source start stop name) : ∃ part rest,
    RestAt source (part ++ rest) start ∧ RestAt source rest stop ∧ ∀ c ∈ part, isWordPart c := by
  obtain ⟨s, rest, k, escaped, hs, hrest, hkind⟩ := h
  obtain ⟨part, rfl, hpart⟩ := passesWord_kind? hkind
  exact ⟨part, rest, hs, hrest, hpart⟩

/-- What stands between the ends of a name is written with such characters. -/
theorem Names.isWordPart_of_between {more : List Char} {o : Nat} (h : Names source start stop name)
    (hat : RestAt source (c :: more) o) (hstart : start ≤ o) (hstop : o < stop) : isWordPart c := by
  obtain ⟨part, rest, hs, hrest, hpart⟩ := h.exists_part
  obtain ⟨front, hfront, -⟩ := hs.exists_between hat hstart
  obtain ⟨back, hback, hlength⟩ := hat.exists_between hrest (Nat.le_of_lt hstop)
  cases back with
  | nil => exact absurd hlength (by simp; omega)
  | cons d back =>
    obtain ⟨rfl, rfl⟩ := List.cons.inj hback
    have hfront : part ++ rest = (front ++ c :: back) ++ rest := by simpa using hfront
    obtain rfl := List.append_cancel_right hfront
    exact hpart c (by simp)

theorem Names.isWordPart_of_mem_slice {slice : List Char} (h : Names source start stop name)
    (hslice : sliceBytes source start stop = some slice) (hc : c ∈ slice) : isWordPart c := by
  obtain ⟨part, rest, hs, hrest, hpart⟩ := h.exists_part
  rw [← (hs.append part).offset_eq hrest, hs.sliceBytes] at hslice
  obtain rfl := Option.some.inj hslice
  exact hpart c hc

end FlatBundle.Script
