import FlatBundle.Text.Base64
import Mathlib.Data.List.Basic

/-!
Base64 reads back what it writes.
-/

namespace FlatBundle

/-- Reading each item of a list where no reading fails. -/
theorem mapM_eq_some_map {α β : Type} {f : α → Option β} {g : α → β} {xs : List α}
    (h : ∀ x ∈ xs, f x = some (g x)) : xs.mapM f = some (xs.map g) := by
  induction xs with
  | nil => rfl
  | cons x xs ih =>
    rw [List.forall_mem_cons] at h
    rw [List.mapM_cons, h.1, ih h.2]
    rfl

namespace Base64

variable {bytes : List UInt8} {body : List Char} {n k : Nat}

theorem digitValue?_digitChar (h : n < 64) : digitValue? (digitChar n) = some n := by
  revert n
  decide

/-- The six-bit digits of some bytes. -/
def digits : List UInt8 → List Nat
  | [] => []
  | [a] =>
    let n := a.toNat * 16
    [n / 64, n % 64]
  | [a, b] =>
    let n := (a.toNat * 256 + b.toNat) * 4
    [n / 4096, n / 64 % 64, n % 64]
  | a :: b :: c :: rest =>
    let n := (a.toNat * 256 + b.toNat) * 256 + c.toNat
    n / 262144 :: n / 4096 % 64 :: n / 64 % 64 :: n % 64 :: digits rest

/-- How many `=` fill up the last four characters. -/
def paddingLength (bytes : List UInt8) : Nat :=
  2 * bytes.length % 3

theorem digits_lt (bytes : List UInt8) : ∀ n ∈ digits bytes, n < 64 := by
  induction bytes using digits.induct with
  | case1 => simp [digits]
  | case2 a =>
    have := a.toNat_lt
    simp only [digits, List.mem_cons, List.not_mem_nil, or_false]
    omega
  | case3 a b =>
    have := a.toNat_lt
    have := b.toNat_lt
    simp only [digits, List.mem_cons, List.not_mem_nil, or_false]
    omega
  | case4 a b c rest ih =>
    have := a.toNat_lt
    have := b.toNat_lt
    have := c.toNat_lt
    intro n hn
    simp only [digits, List.mem_cons] at hn
    rcases hn with rfl | rfl | rfl | rfl | hn
    · omega
    · omega
    · omega
    · omega
    · exact ih n hn

theorem paddingLength_cons {a b c : UInt8} :
    paddingLength (a :: b :: c :: bytes) = paddingLength bytes := by
  simp only [paddingLength, List.length_cons]
  omega

theorem encode_eq (bytes : List UInt8) :
    encode bytes = (digits bytes).map digitChar ++ List.replicate (paddingLength bytes) '=' := by
  induction bytes using encode.induct with
  | case1 => rfl
  | case2 a => simp [encode, digits, paddingLength]
  | case3 a b => simp [encode, digits, paddingLength]
  | case4 a b c rest ih => simp [encode, digits, paddingLength_cons, ih]

theorem length_digits (bytes : List UInt8) :
    ((digits bytes).length + paddingLength bytes) % 4 = 0 := by
  induction bytes using digits.induct with
  | case1 => rfl
  | case2 a => simp [digits, paddingLength]
  | case3 a b => simp [digits, paddingLength]
  | case4 a b c rest ih =>
    simp only [digits, paddingLength_cons, List.length_cons]
    omega

theorem decodeDigits_digits (bytes : List UInt8) : decodeDigits (digits bytes) = some bytes := by
  have hbyte : ∀ (a : UInt8) k, k % 256 = a.toNat → UInt8.ofNat k = a := by
    intro a k hk
    apply UInt8.toNat_inj.mp
    rw [UInt8.toNat_ofNat']
    exact hk
  induction bytes using digits.induct with
  | case1 => rfl
  | case2 a =>
    have ha := a.toNat_lt
    simp only [digits, decodeDigits]
    rw [hbyte a _ (by omega)]
  | case3 a b =>
    have ha := a.toNat_lt
    have hb := b.toNat_lt
    simp only [digits, decodeDigits]
    rw [hbyte a _ (by omega), hbyte b _ (by omega)]
  | case4 a b c rest ih =>
    have ha := a.toNat_lt
    have hb := b.toNat_lt
    have hc := c.toNat_lt
    simp only [digits, decodeDigits, ih, Option.map_some]
    rw [hbyte a _ (by omega), hbyte b _ (by omega), hbyte c _ (by omega)]

theorem dropPadding_append (hbody : '=' ∉ body) (hk : k ≤ 2) (hlength : (body.length + k) % 4 = 0) :
    dropPadding (body ++ List.replicate k '=') = body := by
  have hfull : (body ++ List.replicate k '=').length % 4 = 0 := by
    rwa [List.length_append, List.length_replicate]
  have hlast : ∀ rest, body.reverse ≠ '=' :: rest := by
    intro rest heq
    exact hbody (List.mem_reverse.mp (heq ▸ List.mem_cons_self))
  rw [dropPadding, if_pos hfull, List.reverse_append, List.reverse_replicate]
  match k, hk with
  | 0, _ =>
    rw [List.replicate_zero, List.nil_append, List.append_nil]
    split
    next heq => exact absurd heq (hlast _)
    next heq => exact absurd heq (hlast _)
    next => rfl
  | 1, _ =>
    rw [List.replicate_one, List.singleton_append]
    split
    next heq => exact absurd (List.cons.inj heq).2 (hlast _)
    next heq => rw [← (List.cons.inj heq).2, List.reverse_reverse]
    next hnone => exact absurd rfl (hnone _)
  | 2, _ => simp

/-- Nothing is lost of bytes in base64. -/
theorem decode_encode (bytes : List UInt8) : decode (encode bytes) = some bytes := by
  have hchar : ∀ n < 64, isSkipped (digitChar n) = false ∧ '=' ≠ digitChar n := by decide
  have hbody : ∀ c ∈ (digits bytes).map digitChar, isSkipped c = false ∧ '=' ≠ c := by
    intro c hc
    obtain ⟨n, hn, rfl⟩ := List.mem_map.mp hc
    exact hchar n (digits_lt bytes n hn)
  have hfilter : (encode bytes).filter (!isSkipped ·) = encode bytes := by
    rw [List.filter_eq_self, encode_eq]
    intro c hc
    rcases List.mem_append.mp hc with hc | hc
    · simp [(hbody c hc).1]
    · rw [List.eq_of_mem_replicate hc]
      decide
  have hunpadded : dropPadding (encode bytes) = (digits bytes).map digitChar := by
    rw [encode_eq]
    refine dropPadding_append (fun h => (hbody _ h).2 rfl) ?_ ?_
    · unfold paddingLength
      omega
    · rw [List.length_map, length_digits]
  have hdigits : ((digits bytes).map digitChar).mapM digitValue? = some (digits bytes) := by
    rw [List.mapM_map]
    refine (mapM_eq_some_map fun n hn => digitValue?_digitChar (digits_lt bytes n hn)).trans ?_
    rw [List.map_id']
  rw [decode, hfilter, hunpadded, hdigits]
  exact decodeDigits_digits bytes

end Base64

end FlatBundle
