import FlatBundle.Text.Base64

/-!
Numbers of variable length in base64: the lowest bit holds the sign, and each digit holds five bits
and says whether another one follows.
-/

namespace FlatBundle.Vlq

/-- A magnitude with its sign as one number. -/
def ofInt (n : Int) : Nat :=
  if n < 0 then n.natAbs * 2 + 1 else n.natAbs * 2

def toInt (n : Nat) : Int :=
  if n % 2 = 1 then -((n / 2 : Nat) : Int) else (n / 2 : Nat)

def encodeNat (n : Nat) : List Char :=
  if n < 32 then [Base64.digitChar n]
  else Base64.digitChar (n % 32 + 32) :: encodeNat (n / 32)
termination_by n
decreasing_by omega

def encode (n : Int) : List Char :=
  encodeNat (ofInt n)

/-- A foreign character counts as a digit of ones that another one follows. -/
def digit (c : Char) : Nat × Bool :=
  match Base64.digitValue? c with
  | some n => (n % 32, 32 ≤ n)
  | none => (31, true)

/-- A number has at most 13 digits; its bits above the sixty-third are lost. -/
def decodeFrom (value shift : Nat) : List Char → Option (List Int)
  | [] => if value = 0 && shift = 0 then some [] else none
  | c :: s =>
    if 64 ≤ shift then none
    else
      let (bits, more) := digit c
      let value := value + bits <<< shift
      if more then decodeFrom value (shift + 5) s
      else (decodeFrom 0 0 s).map (toInt value :: ·)

/-- The numbers of a segment, at least one. -/
def decode (s : List Char) : Option (List Int) :=
  match decodeFrom 0 0 s with
  | some [] => none
  | r => r

end FlatBundle.Vlq
