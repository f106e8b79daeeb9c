/-!
Doubles and their decimal texts: reading a decimal significand and exponent, and writing the fewest
digits that read back.
-/

namespace FlatBundle.Json.Decimal

/-- The largest significand that is kept exactly. -/
def significandLimit : Nat := 0xFFFFFFFFFFFFFFFF

/-- Appends digits to a significand as long as it stays within the limit; gives the digits left. -/
def accumulate (significand : Nat) : List Nat → Nat × List Nat
  | [] => (significand, [])
  | d :: digits =>
    if significand * 10 + d ≤ significandLimit then accumulate (significand * 10 + d) digits
    else (significand, d :: digits)

def powerOfTen (k : Nat) : Float :=
  Float.ofScientific 1 false k

/-- Steps of 308 bring an exponent below the range of powers into it. -/
def scaleDown : Nat → Float → Nat → Float
  | 0, f, _ => f
  | fuel + 1, f, k =>
    if k ≤ 308 then f / powerOfTen k
    else if f == 0 then f
    else scaleDown fuel (f / powerOfTen 308) (k - 308)

/-- `significand * 10 ^ exponent`, rounded at the significand and once for each power of ten;
`none` beyond the largest double. -/
def toDouble? (negative : Bool) (significand : Nat) (exponent : Int) : Option Float :=
  let f := (UInt64.ofNat significand).toFloat
  let scaled :=
    if exponent < 0 then some (scaleDown 8 f exponent.natAbs)
    else if exponent ≤ 308 then
      let g := f * powerOfTen exponent.toNat
      if g.isInf then none else some g
    else if f == 0 then some f
    else none
  scaled.map fun f => if negative then -f else f

/-- A finite double without its sign as `m * 2 ^ q`. -/
structure Binary where
  m : Nat
  q : Int
  /-- The step to the next smaller double is half as large as the step upwards. -/
  narrowBelow : Bool

/-- The leading bit of a significand, which the bits of a double leave out. -/
def hiddenBit : Nat := 0x10000000000000

def Binary.ofBits (bits : UInt64) : Binary :=
  let fraction : Nat := bits.toNat % hiddenBit
  let exponent : Nat := bits.toNat / hiddenBit % 0x800
  if exponent = 0 then ⟨fraction, -1074, false⟩
  else ⟨fraction + hiddenBit, (exponent : Int) - 1075, fraction = 0 && exponent > 1⟩

/-- Whether `d * 10 ^ k` rounds to the double. All is measured in quarters of its step. -/
def Binary.readsAs (b : Binary) (d : Nat) (k : Int) : Bool :=
  let two := fun (e : Int) => Nat.pow 2 e.toNat
  let ten := fun (e : Int) => Nat.pow 10 e.toNat
  let decimal := 4 * d * ten k * two (-b.q)
  let scale := ten (-k) * two b.q
  let low := (4 * b.m - if b.narrowBelow then 1 else 2) * scale
  let high := (4 * b.m + 2) * scale
  if b.m % 2 = 0 then low ≤ decimal && decimal ≤ high else low < decimal && decimal < high

/-- The decimals next to the double on the grid of `10 ^ k`: the nearer one that reads back. -/
def Binary.onGrid? (b : Binary) (k : Int) : Option Nat :=
  let num := b.m * Nat.pow 2 b.q.toNat * Nat.pow 10 (-k).toNat
  let den := Nat.pow 2 (-b.q).toNat * Nat.pow 10 k.toNat
  let below := num / den
  let rest := 2 * (num % den)
  let first := if rest < den || (rest = den && below % 2 = 0) then below else below + 1
  let second := if first = below then below + 1 else below
  if b.readsAs first k then some first else if b.readsAs second k then some second else none

/-- The exponent of the leading decimal digit of `num / den`, from above. -/
def leadingExponent (b : Binary) : Int :=
  let num := b.m * Nat.pow 2 b.q.toNat
  let den := Nat.pow 2 (-b.q).toNat
  if den ≤ num then ((Nat.toDigits 10 (num / den)).length : Int) - 1
  else -((Nat.toDigits 10 (den / num)).length : Int)

def shortestFrom (b : Binary) (k : Int) : Nat → Nat × Int
  | 0 => ((b.onGrid? k).getD 0, k)
  | fuel + 1 =>
    match b.onGrid? k with
    | some d => (d, k)
    | none => shortestFrom b (k - 1) fuel

/-- Drops trailing zeros of the digits. -/
def strip : Nat → Nat × Int → Nat × Int
  | 0, r => r
  | fuel + 1, (d, k) => if d ≠ 0 && d % 10 = 0 then strip fuel (d / 10, k + 1) else (d, k)

/-- The fewest decimal digits that read back as the double, and their exponent. -/
def shortest (bits : UInt64) : Nat × Int :=
  let b := Binary.ofBits bits
  if b.m = 0 then (0, 0) else strip 20 (shortestFrom b (leadingExponent b + 1) 20)

/-- The text of a double: positional up to 16 digits before and 5 zeros after the point, and with
an exponent beyond. -/
def text (bits : UInt64) : String :=
  let (d, k) := shortest bits
  let digits := Nat.toDigits 10 d
  let length := digits.length
  let point := (length : Int) + k
  let zeros := fun (n : Int) => List.replicate n.toNat '0'
  let body :=
    if d = 0 then ['0', '.', '0']
    else if 0 ≤ k && point ≤ 16 then digits ++ zeros k ++ ['.', '0']
    else if 0 < point && point ≤ 16 then
      digits.take point.toNat ++ '.' :: digits.drop point.toNat
    else if -5 < point && point ≤ 0 then '0' :: '.' :: zeros (-point) ++ digits
    else
      let mantissa :=
        match digits with
        | first :: second :: rest => first :: '.' :: second :: rest
        | few => few
      mantissa ++ 'e' :: (toString (point - 1)).toList
  String.ofList (if bits.toNat / 0x8000000000000000 = 1 then '-' :: body else body)

end FlatBundle.Json.Decimal
