import FlatBundle.Json.Value
import FlatBundle.Json.Decimal

/-!
Reading JSON text. Reading never fails as a whole: what is wrong stands in the value at its place.
-/

namespace FlatBundle.Json

def isSpace (c : Char) : Bool :=
  c == ' ' || c == '\n' || c == '\t' || c == '\r'

def skipSpace (s : List Char) : List Char :=
  s.dropWhile isSpace

def digitValue (c : Char) : Nat :=
  c.toNat - '0'.toNat

def hexValue? (c : Char) : Option Nat :=
  if '0' ≤ c && c ≤ '9' then some (c.toNat - 48)
  else if 'a' ≤ c && c ≤ 'f' then some (c.toNat - 87)
  else if 'A' ≤ c && c ≤ 'F' then some (c.toNat - 55)
  else none

/-- The value of the escape `\u` from the four characters after it. -/
def hexEscape? : List Char → Except Failure (Nat × List Char)
  | a :: b :: c :: d :: s =>
    match hexValue? a, hexValue? b, hexValue? c, hexValue? d with
    | some a, some b, some c, some d => .ok (((a * 16 + b) * 16 + c) * 16 + d, s)
    | _, _, _, _ => .error .unexpected
  | _ => .error .ended

def simpleEscape? (c : Char) : Option Char :=
  match c with
  | '"' => some '"'
  | '\\' => some '\\'
  | '/' => some '/'
  | 'b' => some '\x08'
  | 'f' => some '\x0c'
  | 'n' => some '\n'
  | 'r' => some '\r'
  | 't' => some '\t'
  | _ => none

def isHighSurrogate (n : Nat) : Bool :=
  0xD800 ≤ n && n < 0xDC00

def isLowSurrogate (n : Nat) : Bool :=
  0xDC00 ≤ n && n < 0xE000

def joinSurrogates (high low : Nat) : Char :=
  Char.ofNat (0x10000 + (high - 0xD800) * 0x400 + (low - 0xDC00))

/-- One character of a string from its spelling; `none` for half a surrogate pair. -/
def stringChar? : List Char → Except Failure (Option Char × List Char)
  | [] => .error .ended
  | '\\' :: 'u' :: s => do
    let (n, s) ← hexEscape? s
    if isLowSurrogate n then return (none, s)
    else if isHighSurrogate n then
      match s with
      | '\\' :: 'u' :: rest =>
        let (low, rest) ← hexEscape? rest
        return if isLowSurrogate low then (some (joinSurrogates n low), rest) else (none, s)
      | _ => return (none, s)
    else return (some (Char.ofNat n), s)
  | '\\' :: c :: s =>
    match simpleEscape? c with
    | some c => .ok (some c, s)
    | none => .error .unexpected
  | ['\\'] => .error .ended
  | c :: s => if c.toNat < 0x20 then .error .unexpected else .ok (some c, s)

/-- The rest of a string after its opening quote; `none` for a string with half a surrogate
pair. -/
def stringRest : Nat → List Char → Except Failure (Option (List Char) × List Char)
  | 0, _ => .error .ended
  | _ + 1, '"' :: s => .ok (some [], s)
  | fuel + 1, s => do
    let (c, s) ← stringChar? s
    let (text, s) ← stringRest fuel s
    return ((do return (← c) :: (← text)), s)

/-- Text after an opening quote. -/
def readString (s : List Char) : Except Failure (Option String × List Char) := do
  let (text, s) ← stringRest (s.length + 1) s
  return (text.map String.ofList, s)

def digits (s : List Char) : List Nat × List Char :=
  ((s.takeWhile Char.isDigit).map digitValue, s.dropWhile Char.isDigit)

/-- At least one digit. -/
def digits1 (s : List Char) : Except Failure (List Nat × List Char) :=
  match s with
  | [] => .error .ended
  | c :: _ => if c.isDigit then .ok (digits s) else .error .unexpected

/-- The digits of the integer part: no further digit after a leading zero. -/
def integerPart (s : List Char) : Except Failure (List Nat × List Char) :=
  match s with
  | '0' :: c :: s => if c.isDigit then .error .unexpected else .ok ([0], c :: s)
  | s => digits1 s

/-- A fraction, empty without a point. -/
def fractionPart (s : List Char) : Except Failure (Option (List Nat) × List Char) :=
  match s with
  | '.' :: s => do
    let (ds, s) ← digits1 s
    return (some ds, s)
  | s => .ok (none, s)

def exponentPart (s : List Char) : Except Failure (Option Int × List Char) :=
  match s with
  | c :: s =>
    if c = 'e' || c = 'E' then do
      let (sign, s) : Int × List Char :=
        match s with
        | '+' :: s => (1, s)
        | '-' :: s => (-1, s)
        | s => (1, s)
      let (ds, s) ← digits1 s
      return (some (sign * (ds.foldl (fun (n : Nat) d => n * 10 + d) 0 : Nat)), s)
    else .ok (none, c :: s)
  | [] => .ok (none, [])

/-- A number without fraction or exponent that a word holds. -/
def integerNumber? (negative : Bool) (n : Nat) : Option Number :=
  if !negative then some (.natural n)
  else if 0 < n && n ≤ 0x8000000000000000 then some (.negative n)
  else none

def readNumber (negative : Bool) (s : List Char) : Except Failure (Value × List Char) := do
  let (whole, s) ← integerPart s
  let (fraction, s) ← fractionPart s
  let (exponent, s) ← exponentPart s
  let (significand, dropped) := Decimal.accumulate 0 whole
  let real := fun (significand : Nat) (exponent : Int) =>
    match Decimal.toDouble? negative significand exponent with
    | some f => Value.number (.real f.toBits)
    | none => Value.unreadable
  let value :=
    match fraction, exponent with
    | none, none =>
      if dropped.isEmpty then
        match integerNumber? negative significand with
        | some n => Value.number n
        | none => real significand 0
      else real significand dropped.length
    | fraction, exponent =>
      let fraction := fraction.getD []
      let (significand, rest) := Decimal.accumulate significand fraction
      let used := fraction.length - rest.length
      real significand ((dropped.length : Int) - used + exponent.getD 0)
  return (value, s)

/-- The rest of a word such as `null` after its first letter. -/
def readWord (value : Value) : List Char → List Char → Value × List Char
  | [], s => (value, s)
  | _ :: _, [] => (.broken .ended, [])
  | w :: word, c :: s => if w = c then readWord value word s else (.broken .unexpected, [])

/-- Makes a failed reading the last value. -/
def orBroken (r : Except Failure (Value × List Char)) : Value × List Char :=
  match r with
  | .ok r => r
  | .error failure => (.broken failure, [])

def Value.isBroken : Value → Bool
  | .array _ cut => cut.isSome
  | .object _ cut => cut.isSome
  | .broken _ => true
  | _ => false

mutual

/-- The value at the start of a text, and the text after it. -/
def readValue : Nat → List Char → Value × List Char
  | 0, _ => (.broken .ended, [])
  | fuel + 1, s =>
    match skipSpace s with
    | [] => (.broken .ended, [])
    | 'n' :: s => readWord .null ['u', 'l', 'l'] s
    | 't' :: s => readWord (.bool true) ['r', 'u', 'e'] s
    | 'f' :: s => readWord (.bool false) ['a', 'l', 's', 'e'] s
    | '"' :: s =>
      orBroken (do
        let (text, s) ← readString s
        return ((text.map Value.text).getD .unreadable, s))
    | '[' :: s =>
      match skipSpace s with
      | [] => (.array [] (some .ended), [])
      | ']' :: s => (.array [] none, s)
      | s =>
        let (items, cut, s) := readItems fuel s
        (.array items cut, s)
    | '\x7b' :: s =>
      match skipSpace s with
      | [] => (.object [] (some .ended), [])
      | '\x7d' :: s => (.object [] none, s)
      | s =>
        let (members, cut, s) := readMembers fuel s
        (.object members cut, s)
    | '-' :: s => orBroken (readNumber true s)
    | c :: s => if c.isDigit then orBroken (readNumber false (c :: s)) else (.broken .unexpected, [])

/-- Items up to the closing bracket. -/
def readItems : Nat → List Char → List Value × Option Failure × List Char
  | 0, _ => ([], some .ended, [])
  | fuel + 1, s =>
    let (item, s) := readValue fuel s
    if item.isBroken then ([item], some .unexpected, [])
    else
      match skipSpace s with
      | [] => ([item], some .ended, [])
      | ']' :: s => ([item], none, s)
      | ',' :: s =>
        match skipSpace s with
        | [] => ([item], some .ended, [])
        | ']' :: _ => ([item], some .unexpected, [])
        | s =>
          let (items, cut, s) := readItems fuel s
          (item :: items, cut, s)
      | _ => ([item], some .unexpected, [])

/-- Members up to the closing brace. -/
def readMembers : Nat → List Char → List (Option String × Value) × Option Failure × List Char
  | 0, _ => ([], some .ended, [])
  | fuel + 1, s =>
    match s with
    | '"' :: s =>
      match readString s with
      | .error failure => ([], some failure, [])
      | .ok (key, s) =>
        match skipSpace s with
        | [] => ([(key, .broken .ended)], some .ended, [])
        | ':' :: s =>
          let (v, s) := readValue fuel s
          if v.isBroken then ([(key, v)], some .unexpected, [])
          else
            match skipSpace s with
            | [] => ([(key, v)], some .ended, [])
            | '\x7d' :: s => ([(key, v)], none, s)
            | ',' :: s =>
              match skipSpace s with
              | [] => ([(key, v)], some .ended, [])
              | s =>
                let (members, cut, s) := readMembers fuel s
                ((key, v) :: members, cut, s)
            | _ => ([(key, v)], some .unexpected, [])
        | _ => ([(key, .broken .unexpected)], some .unexpected, [])
    | [] => ([], some .ended, [])
    | _ => ([], some .unexpected, [])

end

/-- The value at the start of a text, and the text after it. -/
def read (s : List Char) : Value × List Char :=
  readValue (s.length + 1) s

/-- The only value of a text. -/
def readAll? (s : List Char) : Except Failure Value :=
  let (v, rest) := read s
  match v.failure? with
  | some failure => .error failure
  | none => if (skipSpace rest).isEmpty then .ok v else .error .unexpected

end FlatBundle.Json
