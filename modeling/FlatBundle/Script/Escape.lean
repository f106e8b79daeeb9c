import FlatBundle.Script.Trivia
import FlatBundle.Json.Reader

/-!
Escapes in words, strings and templates.
-/

namespace FlatBundle.Script

/-- A character of a string, or half a surrogate pair on its own. -/
inductive Unit16
  | char (c : Char)
  | surrogate (n : Nat)
deriving DecidableEq, Repr

def hexDigits (n : Nat) : List Char :=
  [Text.hexDigit (n / 4096), Text.hexDigit (n / 256 % 16), Text.hexDigit (n / 16 % 16),
    Text.hexDigit (n % 16)]

/-- A string with lone surrogates is told apart by U+FFFD, which comes before the four digits of a
surrogate, and before its own digits where the string has it itself. -/
def unitText (marked : Bool) : Unit16 → List Char
  | .surrogate n => '\ufffd' :: hexDigits n
  | .char c => if marked && c == '\ufffd' then '\ufffd' :: hexDigits 0xFFFD else [c]

def Unit16.isSurrogate : Unit16 → Bool
  | surrogate _ => true
  | char _ => false

def unitsText (units : List Unit16) : String :=
  String.ofList (units.flatMap (unitText (units.any Unit16.isSurrogate)))

def unitOfCode (n : Nat) : Unit16 :=
  if 0xD800 ≤ n && n < 0xE000 then .surrogate n else .char (Char.ofNat n)

def hexNumber? (s : List Char) : Option Nat :=
  s.foldlM (fun n c => (Json.hexValue? c).map (n * 16 + ·)) 0

/-- Exactly `count` hexadecimal digits. -/
def fixedHex? (count : Nat) (s : List Char) : Option (Nat × List Char) := do
  let digits := s.take count
  if digits.length < count then none
  let n ← hexNumber? digits
  return (n, s.drop count)

/-- A code point in braces, after the opening brace. -/
def bracedCode? (s : List Char) : Option (Nat × List Char) := do
  let digits := s.takeWhile fun c => (Json.hexValue? c).isSome
  match digits, s.drop digits.length with
  | _ :: _, '\x7d' :: rest =>
    let n ← hexNumber? digits
    if n ≤ 0x10FFFF then some (n, rest) else none
  | _, _ => none

/-- The code of `\u`, after these two characters. -/
def unicodeCode? (s : List Char) : Option (Nat × List Char) :=
  match s with
  | '\x7b' :: s => bracedCode? s
  | s => fixedHex? 4 s

/-- The characters of `\u`: two escapes of four digits may make one character. -/
def unicodeEscape? (s : List Char) : Option (Unit16 × List Char) := do
  match s with
  | '\x7b' :: s =>
    let (n, s) ← bracedCode? s
    return (unitOfCode n, s)
  | s =>
    let (n, s) ← fixedHex? 4 s
    if !Json.isHighSurrogate n then return (unitOfCode n, s)
    match s with
    | '\\' :: 'u' :: rest =>
      match fixedHex? 4 rest with
      | some (low, rest) =>
        if Json.isLowSurrogate low then return (.char (Json.joinSurrogates n low), rest)
        else return (.surrogate n, s)
      | none => return (.surrogate n, s)
    | _ => return (.surrogate n, s)

def isOctal (c : Char) : Bool :=
  '0' ≤ c && c ≤ '7'

/-- Up to three octal digits that stay below 256, of which `first` is the first. -/
def octalEscape (first : Char) (s : List Char) : Nat × List Char :=
  let value := Json.digitValue first
  match s with
  | b :: s =>
    if !isOctal b then (value, b :: s)
    else
      let value := value * 8 + Json.digitValue b
      match s with
      | c :: s =>
        if isOctal c && first ≤ '3' then (value * 8 + Json.digitValue c, s) else (value, c :: s)
      | [] => (value, [])
  | [] => (value, [])

/-- What an escape in a string or template stands for, after its backslash; a continued line stands
for nothing. Octal escapes are for strings only. -/
def escape? (inTemplate : Bool) (s : List Char) : Option (List Unit16 × List Char) := do
  match s with
  | [] => none
  | '\r' :: '\n' :: s => return ([], s)
  | 'x' :: s =>
    let (n, s) ← fixedHex? 2 s
    return ([.char (Char.ofNat n)], s)
  | 'u' :: s =>
    let (unit, s) ← unicodeEscape? s
    return ([unit], s)
  | 'b' :: s => return ([.char '\x08'], s)
  | 'f' :: s => return ([.char '\x0c'], s)
  | 'n' :: s => return ([.char '\n'], s)
  | 'r' :: s => return ([.char '\r'], s)
  | 't' :: s => return ([.char '\t'], s)
  | 'v' :: s => return ([.char '\x0b'], s)
  | c :: s =>
    if isLineBreak c then return ([], s)
    else if c.isDigit && inTemplate then
      if c = '0' && !(s.head?.any Char.isDigit) then return ([.char '\x00'], s) else none
    else if isOctal c then
      let (n, s) := octalEscape c s
      return ([.char (Char.ofNat n)], s)
    else return ([.char c], s)

end FlatBundle.Script
