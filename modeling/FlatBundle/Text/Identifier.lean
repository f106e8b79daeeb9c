import FlatBundle.Text.IdentifierTable
import FlatBundle.Text.UppercaseTable

/-!
Identifier names: which characters they take, which are reserved, and the identifier nearest to an
arbitrary text.
-/

namespace FlatBundle.Text

def inRanges (ranges : List (Nat × Nat)) (n : Nat) : Bool :=
  ranges.any fun (first, last) => first ≤ n && n ≤ last

/-- Whether an identifier may start with `c`. -/
def isIdStart (c : Char) : Bool :=
  if c.toNat < 0x80 then c.isAlpha || c == '$' || c == '_'
  else inRanges idStartRanges c.toNat

/-- Whether an identifier may go on with `c`. -/
def isIdContinue (c : Char) : Bool :=
  if c.toNat < 0x80 then c.isAlphanum || c == '$' || c == '_'
  else
    inRanges idStartRanges c.toNat || inRanges idContinueOnlyRanges c.toNat ||
      c.toNat == 0x200C || c.toNat == 0x200D

def isIdentifierName : List Char → Bool
  | [] => false
  | c :: s => isIdStart c && s.all isIdContinue

/-- The words that strict code does not take as a binding name. -/
def reservedWords : List String := [
  "await", "break", "case", "catch", "class", "const", "continue", "debugger", "default", "delete",
  "do", "else", "enum", "export", "extends", "false", "finally", "for", "function", "if",
  "implements", "import", "in", "instanceof", "interface", "let", "new", "null", "package",
  "private", "protected", "public", "return", "static", "super", "switch", "this", "throw", "true",
  "try", "typeof", "var", "void", "while", "with", "yield"]

/-- Whether strict code takes `name` as a binding name. -/
def isBindingName (name : String) : Bool :=
  isIdentifierName name.toList && !reservedWords.contains name

def UppercaseRun.contains (run : UppercaseRun) (n : Nat) : Bool :=
  run.first ≤ n && n ≤ run.last && (n - run.first) % run.step == 0

/-- The upper case of a character, which may be several characters. -/
def uppercase (c : Char) : List Char :=
  if c.toNat < 0x80 then [c.toUpper]
  else
    match uppercaseExpansions.lookup c.toNat with
    | some codes => codes.map Char.ofNat
    | none =>
      match uppercaseRuns.find? (·.contains c.toNat) with
      | some run => [Char.ofNat (c.toNat + run.shift).toNat]
      | none => [c]

/-- Keeps what an identifier can hold after its first character. The character after a dropped one
is raised to upper case unless nothing has been kept yet; `dropped` says that the last one fell
away and `empty` that nothing is kept so far. -/
def identifierChars (dropped empty : Bool) : List Char → List Char
  | [] => []
  | c :: s =>
    let kept := if dropped && !empty then uppercase c else [c]
    if kept.all isIdContinue then kept ++ identifierChars false false s
    else identifierChars true empty s

/-- The identifier nearest to `text`, which starts with an added `_` where the rest alone is no
binding name. -/
def toIdentifier (text : String) : Option String :=
  match identifierChars false true text.toList with
  | [] => none
  | chars =>
    let name := String.ofList chars
    some (if isBindingName name then name else String.ofList ('_' :: chars))

end FlatBundle.Text
