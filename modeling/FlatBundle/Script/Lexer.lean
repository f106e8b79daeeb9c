import FlatBundle.Script.Escape

/-!
Reading one token at a place of the source text. Where a slash or a closing brace can start more
than one kind of token, the reader of the grammar asks for the other kind.
-/

namespace FlatBundle.Script

/-- Words: their characters, and whether one of them is escaped. -/
def wordRest (first : Bool) : Nat → List Char → Option (List Char × Bool × List Char)
  | 0, _ => none
  | fuel + 1, s =>
    let fits := fun (c : Char) => if first then Text.isIdStart c else Text.isIdContinue c
    match s with
    | '\\' :: 'u' :: s => do
      let (n, s) ← unicodeCode? s
      let c := Char.ofNat n
      if n ≠ c.toNat || !fits c then none
      let (cs, _, s) ← wordRest false fuel s
      return (c :: cs, true, s)
    | '\\' :: _ => none
    | c :: s =>
      if fits c then do
        let (cs, escaped, s) ← wordRest false fuel s
        return (c :: cs, escaped, s)
      else if first then none
      else some ([], false, c :: s)
    | [] => if first then none else some ([], false, [])

/-- The word at the start of a text. -/
def word? (s : List Char) : Option (List Char × Bool × List Char) :=
  wordRest true (s.length + 1) s

/-- Digits with single underscores between them. -/
def separatedDigits (isDigit : Char → Bool) : List Char → Option (List Char)
  | '_' :: c :: s => if isDigit c then separatedDigits isDigit s else none
  | ['_'] => none
  | c :: s => if isDigit c then separatedDigits isDigit s else some (c :: s)
  | [] => some []

/-- At least one digit, underscores between digits. -/
def separatedDigits1 (isDigit : Char → Bool) : List Char → Option (List Char)
  | c :: s => if isDigit c then separatedDigits isDigit s else none
  | [] => none

/-- A number must not run into a word or a digit. -/
def numberEnd? (s : List Char) : Option (List Char) :=
  match s with
  | c :: _ => if Text.isIdStart c || c.isDigit then none else some s
  | [] => some s

/-- An exponent after its letter. -/
def exponentEnd? (s : List Char) : Option (List Char) := do
  let s :=
    match s with
    | '+' :: s => s
    | '-' :: s => s
    | s => s
  numberEnd? (← separatedDigits1 Char.isDigit s)

/-- The end of a number after the digits of its fraction. -/
def fractionEnd? (s : List Char) : Option (List Char) :=
  match s with
  | 'e' :: s => exponentEnd? s
  | 'E' :: s => exponentEnd? s
  | s => numberEnd? s

/-- The end of a number after its point. -/
def pointEnd? (s : List Char) : Option (List Char) :=
  match s with
  | c :: _ => if c.isDigit then (separatedDigits1 Char.isDigit s).bind fractionEnd? else fractionEnd? s
  | [] => some []

/-- The end of a number after its integer digits. -/
def integerEnd? (s : List Char) : Option (List Char) :=
  match s with
  | '.' :: s => pointEnd? s
  | 'n' :: s => numberEnd? s
  | s => fractionEnd? s

/-- The end of digits in another base, which may be those of a big integer. -/
def radixEnd? (isDigit : Char → Bool) (s : List Char) : Option (List Char) := do
  match ← separatedDigits1 isDigit s with
  | 'n' :: s => numberEnd? s
  | s => numberEnd? s

/-- The end of a number with a leading zero: octal, unless it has the digit 8 or 9. -/
def leadingZeroEnd? (s : List Char) : Option (List Char) :=
  let digits := s.takeWhile Char.isDigit
  let rest := s.drop digits.length
  if digits.all isOctal then numberEnd? rest
  else
    match rest with
    | '.' :: rest => pointEnd? rest
    | rest => fractionEnd? rest

/-- What follows a number at the start of a text. -/
def numberRest? (s : List Char) : Option (List Char) :=
  match s with
  | '0' :: s =>
    match s with
    | 'b' :: s => radixEnd? (fun c => c == '0' || c == '1') s
    | 'B' :: s => radixEnd? (fun c => c == '0' || c == '1') s
    | 'o' :: s => radixEnd? isOctal s
    | 'O' :: s => radixEnd? isOctal s
    | 'x' :: s => radixEnd? (fun c => (Json.hexValue? c).isSome) s
    | 'X' :: s => radixEnd? (fun c => (Json.hexValue? c).isSome) s
    | c :: _ => if c.isDigit then leadingZeroEnd? s else integerEnd? s
    | [] => some []
  | '.' :: s => pointEnd? s
  | s => (separatedDigits1 Char.isDigit s).bind integerEnd?

/-- The value of a string up to its closing quote. -/
def stringRest (quote : Char) : Nat → List Char → Option (List Unit16 × List Char)
  | 0, _ => none
  | fuel + 1, s =>
    match s with
    | [] => none
    | '\\' :: s => do
      let (units, s) ← escape? false s
      let (more, s) ← stringRest quote fuel s
      return (units ++ more, s)
    | c :: s =>
      if c = quote then some ([], s)
      else if c = '\n' || c = '\r' then none
      else do
        let (more, s) ← stringRest quote fuel s
        return (.char c :: more, s)

/-- A piece of a template up to the next substitution or the end: its value, unless an escape
spoils it, whether it is the last one, and what follows. -/
def templateRest : Nat → List Char → Option (Option (List Unit16) × Bool × List Char)
  | 0, _ => none
  | fuel + 1, s =>
    let andThen := fun (units : Option (List Unit16)) (s : List Char) => do
      let (more, last, s) ← templateRest fuel s
      return ((do return (← units) ++ (← more)), last, s)
    match s with
    | [] => none
    | '\x60' :: s => some (some [], true, s)
    | '$' :: '\x7b' :: s => some (some [], false, s)
    | '\\' :: s =>
      match escape? true s, s with
      | some (units, s), _ => andThen (some units) s
      | none, _ :: s => andThen none s
      | none, [] => none
    | '\r' :: '\n' :: s => andThen (some [.char '\n']) s
    | '\r' :: s => andThen (some [.char '\n']) s
    | c :: s => andThen (some [.char c]) s

/-- What follows the body of a regular expression; a slash in a class does not end it. -/
def regularExpressionBody (inClass : Bool) : List Char → Option (List Char)
  | [] => none
  | '\\' :: c :: s => if isLineBreak c then none else regularExpressionBody inClass s
  | c :: s =>
    if isLineBreak c then none
    else if c = '/' && !inClass then some s
    else if c = '[' then regularExpressionBody true s
    else if c = ']' then regularExpressionBody false s
    else regularExpressionBody inClass s

/-- Flags are known, occur once, and `u` excludes `v`. -/
def areFlags (flags : List Char) : Bool :=
  flags.all (['g', 'i', 'm', 's', 'u', 'y', 'd', 'v'].contains ·) && flags.Nodup &&
    !(flags.contains 'u' && flags.contains 'v')

/-- What follows a regular expression, after its opening slash. -/
def regularExpressionRest? (s : List Char) : Option (List Char) := do
  let s ← regularExpressionBody false s
  let flags := s.takeWhile fun c => c.isAlphanum || c == '$' || c == '_'
  if areFlags flags then return s.drop flags.length else none

/-- The longest mark at the start of a text, and its length. -/
def mark? : List Char → Option (Mark × Nat)
  | '\x7b' :: _ => some (.braceOpen, 1)
  | '\x7d' :: _ => some (.braceClose, 1)
  | '(' :: _ => some (.parenOpen, 1)
  | ')' :: _ => some (.parenClose, 1)
  | '[' :: _ => some (.bracketOpen, 1)
  | ']' :: _ => some (.bracketClose, 1)
  | ';' :: _ => some (.semicolon, 1)
  | ',' :: _ => some (.comma, 1)
  | '.' :: '.' :: '.' :: _ => some (.ellipsis, 3)
  | '.' :: _ => some (.dot, 1)
  | '?' :: '?' :: '=' :: _ => some (.assignWith .coalesce, 3)
  | '?' :: '?' :: _ => some (.operator .coalesce, 2)
  | '?' :: '.' :: s =>
    if s.head?.any Char.isDigit then some (.question, 1) else some (.questionDot, 2)
  | '?' :: _ => some (.question, 1)
  | ':' :: _ => some (.colon, 1)
  | '@' :: _ => some (.atSign, 1)
  | '~' :: _ => some (.bitNot, 1)
  | '=' :: '>' :: _ => some (.arrow, 2)
  | '=' :: '=' :: '=' :: _ => some (.operator .same, 3)
  | '=' :: '=' :: _ => some (.operator .equal, 2)
  | '=' :: _ => some (.assign, 1)
  | '!' :: '=' :: '=' :: _ => some (.operator .notSame, 3)
  | '!' :: '=' :: _ => some (.operator .notEqual, 2)
  | '!' :: _ => some (.not, 1)
  | '+' :: '+' :: _ => some (.increment, 2)
  | '+' :: '=' :: _ => some (.assignWith .plus, 2)
  | '+' :: _ => some (.operator .plus, 1)
  | '-' :: '-' :: _ => some (.decrement, 2)
  | '-' :: '=' :: _ => some (.assignWith .minus, 2)
  | '-' :: _ => some (.operator .minus, 1)
  | '*' :: '*' :: '=' :: _ => some (.assignWith .power, 3)
  | '*' :: '*' :: _ => some (.operator .power, 2)
  | '*' :: '=' :: _ => some (.assignWith .times, 2)
  | '*' :: _ => some (.operator .times, 1)
  | '/' :: '=' :: _ => some (.assignWith .divide, 2)
  | '/' :: _ => some (.operator .divide, 1)
  | '%' :: '=' :: _ => some (.assignWith .remainder, 2)
  | '%' :: _ => some (.operator .remainder, 1)
  | '<' :: '<' :: '=' :: _ => some (.assignWith .shiftLeft, 3)
  | '<' :: '<' :: _ => some (.operator .shiftLeft, 2)
  | '<' :: '=' :: _ => some (.operator .lessEqual, 2)
  | '<' :: _ => some (.operator .less, 1)
  | '>' :: '>' :: '>' :: '=' :: _ => some (.assignWith .shiftRightZero, 4)
  | '>' :: '>' :: '>' :: _ => some (.operator .shiftRightZero, 3)
  | '>' :: '>' :: '=' :: _ => some (.assignWith .shiftRight, 3)
  | '>' :: '>' :: _ => some (.operator .shiftRight, 2)
  | '>' :: '=' :: _ => some (.operator .greaterEqual, 2)
  | '>' :: _ => some (.operator .greater, 1)
  | '&' :: '&' :: '=' :: _ => some (.assignWith .and, 3)
  | '&' :: '&' :: _ => some (.operator .and, 2)
  | '&' :: '=' :: _ => some (.assignWith .bitAnd, 2)
  | '&' :: _ => some (.operator .bitAnd, 1)
  | '|' :: '|' :: '=' :: _ => some (.assignWith .or, 3)
  | '|' :: '|' :: _ => some (.operator .or, 2)
  | '|' :: '=' :: _ => some (.assignWith .bitOr, 2)
  | '|' :: _ => some (.operator .bitOr, 1)
  | '^' :: '=' :: _ => some (.assignWith .bitXor, 2)
  | '^' :: _ => some (.operator .bitXor, 1)
  | _ => none

def unitsText? (units : Option (List Unit16)) : Option String :=
  units.map unitsText

/-- The kind of the token at the start of a text, and the text after it. -/
def kind? (s : List Char) : Option (TokenKind × List Char) :=
  match s with
  | [] => some (.ending, [])
  | '"' :: rest => do
    let (units, rest) ← stringRest '"' (s.length + 1) rest
    return (.text (unitsText units), rest)
  | '\'' :: rest => do
    let (units, rest) ← stringRest '\'' (s.length + 1) rest
    return (.text (unitsText units), rest)
  | '\x60' :: rest => do
    let (units, last, rest) ← templateRest (s.length + 1) rest
    return (.template (unitsText? units) last, rest)
  | '#' :: rest => do
    let (name, _, rest) ← word? rest
    return (.privateName (String.ofList name), rest)
  | c :: next =>
    if c.isDigit || (c = '.' && next.head?.any Char.isDigit) then do
      let rest ← numberRest? s
      return (.number, rest)
    else
      match mark? s with
      | some (m, length) => some (.mark m, s.drop length)
      | none => do
        let (name, escaped, rest) ← word? s
        return (.word (Keyword.ofChars? name) (String.ofList name) escaped, rest)

/-- The number of bytes between a text and a later end of it. -/
def bytesBetween (s rest : List Char) : Nat :=
  byteLength (s.take (s.length - rest.length))

end FlatBundle.Script
