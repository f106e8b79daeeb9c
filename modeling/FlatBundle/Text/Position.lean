/-!
Places in a text: byte offsets, and the line and UTF-16 column that source maps count in.
-/

namespace FlatBundle

/-- The UTF-8 length of a text. -/
def byteLength (s : List Char) : Nat :=
  s.foldr (·.utf8Size + ·) 0

/-- Cuts a text at a byte offset; `none` unless the offset lies between two characters. -/
def splitAtByte : List Char → Nat → Option (List Char × List Char)
  | s, 0 => some ([], s)
  | [], _ + 1 => none
  | c :: s, n + 1 =>
    if c.utf8Size ≤ n + 1 then
      (splitAtByte s (n + 1 - c.utf8Size)).map fun (before, after) => (c :: before, after)
    else none

def isBoundary (s : List Char) (offset : Nat) : Bool :=
  (splitAtByte s offset).isSome

/-- The text between two byte offsets. -/
def sliceBytes (s : List Char) (start stop : Nat) : Option (List Char) := do
  let (_, after) ← splitAtByte s start
  let (slice, _) ← splitAtByte after (stop - start)
  return slice

/-- UTF-16 code units of one character. -/
def units16 (c : Char) : Nat :=
  if c.toNat < 0x10000 then 1 else 2

/-- UTF-16 code units of a text, which are as many as its bytes if it is ASCII. -/
def utf16Length (s : List Char) : Nat :=
  if s.all (·.toNat < 0x80) then byteLength s else s.foldr (units16 · + ·) 0

/-- Number of line breaks, which is the index of the last line. -/
def lineCount (s : List Char) : Nat :=
  s.count '\n'

/-- What follows the last line break, or everything if there is none. -/
def lastLine (s : List Char) : List Char :=
  (s.reverse.takeWhile (· ≠ '\n')).reverse

/-- Zero-based line and UTF-16 column. -/
structure Position where
  line : Nat := 0
  column : Nat := 0
deriving DecidableEq, Repr, Inhabited

namespace Position

/-- The place after one more character. -/
def advance (p : Position) (c : Char) : Position :=
  if c = '\n' then ⟨p.line + 1, 0⟩ else ⟨p.line, p.column + units16 c⟩

/-- The place after some more text. -/
def advanceBy (p : Position) (s : List Char) : Position :=
  if '\n' ∈ s then ⟨p.line + lineCount s, utf16Length (lastLine s)⟩
  else ⟨p.line, p.column + utf16Length s⟩

/-- Reading order. -/
def le (p q : Position) : Bool :=
  p.line < q.line || (p.line == q.line && p.column ≤ q.column)

end Position

/-- The byte offsets at which the lines after the first one start. -/
def lineStarts (offset : Nat) : List Char → List Nat
  | [] => []
  | c :: s =>
    let next := offset + c.utf8Size
    if c = '\n' then next :: lineStarts next s else lineStarts next s

/-- How many numbers pass a test, where those that pass it all come first: a binary search. Each
round at least halves the range that is left, so that as many rounds as numbers are enough. -/
def partitionPoint (test : Nat → Bool) (xs : Array Nat) : Nat :=
  search xs.size 0 xs.size
where
  search : Nat → Nat → Nat → Nat
    | 0, low, _ => low
    | rounds + 1, low, high =>
      if low < high then
        let middle := low + (high - low) / 2
        if test xs[middle]! then search rounds (middle + 1) high else search rounds low middle
      else low

/-- The position of a byte offset. Offsets past the end count as the end, and an offset inside a
character has column 0. -/
def positionAt (s : List Char) (offset : Nat) : Position :=
  let starts := (0 :: lineStarts 0 s).toArray
  let line := partitionPoint (· ≤ offset) starts - 1
  let column :=
    match sliceBytes s starts[line]! (min offset (byteLength s)) with
    | some text => utf16Length text
    | none => 0
  ⟨line, column⟩

end FlatBundle
