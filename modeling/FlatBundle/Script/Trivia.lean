import FlatBundle.Script.Token

/-!
What stands between tokens: white space, line breaks and comments.
-/

namespace FlatBundle.Script

def isLineBreak (c : Char) : Bool :=
  c == '\n' || c == '\r' || c.toNat == 0x2028 || c.toNat == 0x2029

def isWhiteSpace (c : Char) : Bool :=
  let n := c.toNat
  n == 9 || n == 11 || n == 12 || n == 0x20 || n == 0x85 || n == 0xA0 || n == 0x1680 ||
    n == 0x180E || (0x2000 ≤ n && n ≤ 0x200B) || n == 0x202F || n == 0x205F || n == 0x3000 ||
    n == 0xFEFF

/-- A text being read: what is left of it, and the byte offset reached. -/
structure Cursor where
  rest : List Char
  offset : Nat
deriving Repr

namespace Cursor

def skip (c : Cursor) (n : Nat) : Cursor :=
  ⟨c.rest.drop n, c.offset + byteLength (c.rest.take n)⟩

/-- Goes past the longest run of characters in a class. -/
def skipWhile (c : Cursor) (p : Char → Bool) : Cursor :=
  ⟨c.rest.dropWhile p, c.offset + byteLength (c.rest.takeWhile p)⟩

end Cursor

/-- The end of a block comment, and whether it holds a line break; `none` if it never ends. -/
def blockCommentEnd : List Char → Nat → Bool → Option (Cursor × Bool)
  | [], _, _ => none
  | '*' :: '/' :: s, offset, broken => some (⟨s, offset + 2⟩, broken)
  | c :: s, offset, broken => blockCommentEnd s (offset + c.utf8Size) (broken || isLineBreak c)

/-- The gap before a token. -/
structure Gap where
  after : Cursor
  onNewLine : Bool
  /-- Comments that end with their line, the last one first. -/
  lineComments : List Span

/-- Reads up to the next token. `fuel` bounds the number of pieces of the gap. -/
def skipGap : Nat → Cursor → Bool → List Span → Option Gap
  | 0, _, _, _ => none
  | fuel + 1, c, onNewLine, comments =>
    let lineComment := fun (_ : Unit) =>
      let after := c.skipWhile (!isLineBreak ·)
      skipGap fuel after onNewLine (⟨c.offset, after.offset⟩ :: comments)
    match c.rest with
    | '/' :: '/' :: _ => lineComment ()
    | '/' :: '*' :: s =>
      match blockCommentEnd s (c.offset + 2) false with
      | none => none
      | some (after, broken) => skipGap fuel after (onNewLine || broken) comments
    | '<' :: '!' :: '-' :: '-' :: _ => lineComment ()
    | '-' :: '-' :: '>' :: _ =>
      if onNewLine then lineComment () else some ⟨c, onNewLine, comments⟩
    | ch :: _ =>
      if isLineBreak ch then skipGap fuel (c.skip 1) true comments
      else if isWhiteSpace ch then skipGap fuel (c.skipWhile isWhiteSpace) onNewLine comments
      else some ⟨c, onNewLine, comments⟩
    | [] => some ⟨c, onNewLine, comments⟩

/-- The gap before the next token after `c`; `onNewLine` says that `c` itself starts a line. -/
def gap (c : Cursor) (onNewLine : Bool) : Option Gap :=
  skipGap (c.rest.length + 1) c onNewLine []

end FlatBundle.Script
