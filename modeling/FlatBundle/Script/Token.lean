import FlatBundle.Text.Identifier
import FlatBundle.Text.Position

/-!
The words and marks of the script language.
-/

namespace FlatBundle.Script

/-- Byte offsets of a part of a source text, the end exclusive. -/
structure Span where
  start : Nat
  stop : Nat
deriving DecidableEq, Repr, Inhabited

/-- The words that have a meaning of their own somewhere. -/
inductive Keyword
  | breakWord | caseWord | catchWord | classWord
  | constWord | continueWord | debuggerWord | defaultWord
  | deleteWord | doWord | elseWord | enumWord
  | exportWord | extendsWord | falseWord | finallyWord
  | forWord | functionWord | ifWord | importWord
  | inWord | instanceofWord | newWord | nullWord
  | returnWord | superWord | switchWord | thisWord
  | throwWord | trueWord | tryWord | typeofWord
  | varWord | voidWord | whileWord | withWord
  | letWord | staticWord | implementsWord | interfaceWord
  | packageWord | privateWord | protectedWord | publicWord
  | awaitWord | yieldWord | asyncWord | ofWord
  | getWord | setWord | accessorWord | asWord
  | fromWord | metaWord | targetWord | usingWord
  | constructorWord | deferWord | sourceWord
deriving DecidableEq, Repr

namespace Keyword

def spellings : List (List Char × Keyword) := [
  (['b', 'r', 'e', 'a', 'k'], breakWord), (['c', 'a', 's', 'e'], caseWord),
  (['c', 'a', 't', 'c', 'h'], catchWord), (['c', 'l', 'a', 's', 's'], classWord),
  (['c', 'o', 'n', 's', 't'], constWord),
  (['c', 'o', 'n', 't', 'i', 'n', 'u', 'e'], continueWord),
  (['d', 'e', 'b', 'u', 'g', 'g', 'e', 'r'], debuggerWord),
  (['d', 'e', 'f', 'a', 'u', 'l', 't'], defaultWord),
  (['d', 'e', 'l', 'e', 't', 'e'], deleteWord), (['d', 'o'], doWord),
  (['e', 'l', 's', 'e'], elseWord), (['e', 'n', 'u', 'm'], enumWord),
  (['e', 'x', 'p', 'o', 'r', 't'], exportWord),
  (['e', 'x', 't', 'e', 'n', 'd', 's'], extendsWord), (['f', 'a', 'l', 's', 'e'], falseWord),
  (['f', 'i', 'n', 'a', 'l', 'l', 'y'], finallyWord), (['f', 'o', 'r'], forWord),
  (['f', 'u', 'n', 'c', 't', 'i', 'o', 'n'], functionWord), (['i', 'f'], ifWord),
  (['i', 'm', 'p', 'o', 'r', 't'], importWord), (['i', 'n'], inWord),
  (['i', 'n', 's', 't', 'a', 'n', 'c', 'e', 'o', 'f'], instanceofWord),
  (['n', 'e', 'w'], newWord), (['n', 'u', 'l', 'l'], nullWord),
  (['r', 'e', 't', 'u', 'r', 'n'], returnWord), (['s', 'u', 'p', 'e', 'r'], superWord),
  (['s', 'w', 'i', 't', 'c', 'h'], switchWord), (['t', 'h', 'i', 's'], thisWord),
  (['t', 'h', 'r', 'o', 'w'], throwWord), (['t', 'r', 'u', 'e'], trueWord),
  (['t', 'r', 'y'], tryWord), (['t', 'y', 'p', 'e', 'o', 'f'], typeofWord),
  (['v', 'a', 'r'], varWord), (['v', 'o', 'i', 'd'], voidWord),
  (['w', 'h', 'i', 'l', 'e'], whileWord), (['w', 'i', 't', 'h'], withWord),
  (['l', 'e', 't'], letWord), (['s', 't', 'a', 't', 'i', 'c'], staticWord),
  (['i', 'm', 'p', 'l', 'e', 'm', 'e', 'n', 't', 's'], implementsWord),
  (['i', 'n', 't', 'e', 'r', 'f', 'a', 'c', 'e'], interfaceWord),
  (['p', 'a', 'c', 'k', 'a', 'g', 'e'], packageWord),
  (['p', 'r', 'i', 'v', 'a', 't', 'e'], privateWord),
  (['p', 'r', 'o', 't', 'e', 'c', 't', 'e', 'd'], protectedWord),
  (['p', 'u', 'b', 'l', 'i', 'c'], publicWord), (['a', 'w', 'a', 'i', 't'], awaitWord),
  (['y', 'i', 'e', 'l', 'd'], yieldWord), (['a', 's', 'y', 'n', 'c'], asyncWord),
  (['o', 'f'], ofWord), (['g', 'e', 't'], getWord), (['s', 'e', 't'], setWord),
  (['a', 'c', 'c', 'e', 's', 's', 'o', 'r'], accessorWord), (['a', 's'], asWord),
  (['f', 'r', 'o', 'm'], fromWord), (['m', 'e', 't', 'a'], metaWord),
  (['t', 'a', 'r', 'g', 'e', 't'], targetWord), (['u', 's', 'i', 'n', 'g'], usingWord),
  (['c', 'o', 'n', 's', 't', 'r', 'u', 'c', 't', 'o', 'r'], constructorWord),
  (['d', 'e', 'f', 'e', 'r'], deferWord), (['s', 'o', 'u', 'r', 'c', 'e'], sourceWord)]

/-- The keyword that a word spells. -/
def ofChars? (s : List Char) : Option Keyword :=
  spellings.lookup s

/-- Words that are never identifiers. -/
def isReserved : Keyword → Bool
  | .breakWord | .caseWord | .catchWord | .classWord
  | .constWord | .continueWord | .debuggerWord | .defaultWord
  | .deleteWord | .doWord | .elseWord | .enumWord
  | .exportWord | .extendsWord | .falseWord | .finallyWord
  | .forWord | .functionWord | .ifWord | .importWord
  | .inWord | .instanceofWord | .newWord | .nullWord
  | .returnWord | .superWord | .switchWord | .thisWord
  | .throwWord | .trueWord | .tryWord | .typeofWord
  | .varWord | .voidWord | .whileWord | .withWord => true
  | _ => false

end Keyword

/-- Operators that stand between two operands. -/
inductive BinaryOp
  | coalesce | or | and | bitOr | bitXor | bitAnd
  | equal | notEqual | same | notSame
  | less | greater | lessEqual | greaterEqual | instanceOf | isIn
  | shiftLeft | shiftRight | shiftRightZero
  | plus | minus | times | divide | remainder | power
deriving DecidableEq, Repr

namespace BinaryOp

/-- Binding strength; equal operators group to the left, except powers. -/
def strength : BinaryOp → Nat
  | coalesce => 1
  | or => 2
  | and => 3
  | bitOr => 4
  | bitXor => 5
  | bitAnd => 6
  | equal | notEqual | same | notSame => 7
  | less | greater | lessEqual | greaterEqual | instanceOf | isIn => 8
  | shiftLeft | shiftRight | shiftRightZero => 9
  | plus | minus => 10
  | times | divide | remainder => 11
  | power => 12

end BinaryOp

/-- Everything that is written with marks rather than letters. -/
inductive Mark
  | braceOpen | braceClose | parenOpen | parenClose | bracketOpen | bracketClose
  | semicolon | comma | dot | ellipsis | question | questionDot | colon | arrow | atSign
  | increment | decrement | not | bitNot
  | operator (op : BinaryOp)
  | assign
  /-- An operator followed by `=`. -/
  | assignWith (op : BinaryOp)
deriving DecidableEq, Repr

inductive TokenKind
  /-- `escaped` says that the word is spelled with an escape. -/
  | word (keyword : Option Keyword) (name : String) (escaped : Bool)
  | privateName (name : String)
  | mark (m : Mark)
  | number
  | text (value : String)
  /-- A piece of a template with its value, unless an escape spoils it; `last` says that the
  template ends here. -/
  | template (value : Option String) (last : Bool)
  | regularExpression
  | ending
deriving DecidableEq, Repr

structure Token where
  kind : TokenKind
  span : Span
  /-- Whether a line break stands before it. -/
  onNewLine : Bool
deriving DecidableEq, Repr

end FlatBundle.Script
