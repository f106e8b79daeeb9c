import FlatBundle.SourceMap.Text
import FlatBundle.Text.Blank

/-!
Comments that carry a source map in themselves.
-/

namespace FlatBundle.SourceMap

def commentStart : List Char :=
  "//# sourceMappingURL=".toList

def olderCommentStart : List Char :=
  "//@ sourceMappingURL=".toList

def dataStart : List Char :=
  "data:".toList

def payloadMark : List Char :=
  ";base64,".toList

/-- The text after `start`, if it starts so. -/
def dropStart? (start s : List Char) : Option (List Char) :=
  if start.isPrefixOf s then some (s.drop start.length) else none

/-- The text after the first occurrence of `mark`. -/
def afterFirst? (mark : List Char) : List Char → Option (List Char)
  | [] => if mark.isEmpty then some [] else none
  | c :: s =>
    match dropStart? mark (c :: s) with
    | some rest => some rest
    | none => afterFirst? mark s

/-- The text of some UTF-8 bytes. -/
def textOfBytes? (bytes : List UInt8) : Option String :=
  String.fromUTF8? ⟨bytes.toArray⟩

/-- The map inside a comment. -/
def ofComment? (comment : List Char) : Option SourceMap := do
  let url ← dropStart? commentStart comment <|> dropStart? olderCommentStart comment
  let data ← dropStart? dataStart (trim url)
  let payload ← afterFirst? payloadMark data
  let json ← textOfBytes? (← Base64.decode payload)
  ofText? json.toList

def payload (json : String) : String :=
  String.ofList (Base64.encode json.toUTF8.toList)

/-- The comment that carries a map. -/
def comment (m : SourceMap) : String :=
  "//# sourceMappingURL=data:application/json;charset=utf-8;base64," ++ payload m.toText

end FlatBundle.SourceMap
