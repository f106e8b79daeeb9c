/-!
Pieces of a text and texts inside a text.
-/

namespace FlatBundle.Text

/-- The pieces of a text between the occurrences of a character, empty pieces included. -/
def pieces (mark : Char) : List Char → List (List Char)
  | [] => [[]]
  | c :: s =>
    if c = mark then [] :: pieces mark s
    else
      match pieces mark s with
      | [] => [[c]]
      | first :: rest => (c :: first) :: rest

/-- Whether a text occurs in another one. -/
def occursIn (part : List Char) : List Char → Bool
  | [] => part.isEmpty
  | c :: s => part.isPrefixOf (c :: s) || occursIn part s

end FlatBundle.Text
