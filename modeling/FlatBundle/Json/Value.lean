import FlatBundle.Text.Quoted

/-!
JSON values as far as a text holds them: a text that breaks off or goes wrong still gives the value
up to that point, and the members of an object keep their order and repetitions.
-/

namespace FlatBundle.Json

/-- How a text stops being JSON: by ending too early, or by going on wrongly. -/
inductive Failure
  | ended
  | unexpected
deriving DecidableEq, Repr

inductive Number
  | natural (n : Nat)
  | negative (n : Nat)
  /-- The bits of a double. -/
  | real (bits : UInt64)
deriving DecidableEq, Repr

inductive Value
  | null
  | bool (b : Bool)
  | number (n : Number)
  | text (s : String)
  /-- The items, and what cut the array short. -/
  | array (items : List Value) (cut : Option Failure)
  /-- The members, and what cut the object short. A key is missing where it cannot be read. -/
  | object (members : List (Option String × Value)) (cut : Option Failure)
  /-- A value whose end is found but which cannot be read: a number out of range, half a surrogate
  pair. -/
  | unreadable
  | broken (failure : Failure)
deriving Repr

mutual

/-- The first thing wrong inside a value, in reading order. -/
def Value.failure? : Value → Option Failure
  | .array items cut => itemsFailure? items <|> cut
  | .object members cut => membersFailure? members <|> cut
  | .unreadable => some .unexpected
  | .broken failure => some failure
  | _ => none

def itemsFailure? : List Value → Option Failure
  | [] => none
  | v :: rest => v.failure? <|> itemsFailure? rest

def membersFailure? : List (Option String × Value) → Option Failure
  | [] => none
  | (key, v) :: rest =>
    (if key.isNone then some .unexpected else v.failure?) <|> membersFailure? rest

end

mutual

/-- The first thing wrong inside a value that is passed over unread. -/
def Value.skipFailure? : Value → Option Failure
  | .array items cut => itemsSkipFailure? items <|> cut
  | .object members cut => membersSkipFailure? members <|> cut
  | .broken failure => some failure
  | _ => none

def itemsSkipFailure? : List Value → Option Failure
  | [] => none
  | v :: rest => v.skipFailure? <|> itemsSkipFailure? rest

def membersSkipFailure? : List (Option String × Value) → Option Failure
  | [] => none
  | (_, v) :: rest => v.skipFailure? <|> membersSkipFailure? rest

end

/-- The last value under a key. -/
def Value.field? (v : Value) (key : String) : Option Value :=
  match v with
  | .object members _ => (members.reverse.find? (·.1 == some key)).map (·.2)
  | _ => none

/-- Comma-separated texts in brackets. -/
def arrayText (items : List String) : String :=
  "[" ++ ",".intercalate items ++ "]"

/-- An object from keys and the texts of their values. -/
def objectText (members : List (String × String)) : String :=
  "\x7b" ++ ",".intercalate (members.map fun (key, v) => Text.quote key ++ ":" ++ v) ++ "\x7d"

end FlatBundle.Json
