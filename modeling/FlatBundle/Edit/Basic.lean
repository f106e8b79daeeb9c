import FlatBundle.Text.Position

/-!
Replacements of spans of a text, given by byte offsets. An edit inside another one is dropped, the
last of several edits of one span wins, and edits must not overlap otherwise.
-/

namespace FlatBundle

structure Edit where
  start : Nat
  stop : Nat
  text : String
deriving DecidableEq, Repr

inductive EditError
  | outside (start stop size : Nat)
  | overlap (start stop otherStart otherStop : Nat)
deriving DecidableEq, Repr

def EditError.message : EditError → String
  | outside start stop size =>
    "Edit " ++ toString start ++ ".." ++ toString stop ++
      " is outside of the source text (" ++ toString size ++ " bytes)"
  | overlap start stop otherStart otherStop =>
    "Edit " ++ toString start ++ ".." ++ toString stop ++ " partially overlaps edit " ++
      toString otherStart ++ ".." ++ toString otherStop

/-- Earlier starts first, and of one start the longer edit. -/
def Edit.le (a b : Edit) : Bool :=
  a.start < b.start || (a.start == b.start && b.stop ≤ a.stop)

/-- Edits of one source, and text to put before and after it. -/
structure EditList where
  edits : List Edit := []
  intro : String := ""
  outro : String := ""
deriving Repr

namespace EditList

def replace (e : EditList) (start stop : Nat) (text : String) : EditList :=
  { e with edits := e.edits ++ [⟨start, stop, text⟩] }

def remove (e : EditList) (start stop : Nat) : EditList :=
  e.replace start stop ""

/-- Goes before everything put in front so far. -/
def prepend (e : EditList) (text : String) : EditList :=
  { e with intro := text ++ e.intro }

def append (e : EditList) (text : String) : EditList :=
  { e with outro := e.outro ++ text }

end EditList

/-- Whether an edit lies in a text, between characters. -/
def Edit.fits (source : List Char) (e : Edit) : Bool :=
  e.start ≤ e.stop && isBoundary source e.start && isBoundary source e.stop

/-- Sorted edits reduced to those that take effect; `last` is the latest of them so far. -/
def reduceEdits (source : List Char) : Option Edit → List Edit → Except EditError (List Edit)
  | last, [] => .ok last.toList
  | last, e :: rest =>
    if !e.fits source then .error (.outside e.start e.stop (byteLength source))
    else
      match last with
      | none => reduceEdits source (some e) rest
      | some last =>
        if last.start = e.start && last.stop = e.stop then reduceEdits source (some e) rest
        else if e.start < last.stop then
          if e.stop ≤ last.stop then reduceEdits source (some last) rest
          else .error (.overlap e.start e.stop last.start last.stop)
        else (reduceEdits source (some e) rest).map (last :: ·)

/-- The edits that take effect, in order. -/
def resolveEdits (source : List Char) (edits : List Edit) : Except EditError (List Edit) :=
  reduceEdits source none (edits.mergeSort Edit.le)

end FlatBundle
