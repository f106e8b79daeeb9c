import FlatBundle.Record.Table

/-!
The order in which modules run: each one after those it depends on, unless these depend on it in
turn.
-/

namespace FlatBundle

/-- Entries come first, then modules with a wish for a place, then the others by id. -/
def Record.le (a b : Record) : Bool :=
  if a.entry != b.entry then a.entry
  else
    match a.order, b.order with
    | some x, some y => x.key < y.key || (x.key == y.key && a.id.le b.id)
    | some _, none => true
    | none, some _ => false
    | none, none => a.id.le b.id

/-- All modules, as `Record.le` orders them. -/
def Table.ranked (t : Table) : List Nat :=
  (List.range t.size).mergeSort fun i j => (t.get i).le (t.get j)

/-- The order in which a module's dependencies are visited: those it calls for come first, by the
place of the first call, and then the others; `rank` decides ties. -/
def depLe (place : Nat → Option Nat) (rank : Nat → Nat) (i j : Nat) : Bool :=
  match place i, place j with
  | some x, some y => x < y || (x == y && rank i ≤ rank j)
  | some _, none => true
  | none, some _ => false
  | none, none => rank i ≤ rank j

/-- A task of a depth-first walk. -/
inductive Visiting
  | enter (i : Nat)
  | leave (i : Nat)
deriving DecidableEq, Repr

/-- Carries out tasks and lists modules as they are left; `fresh` holds the modules that have not
been entered. -/
def postorder (deps : Nat → List Nat) : List Nat → List Visiting → List Nat
  | _, [] => []
  | fresh, .leave i :: tasks => i :: postorder deps fresh tasks
  | fresh, .enter i :: tasks =>
    if _h : i ∈ fresh then
      postorder deps (fresh.erase i) ((deps i).map .enter ++ .leave i :: tasks)
    else postorder deps fresh tasks
termination_by fresh tasks => (fresh.length, tasks.length)
decreasing_by
  · exact Prod.Lex.right _ (Nat.lt_succ_self _)
  · have := List.length_erase_of_mem _h
    have := List.length_pos_of_mem _h
    apply Prod.Lex.left
    omega
  · exact Prod.Lex.right _ (Nat.lt_succ_self _)

/-- The modules of a table in the order they run in; `place i j` is the place of the first call in
module `i` for module `j`. -/
def Table.sorted (t : Table) (place : Nat → Nat → Option Nat) : List Nat :=
  let ranked := t.ranked
  let deps := fun i => (t.internalDeps i).mergeSort (depLe (place i) ranked.idxOf)
  postorder deps (List.range t.size) (ranked.map .enter)

end FlatBundle
