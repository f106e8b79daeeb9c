import FlatBundle.Proofs.Link.Walk
import FlatBundle.Proofs.Record.Table

/-!
The search for cycles as a recursion of its own, which keeps no account of the modules that are fresh.
It ends for every table: a chain passes no module twice.
-/

namespace FlatBundle.Cycles

variable {deps : Nat → List Nat} {fresh chain ds : List Nat} {i size : Nat} {c c' : Cycles}

/-- A chain from one of its modules on. -/
def onwardFrom (chain : List Nat) (i : Nat) : List Nat :=
  chain.dropWhile (· ≠ i)

/-- A chain is followed on to some modules in turn, from the cycles found before to those found in the
end. A module of the chain closes it, one that a chain has come back to is passed by, and from any
other one the longer chain is followed on to all its dependencies first. -/
inductive Follows (deps : Nat → List Nat) : List Nat → List Nat → Cycles → Cycles → Prop
  | done {chain : List Nat} {c : Cycles} : Follows deps chain [] c c
  | close {chain ds : List Nat} {i : Nat} {c c' : Cycles} (hi : i ∈ chain)
    (h : Follows deps chain ds (c.close i (onwardFrom chain i)) c') :
    Follows deps chain (i :: ds) c c'
  | pass {chain ds : List Nat} {i : Nat} {c c' : Cycles} (hi : i ∉ chain) (hh : i ∈ c.heads)
    (h : Follows deps chain ds c c') : Follows deps chain (i :: ds) c c'
  | enter {chain ds : List Nat} {i : Nat} {c c' c'' : Cycles} (hi : i ∉ chain) (hh : i ∉ c.heads)
    (hin : Follows deps (chain ++ [i]) (deps i) c c') (h : Follows deps chain ds c' c'') :
    Follows deps chain (i :: ds) c c''

theorem Follows.unique {c'' : Cycles} (h : Follows deps chain ds c c')
    (h' : Follows deps chain ds c c'') : c'' = c' := by
  induction h generalizing c'' with
  | done =>
    cases h'
    rfl
  | close hi _ ih =>
    cases h' with
    | close _ h' => exact ih h'
    | pass hni _ _ => exact absurd hi hni
    | enter hni _ _ _ => exact absurd hi hni
  | pass hni hh _ ih =>
    cases h' with
    | close hi _ => exact absurd hi hni
    | pass _ _ h' => exact ih h'
    | enter _ hnh _ _ => exact absurd hh hnh
  | enter hni hnh _ _ ihin ih =>
    cases h' with
    | close hi _ => exact absurd hi hni
    | pass _ hh _ => exact absurd hh hnh
    | enter _ _ hin' h' =>
      obtain rfl := ihin hin'
      exact ih h'

/-- What holds of the steps along a list of modules one by one holds of them together. -/
theorem follows_followAll_of
    (step : ∀ c, ∀ d ∈ ds, ∀ ds c', Follows deps chain ds (follow deps fresh chain d c) c' →
      Follows deps chain (d :: ds) c c') :
    Follows deps chain ds c (followAll deps fresh chain ds c) := by
  induction ds generalizing c with
  | nil => exact .done
  | cons d ds ih =>
    exact step c d List.mem_cons_self ds _ (ih fun c e he => step c e (List.mem_cons_of_mem d he))

/-- A step that keeps account of the fresh modules is one of the recursion: as long as the chain and
the fresh modules are all there are, it never comes to a module that is neither. -/
theorem Follows.of_follow (hw : Within size deps) (hcov : Covers size fresh chain) (hi : i < size)
    (h : Follows deps chain ds (follow deps fresh chain i c) c') : Follows deps chain (i :: ds) c c' := by
  refine follow_induction
    (motive := fun fresh chain i c m => Covers size fresh chain → i < size →
      ∀ ds c', Follows deps chain ds m c' → Follows deps chain (i :: ds) c c')
    ?_ ?_ ?_ ?_ fresh chain i c hcov hi ds c' h
  · exact fun _ _ _ _ hi _ _ _ _ h => .close hi h
  · exact fun _ _ _ _ hi hh _ _ _ _ h => .pass hi hh h
  · intro fresh chain i c hi hh _ ih hcov _ ds c' h
    refine .enter hi hh (follows_followAll_of fun c d hd ds c' hrest => ?_) h
    exact ih c d (hcov.enter i) (hw i d hd) ds c' hrest
  · intro fresh chain i c hi _ hf hcov hsize
    exact absurd (hcov i hsize) (by simp [hi, hf])

theorem follows_find (hw : Within size deps) :
    Follows deps [] (List.range size) {} (find size deps) :=
  follows_followAll_of fun _ _ hd _ _ h =>
    h.of_follow hw (fun _ hi => .inr (List.mem_range.mpr hi)) (List.mem_range.mp hd)

/-- The recursion from the empty chain to all modules ends with the cycles of the table. -/
theorem follows_iff {t : Table} :
    Follows t.internalDeps [] (List.range t.size) {} c ↔ c = t.cycles := by
  constructor
  · exact (follows_find t.within_internalDeps).unique
  · rintro rfl
    exact follows_find t.within_internalDeps

/-- What every closing keeps holds of the cycles in the end. -/
theorem Follows.preserves {P : Cycles → Prop} (h : Follows deps chain ds c c')
    (step : ∀ {chain i c}, i ∈ chain → P c → P (c.close i (onwardFrom chain i))) (hc : P c) : P c' := by
  induction h with
  | done => exact hc
  | close hi _ ih => exact ih (step hi hc)
  | pass _ _ _ ih => exact ih hc
  | enter _ _ _ _ ihin ih => exact ih (ihin hc)

theorem exists_onwardFrom (h : i ∈ chain) : ∃ rest, onwardFrom chain i = i :: rest :=
  exists_dropWhile_ne h

theorem onwardFrom_suffix : onwardFrom chain i <:+ chain :=
  List.dropWhile_suffix _

end FlatBundle.Cycles
