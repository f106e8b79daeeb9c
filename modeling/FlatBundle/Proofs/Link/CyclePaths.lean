import FlatBundle.Link.Linked
import FlatBundle.Proofs.Link.Cycles
import FlatBundle.Proofs.Link.Search
import Mathlib.Data.List.Chain

/-!
The paths that the search reports: closed walks, with all members on them, and one in each circular
part of the graph.
-/

namespace FlatBundle

variable {deps : Nat → List Nat} {blocked : Nat → Prop} {path chain ds : List Nat} {i j size : Nat}

/-- From a module over dependencies back to it, past no module twice. -/
def ClosedWalk (deps : Nat → List Nat) (path : List Nat) : Prop :=
  ∃ head rest, path = head :: rest ++ [head] ∧ (head :: rest).Nodup ∧ path.IsChain (DependsOn deps)

/-- The modules that lead to a module and back from it, and itself: its strongly connected
component. -/
def Connected (deps : Nat → List Nat) (i j : Nat) : Prop :=
  j = i ∨ Leads deps i j ∧ Leads deps j i

theorem ClosedWalk.leads (h : ClosedWalk deps path) (hi : i ∈ path) (hj : j ∈ path) :
    Leads deps i j := by
  obtain ⟨head, rest, rfl, -, hchain⟩ := h
  have hpairs : (head :: rest ++ [head]).Pairwise (Relation.TransGen (DependsOn deps)) :=
    List.isChain_iff_pairwise.mp (hchain.imp fun _ _ => .single)
  have hto : Leads deps i head := by
    rcases List.mem_append.mp hi with hi | hi
    · exact (List.pairwise_append.mp hpairs).2.2 i hi head (List.mem_singleton_self head)
    · obtain rfl := List.mem_singleton.mp hi
      exact (List.pairwise_cons.mp hpairs).1 i (by simp)
  have hfrom : Leads deps head j := by
    rcases List.mem_cons.mp hj with rfl | hj
    · exact (List.pairwise_cons.mp hpairs).1 j (by simp)
    · exact (List.pairwise_cons.mp hpairs).1 j hj
  exact hto.trans hfrom

theorem ClosedWalk.onCycle (h : ClosedWalk deps path) (hi : i ∈ path) : OnCycle deps i :=
  h.leads hi hi

theorem ClosedWalk.exists_mem (h : ClosedWalk deps path) : ∃ i, i ∈ path := by
  obtain ⟨head, rest, rfl, -⟩ := h
  exact ⟨head, List.mem_cons_self⟩

/-- A chain between connected modules stays clear of what is not connected with them. -/
theorem Leads.leadsClear_of_connected (hfree : ∀ k, Leads deps i k → Leads deps k i → ¬blocked k)
    (h : Leads deps i j) (hback : Leads deps j i) : LeadsClear deps blocked i j := by
  induction h with
  | single hd => exact .single ⟨hd, hfree _ (.single hd) hback⟩
  | tail hk hd ih => exact (ih (.head hd hback)).tail ⟨hd, hfree _ (hk.tail hd) hback⟩

theorem OnCycle.returnsTo (hfree : ∀ k, Leads deps i k → Leads deps k i → ¬blocked k)
    (h : OnCycle deps i) : ReturnsTo deps blocked i [i] := by
  rcases Relation.TransGen.tail'_iff.mp h with ⟨j, hj, hd⟩
  refine ⟨j, ?_, i, List.mem_singleton_self i, hd⟩
  rcases Relation.reflTransGen_iff_eq_or_transGen.mp hj with rfl | hj
  · exact .refl
  · exact Leads.leadsClear_of_connected hfree hj (.single hd)

namespace Cycles

variable {c c' : Cycles}

theorem Follows.closedWalk (h : Follows deps chain ds c c') (hn : chain.Nodup)
    (hchain : ∀ d ∈ ds, (chain ++ [d]).IsChain (DependsOn deps)) (hpath : path ∈ c'.paths) :
    path ∈ c.paths ∨ ClosedWalk deps path := by
  induction h with
  | done => exact .inl hpath
  | @close chain ds i c c' hi _ ih =>
    obtain ⟨hclosed, hds⟩ := List.forall_mem_cons.mp hchain
    rcases ih hn hds hpath with hpath | hpath
    · rcases List.mem_append.mp hpath with hpath | hpath
      · exact .inl hpath
      · obtain rfl := List.mem_singleton.mp hpath
        obtain ⟨rest, hrest⟩ := exists_onwardFrom hi
        have hsuffix : onwardFrom chain i <:+ chain := onwardFrom_suffix
        refine .inr ⟨i, rest, by rw [hrest], hrest ▸ hn.sublist hsuffix.sublist, ?_⟩
        refine hclosed.suffix ?_
        obtain ⟨front, hfront⟩ := hsuffix
        exact ⟨front, by rw [← List.append_assoc, hfront]⟩
    · exact .inr hpath
  | @pass chain ds i c c' _ _ _ ih => exact ih hn (List.forall_mem_cons.mp hchain).2 hpath
  | @enter chain ds i c c' c'' hi _ _ _ ihin ih =>
    obtain ⟨hlonger, hds⟩ := List.forall_mem_cons.mp hchain
    rcases ih hn hds hpath with hpath | hpath
    · refine ihin (List.nodup_append.mpr ⟨hn, by simp, ?_⟩) (fun d hd => ?_) hpath
      · exact fun k hk m hm hkm => hi (List.mem_singleton.mp hm ▸ hkm ▸ hk)
      · refine List.isChain_append.mpr ⟨hlonger, List.isChain_singleton d, ?_⟩
        simpa [DependsOn] using hd
    · exact .inr hpath

/-- The members are the modules on the paths. -/
def OnPaths (c : Cycles) : Prop :=
  ∀ i, i ∈ c.members ↔ ∃ path ∈ c.paths, i ∈ path

theorem OnPaths.close (hi : i ∈ chain) (h : c.OnPaths) : (c.close i (onwardFrom chain i)).OnPaths := by
  intro j
  obtain ⟨rest, hrest⟩ := exists_onwardFrom hi
  rw [mem_members_close, h j]
  simp only [Cycles.close, hrest, List.mem_append, or_and_right, exists_or,
    exists_eq_left, List.mem_cons, List.cons_append]
  grind

theorem onPaths_find (hw : Within size deps) : (find size deps).OnPaths :=
  (follows_find hw).preserves OnPaths.close fun _ => by simp

theorem closedWalk_of_mem_paths (hw : Within size deps) (h : path ∈ (find size deps).paths) :
    ClosedWalk deps path :=
  ((follows_find hw).closedWalk List.nodup_nil (fun d _ => List.isChain_singleton d) h).resolve_left
    List.not_mem_nil

/-- In a component with a cycle some module is found: as long as none is, no chain has come back to
one, and nothing keeps a module on the cycle from being entered and returning to itself. -/
theorem exists_member_connected (hw : Within size deps) (h : OnCycle deps i) :
    ∃ j ∈ (find size deps).members, Leads deps i j ∧ Leads deps j i := by
  refine Classical.byContradiction fun hnone => ?_
  have hreturns : ReturnsTo deps (· ∈ (find size deps).heads) i [i] := h.returnsTo fun k hik hki hk =>
    hnone ⟨k, heads_subset_members_foundBefore hk, hik, hki⟩
  exact hnone ⟨i, mem_members_of_returnsTo hw hreturns, h, h⟩

theorem exists_path_connected_iff (hw : Within size deps) :
    (∃ path ∈ (find size deps).paths, ∀ j ∈ path, Connected deps i j) ↔ OnCycle deps i := by
  constructor
  · rintro ⟨path, hpath, hall⟩
    have hwalk := closedWalk_of_mem_paths hw hpath
    obtain ⟨j, hj⟩ := hwalk.exists_mem
    rcases hall j hj with rfl | ⟨hij, hji⟩
    · exact hwalk.onCycle hj
    · exact hij.trans hji
  · intro h
    obtain ⟨k, hk, hik, hki⟩ := exists_member_connected hw h
    obtain ⟨path, hpath, hmem⟩ := (onPaths_find hw k).mp hk
    have hwalk := closedWalk_of_mem_paths hw hpath
    exact ⟨path, hpath, fun j hj => .inr ⟨hik.trans (hwalk.leads hmem hj), (hwalk.leads hj hmem).trans hki⟩⟩

/-- The search ends, each path that it reports is a closed walk, the members are the modules on the
paths, and a component of the graph has a path in it just when it has a cycle. Each path is warned of,
and nothing else. -/
theorem paths_find (t : Table) (modules : List ModuleFacts) :
    (∀ c, Follows t.internalDeps [] (List.range t.size) {} c ↔ c = t.cycles) ∧
    (∀ path ∈ t.cycles.paths, ClosedWalk t.internalDeps path) ∧
    (∀ i, i ∈ t.cycles.members ↔ ∃ path ∈ t.cycles.paths, i ∈ path) ∧
    (∀ i, (∃ path ∈ t.cycles.paths, ∀ j ∈ path, Connected t.internalDeps i j) ↔
      OnCycle t.internalDeps i) ∧
    (Linked.ofModules t modules).warnings = t.cycles.paths.map t.cycleWarning := by
  refine ⟨fun c => follows_iff, fun path => closedWalk_of_mem_paths t.within_internalDeps, ?_, ?_, rfl⟩
  · exact onPaths_find t.within_internalDeps
  · exact fun i => exists_path_connected_iff t.within_internalDeps

/-- Two modules that depend on each other. -/
def mutualTable : Table := ⟨[
  { id := .number 1, source := "", deps := [("./b", some (.number 2))] },
  { id := .number 2, source := "", deps := [("./a", some (.number 1))] }]⟩

theorem paths_find_mutualTable :
    [0, 1, 0] ∈ mutualTable.cycles.paths ∧ ClosedWalk mutualTable.internalDeps [0, 1, 0] ∧
      1 ∈ mutualTable.cycles.members ∧ OnCycle mutualTable.internalDeps 1 := by
  obtain ⟨-, hwalk, hmembers, hcomponent, -⟩ := paths_find mutualTable []
  have hpath : [0, 1, 0] ∈ mutualTable.cycles.paths := by decide +kernel
  have hforth : Leads mutualTable.internalDeps 0 1 := .single (by unfold DependsOn; decide +kernel)
  have hback : Leads mutualTable.internalDeps 1 0 := .single (by unfold DependsOn; decide +kernel)
  refine ⟨hpath, hwalk _ hpath, (hmembers 1).mpr ⟨_, hpath, by decide⟩, ?_⟩
  refine (hcomponent 1).mp ⟨_, hpath, fun j hj => ?_⟩
  by_cases hj1 : j = 1
  · exact .inl hj1
  · obtain rfl : j = 0 := by simpa [hj1] using hj
    exact .inr ⟨hback, hforth⟩

end Cycles

end FlatBundle
