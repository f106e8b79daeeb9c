import FlatBundle.Proofs.Link.CyclePaths
import FlatBundle.Proofs.Link.CycleWarning
import Mathlib.Data.List.Nodup

/-!
How often the search reports a path: once, unless a module on it lists the next one twice. Specifiers
that lead to one module make such lists.
-/

namespace FlatBundle

namespace Cycles

variable {deps : Nat → List Nat} {chain ds path : List Nat} {new new' : List (List Nat)}
  {d e i size : Nat} {c c' c'' : Cycles}

/-- On the path, no module lists the next one twice. -/
def SingleSteps (deps : Nat → List Nat) (path : List Nat) : Prop :=
  path.IsChain fun i j => (deps i).count j ≤ 1

/-- The path follows the chain from one of its modules and goes on to `d`. -/
def GoesOn (chain : List Nat) (d : Nat) (path : List Nat) : Prop :=
  ∃ head ∈ chain, onwardFrom chain head ++ [d] <+: path

/-- The last module before the end lists it no more often than the path is there. -/
def ListedAtMost (deps : Nat → List Nat) (paths : List (List Nat)) (path : List Nat) : Prop :=
  ∃ loop last head, path = loop ++ [last, head] ∧ (deps last).count head ≤ paths.count path

theorem head?_of_onwardFrom {head : Nat} (hmem : head ∈ chain)
    (h : onwardFrom chain head ++ [d] <+: path) : path.head? = some head := by
  obtain ⟨rest, hrest⟩ := exists_onwardFrom hmem
  obtain ⟨back, rfl⟩ := h
  rw [hrest]
  rfl

/-- A path that follows a chain leaves it once. -/
theorem GoesOn.unique (h : GoesOn chain d path) (h' : GoesOn chain e path) : e = d := by
  obtain ⟨head, hmem, hprefix⟩ := h
  obtain ⟨head', hmem', hprefix'⟩ := h'
  obtain rfl : head' = head := Option.some.inj
    ((head?_of_onwardFrom hmem' hprefix').symm.trans (head?_of_onwardFrom hmem hprefix))
  have hlength : (onwardFrom chain head' ++ [e]).length = (onwardFrom chain head' ++ [d]).length := by
    simp
  have heq := (List.prefix_of_prefix_length_le hprefix' hprefix (Nat.le_of_eq hlength)).eq_of_length
    hlength
  simpa using heq

theorem onwardFrom_append (h : i ∈ chain) (more : List Nat) :
    onwardFrom (chain ++ more) i = onwardFrom chain i ++ more := by
  obtain ⟨rest, hrest⟩ := exists_onwardFrom h
  rw [onwardFrom, List.dropWhile_append, ← onwardFrom, hrest]
  rfl

theorem onwardFrom_concat_self (h : i ∉ chain) : onwardFrom (chain ++ [i]) i = [i] := by
  have hpass : ∀ k ∈ chain, decide (k ≠ i) = true := fun k hk => by
    simpa using fun hki : k = i => h (hki ▸ hk)
  rw [onwardFrom, List.dropWhile_append_of_pos hpass]
  simp

/-- A part of a chain ends where the chain does. -/
theorem exists_onwardFrom_concat {head : Nat} (h : head ∈ chain ++ [i]) :
    ∃ front, onwardFrom (chain ++ [i]) head = front ++ [i] := by
  by_cases hmem : head ∈ chain
  · exact ⟨onwardFrom chain head, onwardFrom_append hmem [i]⟩
  · obtain rfl : head = i := by simpa [hmem] using h
    exact ⟨[], onwardFrom_concat_self hmem⟩

/-- Where a path starts that is reported as a chain is followed on to some modules: in the chain, and
then it goes on to one of them; or at a module that no chain had come back to before. -/
def Starts (chain ds : List Nat) (c c' : Cycles) (path : List Nat) : Prop :=
  ∃ head, path.head? = some head ∧ head ∈ c'.heads ∧
    (head ∈ chain ∧ (∃ d ∈ ds, onwardFrom chain head ++ [d] <+: path) ∨
      head ∉ chain ∧ head ∉ c.heads)

theorem Starts.mono {ds' : List Nat} {old late : Cycles} (h : Starts chain ds c c' path)
    (hds : ds ⊆ ds') (hold : old.heads ⊆ c.heads) (hlate : c'.heads ⊆ late.heads) :
    Starts chain ds' old late path := by
  obtain ⟨head, hhead, hmem, hstart⟩ := h
  refine ⟨head, hhead, hlate hmem, hstart.imp ?_ ?_⟩
  · rintro ⟨hin, d, hd, hprefix⟩
    exact ⟨hin, d, hds hd, hprefix⟩
  · rintro ⟨hout, hfresh⟩
    exact ⟨hout, fun hk => hfresh (hold hk)⟩

theorem ListedAtMost.mono (h : ListedAtMost deps new path) (hsub : new.Sublist new') :
    ListedAtMost deps new' path := by
  obtain ⟨loop, last, head, hpath, hle⟩ := h
  exact ⟨loop, last, head, hpath, Nat.le_trans hle (hsub.count_le path)⟩

/-- What is reported as a chain is followed on to some modules: a path of single steps once, if they
list what comes after the chain once, and a path at least as often as its last module lists the first
one. The chain's last module has not listed all its dependencies yet, so that the paths which it closes
itself stand apart. -/
structure Reports (deps : Nat → List Nat) (chain ds : List Nat) (c c' : Cycles)
    (new : List (List Nat)) : Prop where
  paths : c'.paths = c.paths ++ new
  heads : c.heads ⊆ c'.heads
  starts : ∀ path ∈ new, Starts chain ds c c' path
  once : ∀ path, SingleSteps deps path → (∀ d, GoesOn chain d path → ds.count d ≤ 1) →
    new.count path ≤ 1
  closing : ∀ head ∈ chain, ds.count head ≤ new.count (onwardFrom chain head ++ [head])
  listed : ∀ path ∈ new, (∃ head ∈ chain, head ∈ ds ∧ path = onwardFrom chain head ++ [head]) ∨
    ListedAtMost deps new path

namespace Reports

theorem nil : Reports deps chain [] c c [] where
  paths := (List.append_nil _).symm
  heads := List.Subset.refl _
  starts := nofun
  once := by simp
  closing := by simp
  listed := nofun

theorem pass (hi : i ∉ chain) : Reports deps chain [i] c c [] where
  paths := (List.append_nil _).symm
  heads := List.Subset.refl _
  starts := nofun
  once := by simp
  closing head hmem := by
    have hne : i ≠ head := fun h => hi (h ▸ hmem)
    simp [hne]
  listed := nofun

theorem close (hi : i ∈ chain) : Reports deps chain [i] c (c.close i (onwardFrom chain i))
    [onwardFrom chain i ++ [i]] where
  paths := rfl
  heads := List.subset_cons_self i c.heads
  starts path hpath := by
    obtain rfl := List.mem_singleton.mp hpath
    exact ⟨i, head?_of_onwardFrom hi (List.prefix_refl _), List.mem_cons_self,
      .inl ⟨hi, i, List.mem_singleton_self i, List.prefix_refl _⟩⟩
  once path _ _ := List.count_le_length
  closing head hmem := by
    by_cases h : head = i
    · subst h
      simp
    · simp [Ne.symm h]
  listed path hpath :=
    .inl ⟨i, hi, List.mem_singleton_self i, List.mem_singleton.mp hpath⟩

/-- What is reported beyond an entered module. -/
theorem enter (hi : i ∉ chain) (hh : i ∉ c.heads) (h : Reports deps (chain ++ [i]) (deps i) c c' new) :
    Reports deps chain [i] c c' new where
  paths := h.paths
  heads := h.heads
  starts path hpath := by
    obtain ⟨head, hhead, hmem, ⟨hin, d, -, hprefix⟩ | ⟨hout, hfresh⟩⟩ := h.starts path hpath
    · refine ⟨head, hhead, hmem, ?_⟩
      by_cases hchain : head ∈ chain
      · rw [onwardFrom_append hchain] at hprefix
        exact .inl ⟨hchain, i, List.mem_singleton_self i, (List.prefix_append _ _).trans hprefix⟩
      · obtain rfl : head = i := by simpa [hchain] using hin
        exact .inr ⟨hi, hh⟩
    · exact ⟨head, hhead, hmem, .inr ⟨fun hchain => hout (List.mem_append_left _ hchain), hfresh⟩⟩
  once path hsingle _ := h.once path hsingle fun d ⟨head, hmem, hprefix⟩ => by
    obtain ⟨front, hfront⟩ := exists_onwardFrom_concat hmem
    rw [hfront, List.append_assoc] at hprefix
    -- the path steps from `i` to `d`
    have hstep := (List.isChain_append.mp ( List.IsChain.prefix hsingle hprefix)).2.1
    exact (List.isChain_cons_cons.mp hstep).1
  closing head hmem := by
    have hne : i ≠ head := fun h => hi (h ▸ hmem)
    simp [hne]
  listed path hpath := by
    rcases h.listed path hpath with ⟨head, hmem, -, rfl⟩ | hlisted
    · obtain ⟨front, hfront⟩ := exists_onwardFrom_concat hmem
      exact .inr ⟨front, i, head, by rw [hfront, List.append_assoc]; rfl, h.closing head hmem⟩
    · exact .inr hlisted

/-- A path that is reported on the way to `i` and again on the way to one of `ds` leaves the chain for
the same module both times. -/
theorem goesOn_of_mem (h : Reports deps chain [i] c c' new) (h' : Reports deps chain ds c' c'' new')
    (hpath : path ∈ new) (hpath' : path ∈ new') : i ∈ ds ∧ GoesOn chain i path := by
  obtain ⟨head, hhead, hmem, hstart⟩ := h.starts path hpath
  obtain ⟨head', hhead', -, hstart'⟩ := h'.starts path hpath'
  obtain rfl : head' = head := Option.some.inj (hhead'.symm.trans hhead)
  rcases hstart with ⟨hin, d, hd, hprefix⟩ | ⟨hout, -⟩
  · rcases hstart' with ⟨-, e, he, hprefix'⟩ | ⟨hout', -⟩
    · obtain rfl := List.mem_singleton.mp hd
      have hgoes : GoesOn chain d path := ⟨head', hin, hprefix⟩
      exact ⟨hgoes.unique ⟨head', hin, hprefix'⟩ ▸ he, hgoes⟩
    · exact absurd hin hout'
  · rcases hstart' with ⟨hin', -⟩ | ⟨-, hfresh⟩
    · exact absurd hin' hout
    · exact absurd hmem hfresh

theorem append (h : Reports deps chain [i] c c' new) (h' : Reports deps chain ds c' c'' new') :
    Reports deps chain (i :: ds) c c'' (new ++ new') where
  paths := by rw [h'.paths, h.paths, List.append_assoc]
  heads _ hk := h'.heads (h.heads hk)
  starts path hpath := by
    rcases List.mem_append.mp hpath with hpath | hpath
    · exact (h.starts path hpath).mono (by simp) (List.Subset.refl _) h'.heads
    · exact (h'.starts path hpath).mono (List.subset_cons_self i ds) h.heads (List.Subset.refl _)
  once path hsingle hds := by
    have hfirst : new.count path ≤ 1 := h.once path hsingle fun _ _ => List.count_le_length
    have hlater : new'.count path ≤ 1 := h'.once path hsingle fun d hd =>
      Nat.le_trans List.count_le_count_cons (hds d hd)
    rw [List.count_append]
    by_cases hpath : path ∈ new
    · -- a path that both report goes on to `i` both times, so that `ds` lists `i` again
      have hnot : path ∉ new' := fun hpath' => by
        obtain ⟨hmem, hgoes⟩ := h.goesOn_of_mem h' hpath hpath'
        have hcount := hds i hgoes
        have hpos := List.count_pos_iff.mpr hmem
        rw [List.count_cons_self] at hcount
        omega
      rw [List.count_eq_zero.mpr hnot]
      exact hfirst
    · rw [List.count_eq_zero.mpr hpath, Nat.zero_add]
      exact hlater
  closing head hmem := by
    rw [← List.singleton_append, List.count_append, List.count_append]
    exact Nat.add_le_add (h.closing head hmem) (h'.closing head hmem)
  listed path hpath := by
    rcases List.mem_append.mp hpath with hpath | hpath
    · rcases h.listed path hpath with ⟨head, hmem, hd, rfl⟩ | hlisted
      · exact .inl ⟨head, hmem, List.mem_singleton.mp hd ▸ List.mem_cons_self, rfl⟩
      · exact .inr (hlisted.mono (List.sublist_append_left _ _))
    · rcases h'.listed path hpath with ⟨head, hmem, hd, rfl⟩ | hlisted
      · exact .inl ⟨head, hmem, List.mem_cons_of_mem i hd, rfl⟩
      · exact .inr (hlisted.mono (List.sublist_append_right _ _))

end Reports

theorem Follows.exists_reports (h : Follows deps chain ds c c') :
    ∃ new, Reports deps chain ds c c' new := by
  induction h with
  | done => exact ⟨[], .nil⟩
  | close hi _ ih =>
    obtain ⟨new, hnew⟩ := ih
    exact ⟨_, (Reports.close hi).append hnew⟩
  | pass hi _ _ ih =>
    obtain ⟨new, hnew⟩ := ih
    exact ⟨_, (Reports.pass hi).append hnew⟩
  | enter hi hh _ _ ihin ih =>
    obtain ⟨inner, hinner⟩ := ihin
    obtain ⟨new, hnew⟩ := ih
    exact ⟨_, (hinner.enter hi hh).append hnew⟩

theorem reports_find (hw : Within size deps) :
    Reports deps [] (List.range size) {} (find size deps) (find size deps).paths := by
  obtain ⟨new, hnew⟩ := (follows_find hw).exists_reports
  have hpaths : (find size deps).paths = new := hnew.paths
  exact hpaths ▸ hnew

theorem count_paths_le_one (hw : Within size deps) (h : SingleSteps deps path) :
    (find size deps).paths.count path ≤ 1 :=
  (reports_find hw).once path h fun _ ⟨_, hmem, _⟩ => absurd hmem List.not_mem_nil

theorem listedAtMost_of_mem_paths (hw : Within size deps) (h : path ∈ (find size deps).paths) :
    ListedAtMost deps (find size deps).paths path := by
  rcases (reports_find hw).listed path h with ⟨_, hmem, _⟩ | h
  · exact absurd hmem List.not_mem_nil
  · exact h

theorem nodup_paths (hw : Within size deps) (h : ∀ i, (deps i).Nodup) :
    (find size deps).paths.Nodup := by
  refine List.nodup_iff_count_le_one.mpr fun path => count_paths_le_one hw ?_
  exact (List.pairwise_of_forall fun i j => List.nodup_iff_count_le_one.mp (h i) j).isChain

theorem nodup_warnings_iff {t : Table} (h : t.ReadableIds) (modules : List ModuleFacts) :
    (Linked.ofModules t modules).warnings.Nodup ↔ t.cycles.paths.Nodup := by
  have hwalk {path : List Nat} (hpath : path ∈ t.cycles.paths) : ClosedWalk t.internalDeps path :=
    closedWalk_of_mem_paths t.within_internalDeps hpath
  have hne {path : List Nat} (hpath : path ∈ t.cycles.paths) : path ≠ [] := by
    obtain ⟨i, hi⟩ := (hwalk hpath).exists_mem
    exact List.ne_nil_of_mem hi
  have hin {path : List Nat} (hpath : path ∈ t.cycles.paths) : ∀ i ∈ path, i < t.size := fun i hi =>
    ((hwalk hpath).onCycle hi).lt t.within_internalDeps
  constructor
  · exact List.Nodup.of_map t.cycleWarning
  · exact List.Nodup.map_on fun path hpath path' hpath' =>
      h.cycleWarning_inj (hne hpath) (hne hpath') (hin hpath) (hin hpath')

/-- A path is reported once if no module on it lists the next one twice, so none is reported again
where no module lists another one twice. A path is reported at least as often as its last module
lists the first one. The warnings repeat just where the paths do, if the ids can be told apart. -/
theorem reported_once (t : Table) (modules : List ModuleFacts) :
    (∀ path, SingleSteps t.internalDeps path → t.cycles.paths.count path ≤ 1) ∧
    ((∀ i, (t.internalDeps i).Nodup) → t.cycles.paths.Nodup) ∧
    (∀ path ∈ t.cycles.paths, ListedAtMost t.internalDeps t.cycles.paths path) ∧
    (t.ReadableIds → ((Linked.ofModules t modules).warnings.Nodup ↔ t.cycles.paths.Nodup)) := by
  have hw : Within t.size t.internalDeps := t.within_internalDeps
  refine ⟨fun path => count_paths_le_one hw, nodup_paths hw, fun path => ?_, fun h => ?_⟩
  · exact listedAtMost_of_mem_paths hw
  · exact nodup_warnings_iff h modules

theorem reported_once_mutualTable :
    SingleSteps mutualTable.internalDeps [0, 1, 0] ∧
      mutualTable.cycles.paths.count [0, 1, 0] ≤ 1 ∧
      (∀ i, (mutualTable.internalDeps i).Nodup) ∧ mutualTable.ReadableIds ∧
      (Linked.ofModules mutualTable []).warnings.Nodup := by
  obtain ⟨honce, hnodup, -, hwarnings⟩ := reported_once mutualTable []
  have hsteps : SingleSteps mutualTable.internalDeps [0, 1, 0] := by
    unfold SingleSteps
    decide +kernel
  have hdeps : ∀ i, (mutualTable.internalDeps i).Nodup := fun i => by
    rcases Nat.lt_or_ge i 2 with hi | hi
    · revert i
      decide +kernel
    · rw [mutualTable.internalDeps_of_size_le hi]
      exact List.nodup_nil
  have hids : mutualTable.ReadableIds := ⟨by decide +kernel, by decide +kernel⟩
  exact ⟨hsteps, honce _ hsteps, hdeps, hids, (hwarnings hids).mpr (hnodup hdeps)⟩

/-- Two modules that depend on each other, one of them under two specifiers. -/
def twoSpecifiers : Table := ⟨[
  { id := .number 1, source := "",
    deps := [("./b", some (.number 2)), ("./b.js", some (.number 2))] },
  { id := .number 2, source := "", deps := [("./a", some (.number 1))] }]⟩

theorem not_reported_once :
    (¬∀ t : Table, t.cycles.paths.Nodup) ∧
      ¬∀ (t : Table) (modules : List ModuleFacts), (Linked.ofModules t modules).warnings.Nodup := by
  have htwice : twoSpecifiers.cycles.paths = [[0, 1, 0], [0, 1, 0]] := by decide +kernel
  refine ⟨fun h => absurd (htwice ▸ h twoSpecifiers) (by decide), fun h => ?_⟩
  have hwarnings : (Linked.ofModules twoSpecifiers []).warnings =
      [[0, 1, 0], [0, 1, 0]].map twoSpecifiers.cycleWarning := by
    rw [← htwice]
    rfl
  simpa [hwarnings] using h twoSpecifiers []

end Cycles

end FlatBundle
