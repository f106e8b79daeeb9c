import FlatBundle.Link.Linked
import FlatBundle.Proofs.Link.Facts
import FlatBundle.Proofs.Link.Postorder

/-!
The order of the modules of a bundle: modules on demand come first, and an eager module comes after
those it leads to, unless it is on a cycle that was missed.
-/

namespace FlatBundle

namespace Table

variable {t : Table} {place : Nat → Nat → Option Nat} {i j : Nat}

/-- The dependencies of a module as the sort visits them. -/
def visitDeps (t : Table) (place : Nat → Nat → Option Nat) (i : Nat) : List Nat :=
  (t.internalDeps i).mergeSort (depLe (place i) t.ranked.idxOf)

theorem sorted_eq_walk :
    t.sorted place = walk (t.visitDeps place) (List.range t.size) t.ranked :=
  rfl

theorem dependsOn_visitDeps : DependsOn (t.visitDeps place) = DependsOn t.internalDeps := by
  funext i j
  exact propext List.mem_mergeSort

theorem leads_visitDeps : Leads (t.visitDeps place) i j ↔ Leads t.internalDeps i j := by
  rw [Leads, Leads, dependsOn_visitDeps]

theorem leadsAway_visitDeps :
    LeadsAway (t.visitDeps place) i j ↔ LeadsAway t.internalDeps i j := by
  have hmem (k m : Nat) : m ∈ t.visitDeps place k ↔ m ∈ t.internalDeps k := List.mem_mergeSort
  simp only [LeadsAway, LeadsClear, leads_visitDeps, hmem]

theorem within_visitDeps : Within t.size (t.visitDeps place) := fun i j hj =>
  within_internalDeps i j (List.mem_mergeSort.mp hj)

theorem mem_ranked : i ∈ t.ranked ↔ i < t.size := by
  rw [ranked, List.mem_mergeSort, List.mem_range]

theorem mem_sorted : i ∈ t.sorted place ↔ i < t.size := by
  rw [sorted_eq_walk, mem_walk List.nodup_range]
  constructor
  · exact fun h => List.mem_range.mp h.mem
  · exact fun h => ⟨i, mem_ranked.mpr h, List.mem_range.mpr h, .refl⟩

theorem nodup_sorted : (t.sorted place).Nodup :=
  nodup_walk List.nodup_range

theorem sorted_perm_range : (t.sorted place).Perm (List.range t.size) :=
  (List.perm_ext_iff_of_nodup nodup_sorted List.nodup_range).mpr fun i => by
    rw [mem_sorted, List.mem_range]

/-- When the sort enters module `i`, it has entered `j`, or `i` leads to `j` over modules that it has
not entered. -/
def InTime (t : Table) (place : Nat → Nat → Option Nat) (i j : Nat) : Prop :=
  ∃ f, Enters (t.visitDeps place) (List.range t.size) t.ranked i f ∧
    (j ∈ f → LeadsClear (t.visitDeps place) (· ∉ f) i j)

theorem exists_enters_sorted (place : Nat → Nat → Option Nat) (hi : i < t.size) :
    ∃ f, Enters (t.visitDeps place) (List.range t.size) t.ranked i f :=
  exists_enters List.nodup_range (show i ∈ t.sorted place from mem_sorted.mpr hi)

theorem inTime_of_leadsAway (hi : i < t.size) (h : LeadsAway t.internalDeps i j) :
    t.InTime place i j := by
  obtain ⟨f, hf⟩ := exists_enters_sorted place hi
  refine ⟨f, hf, hf.leadsClear_of_leadsAway List.nodup_range ?_ (leadsAway_visitDeps.mpr h)⟩
  intro k hk _ m hm
  have hsize : t.size ≤ k := Nat.le_of_not_lt fun hlt => hk (List.mem_range.mpr hlt)
  rw [visitDeps, internalDeps_of_size_le hsize] at hm
  simp at hm

theorem inTime_of_not_onCycle (hi : i < t.size) (hcycle : ¬OnCycle t.internalDeps i)
    (h : Leads t.internalDeps i j) : t.InTime place i j :=
  inTime_of_leadsAway hi (h.leadsAway hcycle)

theorem precedes_sorted_iff (hi : i < t.size) (hj : j < t.size) (hji : j ≠ i)
    (hback : ¬Leads t.internalDeps j i) : Precedes (t.sorted place) j i ↔ t.InTime place i j := by
  rw [sorted_eq_walk]
  constructor
  · intro h
    obtain ⟨f, hf⟩ := exists_enters_sorted place hi
    exact ⟨f, hf, fun hjf => (hf.precedes_iff List.nodup_range hjf hji).mp h⟩
  · rintro ⟨f, hf, h⟩
    by_cases hjf : j ∈ f
    · exact (hf.precedes_iff List.nodup_range hjf hji).mpr (h hjf)
    · exact hf.precedes_of_not_mem List.nodup_range (List.mem_range.mpr hj) hjf
        (mt leads_visitDeps.mp hback)

theorem lt_size_of_leads (h : Leads t.internalDeps i j) : i < t.size := by
  obtain ⟨k, hk, -⟩ := Relation.TransGen.head'_iff.mp h
  refine Nat.lt_of_not_le fun hsize => ?_
  rw [DependsOn, internalDeps_of_size_le hsize] at hk
  exact List.not_mem_nil hk

/-- The sort lists each module once. Of a module and one that it leads to and that does not lead back,
the second comes first just when it is entered in time. It always is where no module on the way leads
back: when the first depends on it, for one, or is on no cycle. -/
theorem sorted_in_time (t : Table) (place : Nat → Nat → Option Nat) :
    (t.sorted place).Perm (List.range t.size) ∧
      ∀ i j, Leads t.internalDeps i j → ¬Leads t.internalDeps j i →
        (Precedes (t.sorted place) j i ↔ t.InTime place i j) ∧
          (LeadsAway t.internalDeps i j → Precedes (t.sorted place) j i) := by
  refine ⟨sorted_perm_range, fun i j h hback => ?_⟩
  have hi : i < t.size := lt_size_of_leads h
  have hj : j < t.size := h.lt within_internalDeps
  have hji : j ≠ i := fun hji => hback (hji ▸ h)
  have hiff : Precedes (t.sorted place) j i ↔ t.InTime place i j :=
    precedes_sorted_iff hi hj hji hback
  exact ⟨hiff, fun haway => hiff.mpr (inTime_of_leadsAway hi haway)⟩

/-- The first module depends on the other two, and the second on the first. The sort leaves the second
before it comes from the first to the third. -/
def sharedDependency : Table := ⟨[
  { id := .number 1, source := "", deps := [("./x", some (.number 2)), ("./t", some (.number 3))] },
  { id := .number 2, source := "", deps := [("./y", some (.number 1))] },
  { id := .number 3, source := "", deps := [("./t", some (.number 3))] }]⟩

theorem sharedDependency_leads_third {k : Nat} (h : Leads sharedDependency.internalDeps 2 k) :
    k = 2 := by
  have hdeps : sharedDependency.internalDeps 2 = [2] := by decide +kernel
  induction h with
  | single hd => simpa [DependsOn, hdeps] using hd
  | tail _ hd ih => simpa [DependsOn, ih, hdeps] using hd

theorem sorted_in_time_sharedDependency :
    Leads sharedDependency.internalDeps 0 2 ∧ ¬Leads sharedDependency.internalDeps 2 0 ∧
      LeadsAway sharedDependency.internalDeps 0 2 ∧
      Precedes (sharedDependency.sorted fun _ _ => none) 2 0 := by
  have hd : 2 ∈ sharedDependency.internalDeps 0 := by decide +kernel
  have hback : ¬Leads sharedDependency.internalDeps 2 0 := fun h =>
    absurd (sharedDependency_leads_third h) (by decide)
  have hforth : Leads sharedDependency.internalDeps 0 2 := .single hd
  have haway : LeadsAway sharedDependency.internalDeps 0 2 := .single ⟨hd, hback⟩
  exact ⟨hforth, hback, haway, ((sorted_in_time sharedDependency _).2 0 2 hforth hback).2 haway⟩

theorem not_sorted_after_reachable :
    ¬∀ (t : Table) (place : Nat → Nat → Option Nat),
      (t.sorted place).Perm (List.range t.size) ∧
        ∀ i j, Leads t.internalDeps i j → ¬Leads t.internalDeps j i →
          Precedes (t.sorted place) j i := by
  intro h
  have hranked : sharedDependency.ranked = [0, 1, 2] :=
    List.mergeSort_of_pairwise (by decide +kernel)
  have hvisit {i : Nat} {deps : List Nat} (hdeps : sharedDependency.internalDeps i = deps)
      (hpairwise : deps.Pairwise fun j k => [0, 1, 2].idxOf j ≤ [0, 1, 2].idxOf k) :
      sharedDependency.visitDeps (fun _ _ => none) i = deps := by
    rw [visitDeps, hdeps, hranked]
    exact List.mergeSort_of_pairwise (by simpa [depLe] using hpairwise)
  have hvisit0 := @hvisit 0 [1, 2] (by decide +kernel) (by decide)
  have hvisit1 := @hvisit 1 [0] (by decide +kernel) (by decide)
  have hvisit2 := @hvisit 2 [2] (by decide +kernel) (by decide)
  have hrange : List.range sharedDependency.size = [0, 1, 2] := rfl
  have hsorted : (sharedDependency.sorted fun _ _ => none) = [1, 2, 0] := by
    rw [sorted_eq_walk, hranked, hrange]
    simp [walk, postorder, hvisit0, hvisit1, hvisit2]
  have hforth : Leads sharedDependency.internalDeps 1 2 :=
    .head (show DependsOn _ 1 0 by unfold DependsOn; decide +kernel)
      (.single (show DependsOn _ 0 2 by unfold DependsOn; decide +kernel))
  have hback : ¬Leads sharedDependency.internalDeps 2 1 := fun hback =>
    absurd (sharedDependency_leads_third hback) (by decide)
  have hfirst := (h sharedDependency fun _ _ => none).2 1 2 hforth hback
  rw [hsorted] at hfirst
  revert hfirst
  unfold Precedes
  decide

end Table

namespace Linked

variable {t : Table} {modules : List ModuleFacts} {i j : Nat}

/-- Where a module first calls for another one. -/
def callPlace (modules : List ModuleFacts) (i : Nat) : Nat → Option Nat :=
  (modules.getD i default).firstCallEnd

theorem order_ofModules :
    (ofModules t modules).order =
      (t.sorted (callPlace modules)).filter (ofModules t modules).isOnDemand ++
        (t.sorted (callPlace modules)).filter fun i => !(ofModules t modules).isOnDemand i := by
  simp only [ofModules, List.partition_eq_filter_filter]
  rfl

theorem order_perm_range : (ofModules t modules).order.Perm (List.range t.size) := by
  rw [order_ofModules]
  exact (List.filter_append_perm _ _).trans Table.sorted_perm_range

theorem mem_order : i ∈ (ofModules t modules).order ↔ i < t.size := by
  rw [order_perm_range.mem_iff, List.mem_range]

/-- Among eager modules, the bundle keeps the order of running. -/
theorem precedes_order_iff (hi : (ofModules t modules).isOnDemand i = false)
    (hj : (ofModules t modules).isOnDemand j = false) :
    Precedes (ofModules t modules).order i j ↔ Precedes (t.sorted (callPlace modules)) i j := by
  rw [order_ofModules, precedes_append_iff_right (by simp [hi])]
  constructor
  · exact fun h => h.trans List.filter_sublist
  · intro h
    have h := h.filter fun i => !(ofModules t modules).isOnDemand i
    simpa [Precedes, hi, hj] using h

/-- Modules that are called from everywhere are there before everything that runs, and a module that
runs in place comes after all others of its kind that it leads to. -/
structure DependenciesFirst (t : Table) (l : Linked) : Prop where
  onDemand : ∀ i ∈ l.order, ∀ j ∈ l.order, l.isOnDemand i → ¬l.isOnDemand j → Precedes l.order i j
  eager : ∀ i ∈ l.order, ∀ j ∈ l.order, ¬l.isOnDemand i → ¬l.isOnDemand j → i ≠ j →
    Leads t.internalDeps i j → Precedes l.order j i

theorem onDemand_precedes (hi : i < t.size) (hj : j < t.size)
    (hdemand : (ofModules t modules).isOnDemand i) (heager : ¬(ofModules t modules).isOnDemand j) :
    Precedes (ofModules t modules).order i j := by
  rw [order_ofModules]
  exact precedes_append (by simpa [hdemand] using Table.mem_sorted.mpr hi)
    (by simpa [heager] using Table.mem_sorted.mpr hj)

theorem nodup_order : (ofModules t modules).order.Nodup :=
  order_perm_range.nodup_iff.mpr List.nodup_range

theorem precedes_order_iff_inTime (hi : i < t.size) (hj : j < t.size)
    (hie : ¬(ofModules t modules).isOnDemand i) (hje : ¬(ofModules t modules).isOnDemand j)
    (hij : i ≠ j) (hback : ¬Leads t.internalDeps j i) :
    Precedes (ofModules t modules).order j i ↔ t.InTime (callPlace modules) i j := by
  rw [precedes_order_iff (by simpa using hje) (by simpa using hie)]
  exact Table.precedes_sorted_iff hi hj hij.symm hback

/-- An eager module that is on no cycle comes after all eager modules that it leads to. -/
theorem precedes_of_not_onCycle (hi : i < t.size) (hj : j < t.size)
    (hie : ¬(ofModules t modules).isOnDemand i) (hje : ¬(ofModules t modules).isOnDemand j)
    (hij : i ≠ j) (hcycle : ¬OnCycle t.internalDeps i) (h : Leads t.internalDeps i j) :
    Precedes (ofModules t modules).order j i :=
  (precedes_order_iff_inTime hi hj hie hje hij fun hback => hcycle (h.trans hback)).mpr
    (Table.inTime_of_not_onCycle hi hcycle h)

/-- The order has what it is for just when no two eager modules lead to each other and each one that
is on a cycle for all that enters those it leads to in time. Off the cycles nothing can go wrong. -/
theorem dependenciesFirst_iff (t : Table) (modules : List ModuleFacts) :
    let l := ofModules t modules
    l.order.Perm (List.range t.size) ∧
      (∀ i ∈ l.order, ∀ j ∈ l.order, ¬l.isOnDemand i → ¬l.isOnDemand j → i ≠ j →
        ¬OnCycle t.internalDeps i → Leads t.internalDeps i j → Precedes l.order j i) ∧
      (DependenciesFirst t l ↔
        ∀ i ∈ l.order, ∀ j ∈ l.order, ¬l.isOnDemand i → ¬l.isOnDemand j → i ≠ j →
          OnCycle t.internalDeps i → Leads t.internalDeps i j →
            ¬Leads t.internalDeps j i ∧ t.InTime (callPlace modules) i j) := by
  intro l
  refine ⟨order_perm_range, fun i hi j hj => ?_, fun h i hi j hj hie hje hij _ hl => ?_, fun h => ?_⟩
  · exact precedes_of_not_onCycle (mem_order.mp hi) (mem_order.mp hj)
  · have hp := h.eager i hi j hj hie hje hij hl
    have hback : ¬Leads t.internalDeps j i := fun hback =>
      hp.not_symm nodup_order (h.eager j hj i hi hje hie hij.symm hback)
    refine ⟨hback, ?_⟩
    exact (precedes_order_iff_inTime (mem_order.mp hi) (mem_order.mp hj) hie hje hij hback).mp hp
  · refine ⟨fun i hi j hj => onDemand_precedes (mem_order.mp hi) (mem_order.mp hj),
      fun i hi j hj hie hje hij hl => ?_⟩
    by_cases hcycle : OnCycle t.internalDeps i
    · obtain ⟨hback, htime⟩ := h i hi j hj hie hje hij hcycle hl
      exact (precedes_order_iff_inTime (mem_order.mp hi) (mem_order.mp hj) hie hje hij hback).mpr
        htime
    · exact precedes_of_not_onCycle (mem_order.mp hi) (mem_order.mp hj) hie hje hij hcycle hl

/-- Two cycles through the modules `1` and `2`, of which one goes on over `3` and `4`. The walk comes
back to `2` before it enters `3`, so that `3` and `4` stay eager. -/
def missedCycle : List Record := [
  { id := .number 1, source := "", deps := [("./a", some (.number 2)), ("./x", some (.number 3))] },
  { id := .number 2, source := "", deps := [("./a", some (.number 2)), ("./b", some (.number 1))] },
  { id := .number 3, source := "", deps := [("./t", some (.number 4))] },
  { id := .number 4, source := "", deps := [("./a", some (.number 2))] }]

theorem not_dependenciesFirst :
    ¬∀ (records : List Record) (t : Table) (modules : List ModuleFacts),
      Table.ofRecords records = .ok t → scanModules t = .ok modules →
        DependenciesFirst t (ofModules t modules) := by
  intro h
  let t : Table := ⟨missedCycle⟩
  have ht : Table.ofRecords missedCycle = .ok t := Table.ofRecords_eq_ok_iff.mpr ⟨by decide, rfl⟩
  obtain ⟨modules, hm⟩ := exists_scanModules (t := t) (by decide +kernel)
  have heager : ((scanModules t).toOption.all fun modules =>
      !(ofModules t modules).isOnDemand 2 && !(ofModules t modules).isOnDemand 3) = true := by
    decide +kernel
  have heager : (ofModules t modules).isOnDemand 2 = false ∧
      (ofModules t modules).isOnDemand 3 = false := by
    simpa [hm, Except.toOption] using heager
  have hforth : Leads t.internalDeps 2 3 :=
    .single (show DependsOn _ 2 3 by unfold DependsOn; decide +kernel)
  have hback : Leads t.internalDeps 3 2 :=
    .head (show DependsOn _ 3 1 by unfold DependsOn; decide +kernel)
      (.head (show DependsOn _ 1 0 by unfold DependsOn; decide +kernel)
        (.single (show DependsOn _ 0 2 by unfold DependsOn; decide +kernel)))
  have hfirst := (h missedCycle t modules ht hm).eager
  have hmem {i : Nat} (hi : i < 4) : i ∈ (ofModules t modules).order := mem_order.mpr hi
  have h32 := hfirst 2 (hmem (by decide)) 3 (hmem (by decide)) (by simp [heager]) (by simp [heager])
    (by decide) hforth
  exact h32.not_symm nodup_order (hfirst 3 (hmem (by decide)) 2 (hmem (by decide))
    (by simp [heager]) (by simp [heager]) (by decide) hback)

end Linked

end FlatBundle
