import FlatBundle.Proofs.Link.OnDemand
import Mathlib.Data.List.GetD

/-!
Linking the same modules in a different order of the table: everything is the same by other numbers,
as long as the same modules run on demand.
-/

namespace FlatBundle

variable {σ : Nat → Nat} {t t' : Table} {i j : Nat}

section Postorder

variable {deps deps' : Nat → List Nat} {fresh fresh' : List Nat}

def Visiting.reindex (σ : Nat → Nat) : Visiting → Visiting
  | enter i => enter (σ i)
  | leave i => leave (σ i)

theorem postorder_reindex (hσ : Function.Injective σ) (hdeps : ∀ i, deps' (σ i) = (deps i).map σ)
    {tasks : List Visiting} (hfresh : fresh.Nodup) (hfresh' : fresh'.Nodup)
    (hiff : ∀ i, σ i ∈ fresh' ↔ i ∈ fresh) :
    postorder deps' fresh' (tasks.map (.reindex σ)) = (postorder deps fresh tasks).map σ := by
  induction fresh, tasks using postorder.induct deps generalizing fresh' with
  | case1 fresh => simp [postorder]
  | case2 fresh i tasks ih =>
    rw [List.map_cons, Visiting.reindex, postorder, postorder, ih hfresh hfresh' hiff, List.map_cons]
  | case3 fresh i tasks hi ih =>
    have herase : ∀ j, σ j ∈ fresh'.erase (σ i) ↔ j ∈ fresh.erase i := fun j => by
      rw [hfresh'.mem_erase_iff, hfresh.mem_erase_iff, hiff, hσ.ne_iff]
    have htasks : ((deps i).map Visiting.enter ++ .leave i :: tasks).map (Visiting.reindex σ) =
        (deps' (σ i)).map Visiting.enter ++ .leave (σ i) :: tasks.map (Visiting.reindex σ) := by
      simp [hdeps, Visiting.reindex]
    have hrest := ih (hfresh.erase i) (hfresh'.erase (σ i)) herase
    rw [List.map_cons, Visiting.reindex, postorder, postorder, dif_pos ((hiff i).mpr hi), dif_pos hi,
      ← hrest, htasks]
  | case4 fresh i tasks hi ih =>
    rw [List.map_cons, Visiting.reindex, postorder, postorder, dif_neg (mt (hiff i).mp hi), dif_neg hi,
      ih hfresh hfresh' hiff]

end Postorder

theorem idxOf_map_of_injective (hσ : Function.Injective σ) (xs : List Nat) (i : Nat) :
    (xs.map σ).idxOf (σ i) = xs.idxOf i := by
  induction xs with
  | nil => rfl
  | cons x xs ih =>
    by_cases hx : x = i
    · rw [hx, List.map_cons, List.idxOf_cons_self, List.idxOf_cons_self]
    · rw [List.map_cons, List.idxOf_cons_ne _ (hσ.ne hx), List.idxOf_cons_ne _ hx, ih]

namespace Reindexed

variable {place place' : Nat → Nat → Option Nat}

theorem visitDeps_eq (h : Reindexed σ t t') (hids : t.DistinctIds)
    (hplace : ∀ i j, place' (σ i) (σ j) = place i j) (i : Nat) :
    t'.visitDeps place' (σ i) = (t.visitDeps place i).map σ := by
  rw [Table.visitDeps, Table.visitDeps, h.internalDeps_eq hids]
  refine (List.map_mergeSort fun a _ b _ => ?_).symm
  rw [depLe, depLe, hplace, hplace, h.ranked_eq hids, idxOf_map_of_injective h.injective,
    idxOf_map_of_injective h.injective]

theorem sorted_eq (h : Reindexed σ t t') (hids : t.DistinctIds)
    (hplace : ∀ i j, place' (σ i) (σ j) = place i j) :
    t'.sorted place' = (t.sorted place).map σ := by
  rw [Table.sorted_eq_walk, Table.sorted_eq_walk, walk, walk, h.ranked_eq hids, h.size]
  have htasks : (t.ranked.map σ).map Visiting.enter = (t.ranked.map .enter).map (.reindex σ) := by
    rw [List.map_map, List.map_map]
    rfl
  rw [htasks]
  refine postorder_reindex h.injective (h.visitDeps_eq hids hplace) List.nodup_range
    List.nodup_range fun i => ?_
  rw [List.mem_range, List.mem_range, h.lt_iff]

end Reindexed

section Facts

variable {modules modules' : List ModuleFacts} {m : ModuleFacts}

def Requirement.reindex (σ : Nat → Nat) (q : Requirement) : Requirement :=
  ⟨q.call, q.target.reindex σ⟩

/-- The same facts, with the other numbers of the modules that are called for. -/
def ModuleFacts.reindex (σ : Nat → Nat) (m : ModuleFacts) : ModuleFacts :=
  { m with requirements := m.requirements.map (.reindex σ) }

theorem Target.reindex_eq_internal_iff (hσ : Function.Injective σ) {target : Target} :
    target.reindex σ = .internal (σ i) ↔ target = .internal i := by
  cases target with
  | internal j => simp [Target.reindex, hσ.eq_iff]
  | external id => simp [Target.reindex]

theorem ModuleFacts.firstCallEnd_reindex (hσ : Function.Injective σ) (i : Nat) :
    (m.reindex σ).firstCallEnd (σ i) = m.firstCallEnd i := by
  have htarget (q : Requirement) :
      ((q.reindex σ).target == .internal (σ i)) = (q.target == .internal i) := by
    rw [Bool.eq_iff_iff, beq_iff_eq, beq_iff_eq]
    exact Target.reindex_eq_internal_iff hσ
  rw [firstCallEnd, firstCallEnd, ModuleFacts.reindex, List.find?_map, Option.map_map]
  simp only [Function.comp_def, htarget]
  rfl

theorem map_getD_range (modules : List ModuleFacts) :
    (List.range modules.length).map (modules.getD · default) = modules := by
  refine List.ext_getElem (by simp) fun i hi hi' => ?_
  rw [List.getElem_map, List.getElem_range, List.getD_eq_getElem _ _ hi']

/-- The facts about the same modules by their other numbers. -/
structure FactsReindexed (σ : Nat → Nat) (modules modules' : List ModuleFacts) : Prop where
  get : ∀ i, modules'.getD (σ i) default = (modules.getD i default).reindex σ
  perm : modules'.Perm (modules.map (.reindex σ))

theorem factsReindexed_of_scanModules (h : Reindexed σ t t') (hids : t.DistinctIds)
    (hm : scanModules t = .ok modules) (hm' : scanModules t' = .ok modules') :
    FactsReindexed σ modules modules' := by
  have hlen := length_of_scanModules hm
  have hlen' := length_of_scanModules hm'
  have hget : ∀ i, modules'.getD (σ i) default = (modules.getD i default).reindex σ := by
    intro i
    by_cases hi : i < t.size
    · obtain ⟨a, ha, hfacts⟩ := get_of_scanModules hm hi
      obtain ⟨a', ha', hfacts'⟩ := get_of_scanModules hm' (h.size ▸ (h.lt_iff i).mpr hi)
      rw [h.get, ha] at ha'
      cases ha'
      rw [hfacts, hfacts', ModuleFacts.ofAnalysis, ModuleFacts.ofAnalysis, ModuleFacts.reindex,
        h.get]
      simp [Requirement.reindex, h.resolve_eq hids, Function.comp_def]
    · have hi' : ¬σ i < t.size := mt (h.lt_iff i).mp hi
      have hsize := h.size
      rw [List.getD_eq_default _ _ (by omega), List.getD_eq_default _ _ (by omega)]
      rfl
  refine ⟨hget, ?_⟩
  have hmap : (List.range t.size).map (fun i => modules'.getD (σ i) default) =
      modules.map (.reindex σ) := by
    rw [← hlen, List.map_congr_left fun i _ => hget i]
    conv => rhs; rw [← map_getD_range modules]
    rw [List.map_map]
    rfl
  calc modules' = (List.range t'.size).map (modules'.getD · default) :=
        hlen' ▸ (map_getD_range modules').symm
    List.Perm _ (((List.range t.size).map σ).map (modules'.getD · default)) :=
        h.perm_range.symm.map _
    _ = modules.map (.reindex σ) := by rw [List.map_map, ← hmap]; rfl

end Facts

section Names

variable {taken taken' : List String}

/-- Which names have to change depends on the set of names taken, and not on their order. -/
theorem claimNames_congr {names : List (String × Nat)} (h : ∀ name, name ∈ taken' ↔ name ∈ taken) :
    (claimNames taken' names).2 = (claimNames taken names).2 ∧
      ∀ name, name ∈ (claimNames taken' names).1 ↔ name ∈ (claimNames taken names).1 := by
  induction names generalizing taken taken' with
  | nil => exact ⟨rfl, h⟩
  | cons entry names ih =>
    obtain ⟨name, binding⟩ := entry
    rw [claimNames, claimNames]
    by_cases hname : name ∈ taken
    · rw [if_pos (by simpa using (h name).mpr hname), if_pos (by simpa using hname)]
      obtain ⟨hrenamed, htaken⟩ := ih h
      exact ⟨congrArg (binding :: ·) hrenamed, htaken⟩
    · rw [if_neg (by simpa using mt (h name).mp hname), if_neg (by simpa using hname)]
      exact ih fun k => by rw [List.mem_cons, List.mem_cons, h]

theorem claimAll_cons {i : Nat} {scopes : ScopeTree} {modules : List (Nat × ScopeTree)} :
    claimAll taken ((i, scopes) :: modules) = (i, (claimNames taken scopes.programBindings).2) ::
      claimAll (claimNames taken scopes.programBindings).1 modules :=
  rfl

theorem claimAll_reindex {modules : List (Nat × ScopeTree)}
    (h : ∀ name, name ∈ taken' ↔ name ∈ taken) :
    claimAll taken' (modules.map fun p => (σ p.1, p.2)) =
      (claimAll taken modules).map fun p => (σ p.1, p.2) := by
  induction modules generalizing taken taken' with
  | nil => rfl
  | cons entry modules ih =>
    obtain ⟨i, scopes⟩ := entry
    obtain ⟨hrenamed, htaken⟩ := @claimNames_congr taken taken' scopes.programBindings h
    rw [List.map_cons, claimAll_cons, claimAll_cons, List.map_cons, ih htaken, hrenamed]

theorem lookup_map_of_injective {β : Type} (hσ : Function.Injective σ) (xs : List (Nat × β))
    (i : Nat) : (xs.map fun p => (σ p.1, p.2)).lookup (σ i) = xs.lookup i := by
  induction xs with
  | nil => rfl
  | cons x xs ih =>
    obtain ⟨j, b⟩ := x
    by_cases hij : i = j
    · simp [hij]
    · rw [List.map_cons, List.lookup_cons, List.lookup_cons, ih, beq_false_of_ne hij,
        beq_false_of_ne (hσ.ne hij)]

theorem mem_globalNames_reindex {modules modules' : List ModuleFacts}
    (h : FactsReindexed σ modules modules') (name : String) :
    name ∈ globalNames modules' ↔ name ∈ globalNames modules := by
  rw [globalNames, globalNames, (h.perm.flatMap_right _).mem_iff, List.flatMap_map]
  rfl

end Names

section OnDemand

variable {modules modules' : List ModuleFacts} {settled : List Nat} {qs : List Requirement}

theorem unpredictableTargets_reindex (hσ : Function.Injective σ) :
    unpredictableTargets (settled.map σ) (qs.map (.reindex σ)) =
      (unpredictableTargets settled qs).map σ := by
  induction qs generalizing settled with
  | nil => rfl
  | cons q qs ih =>
    obtain ⟨call, target⟩ := q
    cases target with
    | external id => exact ih
    | internal i =>
      have hcontains : (settled.map σ).contains (σ i) = settled.contains i := by
        rw [Bool.eq_iff_iff, List.contains_iff_mem, List.contains_iff_mem,
          List.mem_map_of_injective hσ]
      have hsettled := @ih (i :: settled)
      rw [List.map_cons] at hsettled
      rw [List.map_cons, Requirement.reindex, Target.reindex, unpredictableTargets,
        unpredictableTargets, hcontains, hsettled, ih]
      split
      · rfl
      · split <;> rfl

theorem Reindexed.leads_iff (h : Reindexed σ t t') (hids : t.DistinctIds) :
    Leads t'.internalDeps (σ i) (σ j) ↔ Leads t.internalDeps i j := by
  have hdepends (i j : Nat) :
      DependsOn t'.internalDeps (σ i) (σ j) ↔ DependsOn t.internalDeps i j := by
    rw [DependsOn, DependsOn, h.internalDeps_eq hids, List.mem_map_of_injective h.injective]
  constructor
  · suffices hback : ∀ k, Leads t'.internalDeps (σ i) k → ∀ j, σ j = k → Leads t.internalDeps i j from
      fun hl => hback _ hl j rfl
    intro k hl
    induction hl with
    | single hd =>
      rintro j rfl
      exact .single ((hdepends i j).mp hd)
    | @tail b c _ hd ih =>
      rintro j rfl
      obtain ⟨k, rfl⟩ := h.surjective b
      exact (ih k rfl).tail ((hdepends k j).mp hd)
  · exact Relation.TransGen.lift σ (fun i j => (hdepends i j).mpr) i j

/-- Once all cycles are found, the same modules run on demand whatever the order of the table. -/
theorem isOnDemand_reindex (h : Reindexed σ t t') (hids : t.DistinctIds)
    (hfacts : FactsReindexed σ modules modules') (hfound : t.CyclesFound) (hfound' : t'.CyclesFound)
    (i : Nat) :
    (Linked.ofModules t' modules').isOnDemand (σ i) = (Linked.ofModules t modules).isOnDemand i := by
  rw [Bool.eq_iff_iff, Linked.isOnDemand_iff, Linked.isOnDemand_iff]
  refine or_congr ?_ ?_
  · rw [hfound'.mem_members_iff, hfound.mem_members_iff, OnCycle, OnCycle, h.leads_iff hids]
  · have htargets (m : ModuleFacts) : σ i ∈ unpredictableTargets [] (m.reindex σ).requirements ↔
        i ∈ unpredictableTargets [] m.requirements := by
      have heq := @unpredictableTargets_reindex σ [] m.requirements h.injective
      rw [List.map_nil] at heq
      rw [ModuleFacts.reindex, heq, List.mem_map_of_injective h.injective]
    constructor
    · rintro ⟨_, hm', hi⟩
      obtain ⟨m, hm, rfl⟩ := List.mem_map.mp (hfacts.perm.mem_iff.mp hm')
      exact ⟨m, hm, (htargets m).mp hi⟩
    · rintro ⟨m, hm, hi⟩
      exact ⟨_, hfacts.perm.mem_iff.mpr (List.mem_map_of_mem hm), (htargets m).mpr hi⟩

end OnDemand

section Linking

variable {modules modules' : List ModuleFacts}

/-- The same linked modules by their other numbers. -/
structure LinkedReindexed (σ : Nat → Nat) (l l' : Linked) : Prop where
  injective : Function.Injective σ
  facts : ∀ i, l'.facts (σ i) = (l.facts i).reindex σ
  modules : l'.modules.Perm (l.modules.map (.reindex σ))
  isOnDemand : ∀ i, l'.isOnDemand (σ i) = l.isOnDemand i
  none_onDemand : l'.onDemand.isEmpty = l.onDemand.isEmpty
  order : l'.order = l.order.map σ
  renamedBindings : ∀ i, l'.renamedBindings (σ i) = l.renamedBindings i

open Linked

theorem renamed_ofModules : (ofModules t modules).renamed = claimAll (globalNames modules)
    ((t.sorted (callPlace modules)).map fun i => (i, (modules.getD i default).scopes)) :=
  rfl

theorem linkedReindexed_ofModules (h : Reindexed σ t t') (hids : t.DistinctIds)
    (hfacts : FactsReindexed σ modules modules')
    (hdemand : ∀ i, (ofModules t' modules').isOnDemand (σ i) = (ofModules t modules).isOnDemand i) :
    LinkedReindexed σ (ofModules t modules) (ofModules t' modules') := by
  have hplace : ∀ i j, callPlace modules' (σ i) (σ j) = callPlace modules i j := fun i j => by
    rw [callPlace, callPlace, hfacts.get, ModuleFacts.firstCallEnd_reindex h.injective]
  have hsorted := h.sorted_eq hids hplace
  refine ⟨h.injective, hfacts.get, hfacts.perm, hdemand, ?_, ?_, fun i => ?_⟩
  · rw [Bool.eq_iff_iff, List.isEmpty_iff, List.isEmpty_iff, List.eq_nil_iff_forall_not_mem,
      List.eq_nil_iff_forall_not_mem, h.surjective.forall]
    refine forall_congr' fun i => not_congr ?_
    rw [← List.contains_iff_mem, ← List.contains_iff_mem, ← isOnDemand, ← isOnDemand, hdemand]
  · rw [order_ofModules, order_ofModules, hsorted, List.filter_map, List.filter_map, List.map_append]
    simp only [Function.comp_def, hdemand]
  · have hscopes : (t'.sorted (callPlace modules')).map
        (fun i => (i, (modules'.getD i default).scopes)) =
          ((t.sorted (callPlace modules)).map fun i => (i, (modules.getD i default).scopes)).map
            fun p => (σ p.1, p.2) := by
      rw [hsorted, List.map_map, List.map_map]
      refine List.map_congr_left fun i _ => ?_
      rw [Function.comp_apply, hfacts.get]
      rfl
    rw [renamedBindings, renamedBindings, renamed_ofModules, renamed_ofModules, hscopes,
      claimAll_reindex (mem_globalNames_reindex hfacts), lookup_map_of_injective h.injective]

end Linking

end FlatBundle
