import FlatBundle.Proofs.Link.DepthFirst
import FlatBundle.Proofs.Link.Reindex
import Mathlib.Data.List.Forall2

/-!
Sorting the same modules in another order of the table, each with its dependencies listed in another
order. The ids come out in the same order, as long as the calls stay where they are.
-/

namespace FlatBundle

section Visits

variable {place place' : Nat → Option Nat} {rank : Nat → Nat} {i j k : Nat}

theorem depLe_trans (hij : depLe place rank i j) (hjk : depLe place rank j k) :
    depLe place rank i k := by
  unfold depLe at *
  cases hi : place i <;> cases hj : place j <;> cases hk : place k <;>
    simp only [hi, hj, hk, Bool.or_eq_true, Bool.and_eq_true, decide_eq_true_eq, beq_iff_eq] at * <;>
    grind

theorem depLe_total (place : Nat → Option Nat) (rank : Nat → Nat) (i j : Nat) :
    (depLe place rank i j || depLe place rank j i) = true := by
  unfold depLe
  cases hi : place i <;> cases hj : place j <;>
    simp only [Bool.or_eq_true, Bool.and_eq_true, decide_eq_true_eq, beq_iff_eq] <;>
    grind

/-- Only modules of one rank can each be visited before the other. -/
theorem rank_eq_of_depLe (hij : depLe place rank i j) (hji : depLe place rank j i) :
    rank i = rank j := by
  unfold depLe at *
  cases hi : place i <;> cases hj : place j <;>
    simp only [hi, hj, Bool.or_eq_true, Bool.and_eq_true, decide_eq_true_eq, beq_iff_eq] at * <;>
    grind

theorem depLe_congr (hi : place' i = place i) (hj : place' j = place j) :
    depLe place' rank i j = depLe place rank i j := by
  rw [depLe, depLe, hi, hj]

end Visits

/-- The same record with its dependencies listed in any order. -/
def Record.Relisted (r r' : Record) : Prop :=
  ∃ deps, r.deps.Perm deps ∧ r' = { r with deps }

theorem Record.Relisted.id_eq {r r' : Record} (h : r.Relisted r') : r'.id = r.id := by
  obtain ⟨deps, -, rfl⟩ := h
  rfl

namespace Table

variable {t t' : Table} {place place' : Nat → Nat → Option Nat} {i : Nat}

theorem pairwise_visitDeps (t : Table) (place : Nat → Nat → Option Nat) (i : Nat) :
    (t.visitDeps place i).Pairwise fun j k => depLe (place i) t.ranked.idxOf j k := by
  refine List.pairwise_mergeSort (fun j k m => ?_) (depLe_total _ _) _
  exact depLe_trans

/-- The same modules in any order, each with its dependencies listed in any order. -/
def Rearranged (t t' : Table) : Prop :=
  ∃ modules, t.modules.Perm modules ∧ List.Forall₂ Record.Relisted modules t'.modules

/-- In both tables, modules call for each other in the same places. -/
def SamePlaces (t t' : Table) (place place' : Nat → Nat → Option Nat) : Prop :=
  ∀ i < t.size, ∀ j < t.size, ∀ i' < t'.size, ∀ j' < t'.size,
    (t'.get i').id = (t.get i).id → (t'.get j').id = (t.get j).id → place' i' j' = place i j

/-- The places of calls between modules with given ids. -/
def placesOf (t : Table) (calls : ModuleId → ModuleId → Option Nat) (i j : Nat) : Option Nat :=
  calls (t.get i).id (t.get j).id

theorem samePlaces_placesOf (calls : ModuleId → ModuleId → Option Nat) :
    t.SamePlaces t' (t.placesOf calls) (t'.placesOf calls) := by
  intro i _ j _ i' _ j' _ hi hj
  rw [placesOf, placesOf, hi, hj]

section Relisted

variable (h : List.Forall₂ Record.Relisted t.modules t'.modules)
include h

theorem size_of_relisted : t'.size = t.size :=
  h.length_eq.symm

theorem get_of_relisted (i : Nat) : (t.get i).Relisted (t'.get i) := by
  by_cases hi : i < t.modules.length
  · have hi' : i < t'.modules.length := h.length_eq ▸ hi
    rw [get_eq_getElem hi, get_eq_getElem hi']
    exact h.get hi hi'
  · have hi' : ¬i < t'.modules.length := h.length_eq ▸ hi
    rw [get, get, List.getD_eq_default _ _ (Nat.le_of_not_lt hi),
      List.getD_eq_default _ _ (Nat.le_of_not_lt hi')]
    exact ⟨_, .refl _, rfl⟩

theorem indexOf?_of_relisted (id : ModuleId) : t'.indexOf? id = t.indexOf? id := by
  have hids : t'.modules.map (·.id) = t.modules.map (·.id) := by
    refine List.ext_getElem (by simp [h.length_eq]) fun i hi' hi => ?_
    rw [List.length_map] at hi hi'
    rw [List.getElem_map, List.getElem_map]
    exact (h.get hi hi').id_eq
  have hmap (t : Table) : t.indexOf? id = (t.modules.map (·.id)).findIdx? (· == id) := by
    rw [List.findIdx?_map]
    rfl
  rw [hmap, hmap, hids]

theorem internalDeps_perm_of_relisted (i : Nat) : (t'.internalDeps i).Perm (t.internalDeps i) := by
  obtain ⟨deps, hperm, heq⟩ := get_of_relisted h i
  rw [internalDeps, internalDeps, funext (indexOf?_of_relisted h), heq]
  exact hperm.symm.filterMap _

theorem ranked_of_relisted : t'.ranked = t.ranked := by
  have hle (i j : Nat) : (t'.get i).le (t'.get j) = (t.get i).le (t.get j) := by
    obtain ⟨_, -, hi⟩ := get_of_relisted h i
    obtain ⟨_, -, hj⟩ := get_of_relisted h j
    rw [hi, hj]
    rfl
  rw [ranked, ranked, size_of_relisted h]
  simp only [hle]

theorem visitDeps_of_relisted (hplace : ∀ i < t.size, ∀ j < t.size, place' i j = place i j) (i : Nat) :
    t'.visitDeps place' i = t.visitDeps place i := by
  have hperm : (t'.visitDeps place' i).Perm (t.visitDeps place i) :=
    (List.mergeSort_perm _ _).trans
      ((internalDeps_perm_of_relisted h i).trans (List.mergeSort_perm _ _).symm)
  have hlt {j : Nat} (hj : j ∈ t.visitDeps place i) : j < t.size := within_visitDeps i j hj
  have hsorted : (t'.visitDeps place' i).Pairwise fun j k => depLe (place i) t.ranked.idxOf j k := by
    refine (pairwise_visitDeps t' place' i).imp_of_mem fun {j k} hj hk hle => ?_
    have hj := hlt (hperm.mem_iff.mp hj)
    have hi : i < t.size := Nat.lt_of_not_le fun hsize => by
      rw [visitDeps, internalDeps_of_size_le (size_of_relisted h ▸ hsize)] at hk
      simp at hk
    rwa [ranked_of_relisted h,
      depLe_congr (hplace i hi j hj) (hplace i hi k (hlt (hperm.mem_iff.mp hk)))] at hle
  refine hperm.eq_of_pairwise (fun j k hj hk hjk hkj => ?_) hsorted (pairwise_visitDeps t place i)
  exact (List.idxOf_inj (mem_ranked.mpr (hlt (hperm.mem_iff.mp hj)))).mp (rank_eq_of_depLe hjk hkj)

theorem sorted_of_relisted (hplace : ∀ i < t.size, ∀ j < t.size, place' i j = place i j) :
    t'.sorted place' = t.sorted place := by
  rw [sorted_eq_walk, sorted_eq_walk, size_of_relisted h, ranked_of_relisted h,
    funext (visitDeps_of_relisted h hplace)]

end Relisted

theorem sorted_ids_of_rearranged (hids : t.DistinctIds) (h : t.Rearranged t')
    (hplace : t.SamePlaces t' place place') :
    (t'.sorted place').map (fun i => (t'.get i).id) = (t.sorted place).map fun i => (t.get i).id := by
  obtain ⟨modules, hperm, hrelisted⟩ := h
  obtain ⟨σ, hσ⟩ := Reindexed.exists_of_perm hperm
  have hinverse : Function.LeftInverse (Function.surjInv hσ.surjective) σ :=
    Function.leftInverse_surjInv ⟨hσ.injective, hσ.surjective⟩
  have hid (i : Nat) : (t'.get (σ i)).id = (t.get i).id := by
    rw [(get_of_relisted (t := ⟨modules⟩) hrelisted (σ i)).id_eq, hσ.get]
  -- the places of the first table by the numbers of the second one
  let moved (i j : Nat) : Option Nat :=
    place (Function.surjInv hσ.surjective i) (Function.surjInv hσ.surjective j)
  have hmoved : (Table.mk modules).sorted moved = (t.sorted place).map σ :=
    hσ.sorted_eq hids fun i j => by simp only [moved, hinverse i, hinverse j]
  have hsorted : t'.sorted place' = (Table.mk modules).sorted moved := by
    refine sorted_of_relisted hrelisted fun i' hi' j' hj' => ?_
    obtain ⟨i, rfl⟩ := hσ.surjective i'
    obtain ⟨j, rfl⟩ := hσ.surjective j'
    have hsize : t'.size = (Table.mk modules).size := size_of_relisted hrelisted
    simp only [moved, hinverse i, hinverse j]
    refine hplace i ?_ j ?_ (σ i) (hsize ▸ hi') (σ j) (hsize ▸ hj') (hid i) (hid j)
    · exact (hσ.lt_iff i).mp (hσ.size ▸ hi')
    · exact (hσ.lt_iff j).mp (hσ.size ▸ hj')
  rw [hsorted, hmoved, List.map_map]
  exact List.map_congr_left fun i _ => hid i

/-- The sort lists modules as a recursive depth-first search through all of them does that visits them
by rank, and the dependencies of each by the places of calls, those without a call last, and by rank.
So the order of ids depends neither on the order of the table nor on the order in which records list
their dependencies. -/
theorem sorted_depthFirst (t : Table) (place : Nat → Nat → Option Nat) :
    (∀ listed, (∃ seen, DepthFirst (t.visitDeps place) [] t.ranked listed seen) ↔
      listed = t.sorted place) ∧
    (t.ranked.Perm (List.range t.size) ∧
      t.ranked.Pairwise fun i j => (t.get i).le (t.get j)) ∧
    (∀ i, (t.visitDeps place i).Perm (t.internalDeps i) ∧
      (t.visitDeps place i).Pairwise fun j k => depLe (place i) t.ranked.idxOf j k) ∧
    ∀ t' place', t.DistinctIds → t.Rearranged t' → t.SamePlaces t' place place' →
      (t'.sorted place').map (fun i => (t'.get i).id) =
        (t.sorted place).map fun i => (t.get i).id := by
  refine ⟨fun _ => exists_depthFirst_iff, ⟨List.mergeSort_perm _ _, t.pairwise_ranked⟩, fun i => ?_, ?_⟩
  · exact ⟨List.mergeSort_perm _ _, t.pairwise_visitDeps place i⟩
  · exact fun t' place' hids h hplace => sorted_ids_of_rearranged hids h hplace

/-- The modules of `sharedDependency` in the opposite order, with the dependencies of one swapped. -/
def sharedDependencyRearranged : Table := ⟨[
  { id := .number 3, source := "", deps := [("./t", some (.number 3))] },
  { id := .number 2, source := "", deps := [("./y", some (.number 1))] },
  { id := .number 1, source := "", deps := [("./t", some (.number 3)), ("./x", some (.number 2))] }]⟩

theorem sorted_depthFirst_sharedDependency :
    let t := sharedDependency
    let t' := sharedDependencyRearranged
    let calls : ModuleId → ModuleId → Option Nat := fun importer id =>
      if importer = .number 1 ∧ id = .number 3 then some 14 else none
    t.DistinctIds ∧ t.Rearranged t' ∧ t.SamePlaces t' (t.placesOf calls) (t'.placesOf calls) ∧
      (t'.sorted (t'.placesOf calls)).map (fun i => (t'.get i).id) =
        (t.sorted (t.placesOf calls)).map fun i => (t.get i).id := by
  intro t t' calls
  have hids : t.DistinctIds := distinctIds_of_nodup (by decide)
  have hrearranged : t.Rearranged t' :=
    ⟨t.modules.reverse, (List.reverse_perm _).symm,
      .cons ⟨_, .refl _, rfl⟩ (.cons ⟨_, .refl _, rfl⟩ (.cons ⟨_, .swap .., rfl⟩ .nil))⟩
  have hplaces : t.SamePlaces t' (t.placesOf calls) (t'.placesOf calls) := samePlaces_placesOf calls
  exact ⟨hids, hrearranged, hplaces,
    (sorted_depthFirst t _).2.2.2 t' _ hids hrearranged hplaces⟩

end Table

end FlatBundle
