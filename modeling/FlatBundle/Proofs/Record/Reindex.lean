import FlatBundle.Proofs.Record.Ranking
import FlatBundle.Proofs.Record.Table
import Mathlib.Data.List.Nodup
import Mathlib.Data.List.Perm.Basic

/-!
Two tables of the same modules in different orders. Each module keeps its record and goes by another
number.
-/

namespace FlatBundle

/-- No two modules of a table have one id. -/
def Table.DistinctIds (t : Table) : Prop :=
  ∀ i < t.size, ∀ j < t.size, (t.get i).id = (t.get j).id → i = j

theorem Table.get_eq_getElem {t : Table} {i : Nat} (hi : i < t.modules.length) :
    t.get i = t.modules[i] := by
  rw [Table.get, List.getD_eq_getElem?_getD, List.getElem?_eq_getElem hi, Option.getD_some]

theorem Table.distinctIds_of_nodup {t : Table} (h : (t.modules.map (·.id)).Nodup) :
    t.DistinctIds := by
  intro i hi j hj hij
  rw [Table.get_eq_getElem hi, Table.get_eq_getElem hj] at hij
  refine (List.getElem?_inj (by rwa [List.length_map]) h).mp ?_
  rw [List.getElem?_map, List.getElem?_map, List.getElem?_eq_getElem hi,
    List.getElem?_eq_getElem hj]
  exact congrArg some hij

theorem Table.indexOf?_eq_some_iff {t : Table} {i : Nat} {id : ModuleId} (h : t.DistinctIds) :
    t.indexOf? id = some i ↔ i < t.size ∧ (t.get i).id = id := by
  rw [Table.indexOf?, List.findIdx?_eq_some_iff_getElem]
  constructor
  · rintro ⟨hi, hid, -⟩
    exact ⟨hi, by simpa [Table.get_eq_getElem hi] using hid⟩
  · rintro ⟨hi, hid⟩
    refine ⟨hi, by simpa [Table.get_eq_getElem hi] using hid, fun j hji hj => ?_⟩
    have hjlt : j < t.size := Nat.lt_trans hji hi
    have hjid : (t.get j).id = id := by
      rw [Table.get_eq_getElem hjlt]
      exact eq_of_beq hj
    exact Nat.ne_of_lt hji (h j hjlt i hi (hjid.trans hid.symm))

theorem Table.pairwise_ranked (t : Table) :
    t.ranked.Pairwise fun i j => (t.get i).le (t.get j) :=
  List.pairwise_mergeSort (fun i j k => Record.le_trans (t.get i) (t.get j) (t.get k))
    (fun i j => Record.le_total (t.get i) (t.get j)) _

/-- The same target by its other number. -/
def Target.reindex (σ : Nat → Nat) : Target → Target
  | internal i => internal (σ i)
  | external id => external id

/-- The module `i` of the table `t` is the module `σ i` of the table `t'`. -/
structure Reindexed (σ : Nat → Nat) (t t' : Table) : Prop where
  injective : Function.Injective σ
  surjective : Function.Surjective σ
  size : t'.size = t.size
  lt_iff : ∀ i, σ i < t.size ↔ i < t.size
  get : ∀ i, t'.get (σ i) = t.get i

namespace Reindexed

variable {σ τ : Nat → Nat} {t t' t'' : Table} {i : Nat}

theorem refl : Reindexed id t t :=
  ⟨Function.injective_id, Function.surjective_id, rfl, fun _ => .rfl, fun _ => rfl⟩

theorem trans (h : Reindexed σ t t') (h' : Reindexed τ t' t'') : Reindexed (τ ∘ σ) t t'' where
  injective := h'.injective.comp h.injective
  surjective := h'.surjective.comp h.surjective
  size := h'.size.trans h.size
  lt_iff i := by rw [Function.comp_apply, ← h.size, h'.lt_iff, h.size, h.lt_iff]
  get i := by rw [Function.comp_apply, h'.get, h.get]

/-- The same module in front of both tables. -/
def shift (σ : Nat → Nat) : Nat → Nat
  | 0 => 0
  | i + 1 => σ i + 1

theorem cons (r : Record) (h : Reindexed σ t t') :
    Reindexed (shift σ) ⟨r :: t.modules⟩ ⟨r :: t'.modules⟩ where
  injective i j hij := by
    cases i <;> cases j <;> simp only [shift] at hij
    · rfl
    · cases hij
    · cases hij
    · rw [h.injective (Nat.succ.inj hij)]
  surjective j := by
    cases j with
    | zero => exact ⟨0, rfl⟩
    | succ j =>
      obtain ⟨i, rfl⟩ := h.surjective j
      exact ⟨i + 1, rfl⟩
  size := congrArg (· + 1) h.size
  lt_iff i := by
    cases i with
    | zero => rfl
    | succ i => simpa [shift, Table.size] using h.lt_iff i
  get i := by
    cases i with
    | zero => rfl
    | succ i => exact h.get i

def swap : Nat → Nat
  | 0 => 1
  | 1 => 0
  | i + 2 => i + 2

theorem swap_swap : swap (swap i) = i := by
  match i with
  | 0 | 1 | _ + 2 => rfl

theorem swapped (r k : Record) (records : List Record) :
    Reindexed swap ⟨r :: k :: records⟩ ⟨k :: r :: records⟩ where
  injective := Function.LeftInverse.injective fun _ => swap_swap
  surjective := Function.RightInverse.surjective fun _ => swap_swap
  size := rfl
  lt_iff i := by
    match i with
    | 0 | 1 | _ + 2 => simp [swap, Table.size]
  get i := by
    match i with
    | 0 | 1 | _ + 2 => rfl

theorem exists_of_perm {records records' : List Record} (h : records.Perm records') :
    ∃ σ, Reindexed σ ⟨records⟩ ⟨records'⟩ := by
  induction h with
  | nil => exact ⟨id, refl⟩
  | cons r _ ih =>
    obtain ⟨σ, hσ⟩ := ih
    exact ⟨shift σ, hσ.cons r⟩
  | swap r k records => exact ⟨swap, swapped k r records⟩
  | trans _ _ ih ih' =>
    obtain ⟨σ, hσ⟩ := ih
    obtain ⟨τ, hτ⟩ := ih'
    exact ⟨τ ∘ σ, hσ.trans hτ⟩

theorem perm_range (h : Reindexed σ t t') :
    ((List.range t.size).map σ).Perm (List.range t'.size) := by
  refine (List.perm_ext_iff_of_nodup (.map h.injective List.nodup_range) List.nodup_range).mpr
    fun j => ?_
  obtain ⟨i, rfl⟩ := h.surjective j
  rw [List.mem_map_of_injective h.injective, List.mem_range, List.mem_range, h.size, h.lt_iff]

theorem distinctIds (h : Reindexed σ t t') (hids : t.DistinctIds) : t'.DistinctIds := by
  intro i' hi' j' hj' hij
  obtain ⟨i, rfl⟩ := h.surjective i'
  obtain ⟨j, rfl⟩ := h.surjective j'
  rw [h.size, h.lt_iff] at hi' hj'
  rw [h.get, h.get] at hij
  exact congrArg σ (hids i hi' j hj' hij)

theorem indexOf?_eq (h : Reindexed σ t t') (hids : t.DistinctIds) (id : ModuleId) :
    t'.indexOf? id = (t.indexOf? id).map σ := by
  refine Option.ext fun j => ?_
  obtain ⟨i, rfl⟩ := h.surjective j
  rw [Table.indexOf?_eq_some_iff (h.distinctIds hids), h.size, h.lt_iff, h.get,
    ← Table.indexOf?_eq_some_iff hids, Option.map_eq_some_iff]
  constructor
  · exact fun hi => ⟨i, hi, rfl⟩
  · rintro ⟨k, hk, hki⟩
    rwa [← h.injective hki]

theorem internalDeps_eq (h : Reindexed σ t t') (hids : t.DistinctIds) (i : Nat) :
    t'.internalDeps (σ i) = (t.internalDeps i).map σ := by
  rw [Table.internalDeps, Table.internalDeps, h.get, List.map_filterMap]
  refine congrArg (List.filterMap · _) (funext fun dep => ?_)
  obtain ⟨specifier, _ | id⟩ := dep
  · rfl
  · exact h.indexOf?_eq hids id

theorem resolve_eq (h : Reindexed σ t t') (hids : t.DistinctIds) (i : Nat) (specifier : String) :
    t'.resolve (σ i) specifier = (t.resolve i specifier).reindex σ := by
  rw [Table.resolve, Table.resolve, h.get]
  split
  · rename_i id _
    rw [h.indexOf?_eq hids]
    cases t.indexOf? id <;> rfl
  · rfl

/-- The numbers that modules have by their rank change along. -/
theorem ranked_eq (h : Reindexed σ t t') (hids : t.DistinctIds) :
    t'.ranked = t.ranked.map σ := by
  have hperm : t'.ranked.Perm (t.ranked.map σ) :=
    (List.mergeSort_perm _ _).trans (h.perm_range.symm.trans
      ((List.mergeSort_perm _ _).symm.map σ))
  have hsorted : (t.ranked.map σ).Pairwise fun i j => (t'.get i).le (t'.get j) := by
    rw [List.pairwise_map]
    simp only [h.get]
    exact t.pairwise_ranked
  refine hperm.eq_of_pairwise (fun i j hi hj hij hji => ?_) t'.pairwise_ranked hsorted
  have hlt {k : Nat} (hk : k ∈ t'.ranked) : k < t'.size :=
    List.mem_range.mp (List.mem_mergeSort.mp hk)
  exact h.distinctIds hids i (hlt hi) j (hlt (hperm.mem_iff.mpr hj)) (Record.id_eq_of_le hij hji)

end Reindexed

section Records

variable {records records' : List Record} {t t' : Table}

theorem restoreSource_perm (h : records.Perm records')
    (htexts : (records.map (·.id.text)).Nodup) (r : Record) :
    restoreSource records' r = restoreSource records r := by
  have hfind (target : String) :
      records'.find? (·.id.text == target) = records.find? (·.id.text == target) := by
    cases hfound : records.find? (·.id.text == target) with
    | none =>
      rw [List.find?_eq_none] at hfound ⊢
      exact fun k hk => hfound k (h.mem_iff.mpr hk)
    | some twin =>
      have htwin : twin.id.text = target := by simpa using List.find?_some hfound
      obtain ⟨k, hk⟩ : ∃ k, records'.find? (·.id.text == target) = some k :=
        Option.isSome_iff_exists.mp (List.find?_isSome.mpr
          ⟨twin, h.mem_iff.mp (List.mem_of_find?_eq_some hfound), by simpa using htwin⟩)
      have hktext : k.id.text = target := by simpa using List.find?_some hk
      rw [hk, List.inj_on_of_nodup_map htexts (h.mem_iff.mpr (List.mem_of_find?_eq_some hk))
        (List.mem_of_find?_eq_some hfound) (hktext.trans htwin.symm)]
  unfold restoreSource
  split
  · rfl
  · rw [hfind]

theorem id_of_restoreSource {r r' : Record} (h : restoreSource records r = .ok r') :
    r'.id = r.id := by
  unfold restoreSource at h
  split at h
  · cases h
    rfl
  · split at h
    · cases h
      rfl
    · cases h

theorem ids_of_map_restoreSource {restored : List Record}
    (h : records'.map (restoreSource records) = restored.map .ok) :
    restored.map (·.id) = records'.map (·.id) := by
  induction records' generalizing restored with
  | nil => rw [List.map_eq_nil_iff.mp h.symm, List.map_nil]
  | cons r records' ih =>
    obtain ⟨r', rest, rfl, hr', hrest⟩ := List.map_eq_cons_iff.mp h.symm
    rw [List.map_cons, List.map_cons, id_of_restoreSource hr'.symm, ih hrest.symm]

theorem Table.distinctIds_of_ofRecords (ht : Table.ofRecords records = .ok t) : t.DistinctIds :=
  have ⟨hnodup, hrestored⟩ := Table.ofRecords_eq_ok_iff.mp ht
  Table.distinctIds_of_nodup (ids_of_map_restoreSource hrestored ▸ hnodup)

/-- Records in a different order have a table if these do, of the same modules. -/
theorem Table.exists_ofRecords_perm (h : records.Perm records')
    (htexts : (records.map (·.id.text)).Nodup) (ht : Table.ofRecords records = .ok t) :
    ∃ t', Table.ofRecords records' = .ok t' ∧ t.modules.Perm t'.modules := by
  obtain ⟨hnodup, hrestored⟩ := Table.ofRecords_eq_ok_iff.mp ht
  have hrestore : restoreSource records' = restoreSource records :=
    funext (restoreSource_perm h htexts)
  obtain ⟨t', ht'⟩ : ∃ t', Table.ofRecords records' = .ok t' := by
    refine Table.exists_ofRecords_iff.mpr ⟨(h.map _).nodup_iff.mp hnodup, fun r hr => ?_⟩
    rw [hrestore]
    exact (Table.exists_ofRecords_iff.mp ⟨t, ht⟩).2 r (h.mem_iff.mpr hr)
  refine ⟨t', ht', ?_⟩
  have hok : Function.Injective (.ok : Record → Except BuildError Record) := fun _ _ heq =>
    Except.ok.inj heq
  rw [← List.map_perm_map_iff hok, ← hrestored, ← (Table.ofRecords_eq_ok_iff.mp ht').2, hrestore]
  exact h.map _

end Records

end FlatBundle
