import FlatBundle.Proofs.Link.Dependency
import FlatBundle.Record.Table

/-!
Tables of modules: which lists of records have one, and what it says about dependencies.
-/

namespace FlatBundle

section Results

variable {ε α β : Type} {results : List (Except ε α)}

theorem partitionResults_fst_eq_nil :
    (partitionResults results).1 = [] ↔ ∀ r ∈ results, ∃ a, r = .ok a := by
  induction results with
  | nil => simp [partitionResults]
  | cons r results ih => cases r <;> simp [partitionResults, ih]

theorem map_ok_partitionResults (h : (partitionResults results).1 = []) :
    (partitionResults results).2.map Except.ok = results := by
  induction results with
  | nil => rfl
  | cons r results ih =>
    cases r with
    | ok a => simpa [partitionResults] using ih h
    | error e => simp [partitionResults] at h

def failure? : Except ε α → Option ε
  | .ok _ => none
  | .error e => some e

theorem partitionResults_fst_eq : (partitionResults results).1 = results.filterMap failure? := by
  induction results with
  | nil => rfl
  | cons r results ih =>
    cases r with
    | ok a => exact ih
    | error e => exact congrArg (e :: ·) ih

theorem partitionResults_map_ok (xs : List α) :
    partitionResults (xs.map fun a => (.ok a : Except ε α)) = ([], xs) := by
  induction xs with
  | nil => rfl
  | cons x xs ih => rw [List.map_cons, partitionResults, ih]

/-- All successes, or else all failures. -/
def allResults (results : List (Except ε α)) : Except (List ε) (List α) :=
  match partitionResults results with
  | ([], xs) => .ok xs
  | (errors, _) => .error errors

theorem allResults_eq_ok_iff {xs : List α} :
    allResults results = .ok xs ↔ results = xs.map .ok := by
  constructor
  · intro h
    unfold allResults at h
    split at h
    · rename_i hparts
      cases h
      have hall := map_ok_partitionResults (congrArg Prod.fst hparts)
      rw [hparts] at hall
      exact hall.symm
    · cases h
  · rintro rfl
    rw [allResults, partitionResults_map_ok]

theorem exists_allResults_iff :
    (∃ xs, allResults results = .ok xs) ↔ ∀ r ∈ results, ∃ a, r = .ok a := by
  simp only [allResults_eq_ok_iff]
  constructor
  · rintro ⟨xs, rfl⟩ r hr
    obtain ⟨a, -, rfl⟩ := List.mem_map.mp hr
    exact ⟨a, rfl⟩
  · exact fun h => ⟨_, (map_ok_partitionResults (partitionResults_fst_eq_nil.mpr h)).symm⟩

theorem allResults_error (h : results.filterMap failure? ≠ []) :
    allResults results = .error (results.filterMap failure?) := by
  rw [← partitionResults_fst_eq] at h ⊢
  unfold allResults
  split
  · rename_i hparts
    exact absurd (congrArg Prod.fst hparts) h
  · rename_i hparts
    rw [hparts]

end Results

section Records

variable {seen : List ModuleId} {records : List Record} {r : Record}

theorem separateRepeats_of_nodup (hseen : ∀ r ∈ records, r.id ∉ seen)
    (h : (records.map (·.id)).Nodup) : separateRepeats seen records = (records, []) := by
  induction records generalizing seen with
  | nil => rfl
  | cons r records ih =>
    obtain ⟨hr, hrest⟩ := List.nodup_cons.mp h
    have hseen' : ∀ k ∈ records, k.id ∉ r.id :: seen := fun k hk hmem => by
      rcases List.mem_cons.mp hmem with heq | hmem
      · exact hr (List.mem_map.mpr ⟨k, hk, heq⟩)
      · exact hseen k (List.mem_cons_of_mem _ hk) hmem
    rw [separateRepeats, if_neg (by simpa using hseen r (List.mem_cons_self ..)), ih hseen' hrest]

theorem nodup_of_separateRepeats (h : (separateRepeats seen records).2 = []) :
    (∀ r ∈ records, r.id ∉ seen) ∧ (records.map (·.id)).Nodup := by
  induction records generalizing seen with
  | nil => exact ⟨nofun, List.nodup_nil⟩
  | cons r records ih =>
    rw [separateRepeats] at h
    split at h
    · cases h
    · rename_i hr
      obtain ⟨hseen, hnodup⟩ := ih h
      refine ⟨fun k hk => ?_, List.nodup_cons.mpr ⟨fun hmem => ?_, hnodup⟩⟩
      · rcases List.mem_cons.mp hk with rfl | hk
        · simpa using hr
        · exact fun hmem => hseen k hk (List.mem_cons_of_mem _ hmem)
      · obtain ⟨k, hk, heq⟩ := List.mem_map.mp hmem
        exact hseen k hk (heq ▸ List.mem_cons_self ..)

/-- A body can be put back if there is a module that its marker names. -/
theorem exists_restoreSource_iff :
    (∃ r', restoreSource records r = .ok r') ↔
      ∀ target, duplicateOf? r.source = some target → ∃ twin ∈ records, twin.id.text = target := by
  unfold restoreSource
  cases hmarker : duplicateOf? r.source with
  | none => simp
  | some target =>
    simp only [Option.some.injEq, forall_eq']
    cases hfind : records.find? (·.id.text == target) with
    | none =>
      have hnone : ∀ k ∈ records, k.id.text ≠ target := by simpa using hfind
      refine ⟨?_, fun ⟨twin, htwin, heq⟩ => absurd heq (hnone twin htwin)⟩
      rintro ⟨_, h⟩
      cases h
    | some twin =>
      exact ⟨fun _ => ⟨twin, List.mem_of_find?_eq_some hfind, by simpa using List.find?_some hfind⟩,
        fun _ => ⟨_, rfl⟩⟩

end Records

namespace Table

variable {t : Table} {id : ModuleId} {i : Nat}

/-- The modules of a table are the records that it was made of, in their order and with their
bodies. -/
theorem ofRecords_eq_ok_iff {records : List Record} :
    ofRecords records = .ok t ↔ (records.map (·.id)).Nodup ∧
      records.map (restoreSource records) = t.modules.map .ok := by
  constructor
  · intro h
    unfold ofRecords at h
    dsimp only at h
    split at h
    · rename_i hnil
      obtain ⟨hrepeats, hdangling⟩ := List.append_eq_nil_iff.mp hnil
      obtain ⟨-, hnodup⟩ := nodup_of_separateRepeats (List.map_eq_nil_iff.mp hrepeats)
      rw [separateRepeats_of_nodup (by simp) hnodup] at hdangling h
      cases h
      exact ⟨hnodup, (map_ok_partitionResults hdangling).symm⟩
    · cases h
  · rintro ⟨hnodup, hrestored⟩
    unfold ofRecords
    rw [separateRepeats_of_nodup (by simp) hnodup]
    dsimp only
    rw [hrestored, partitionResults_map_ok]
    rfl

theorem exists_ofRecords_iff {records : List Record} :
    (∃ t, ofRecords records = .ok t) ↔ (records.map (·.id)).Nodup ∧
      ∀ r ∈ records, ∃ r', restoreSource records r = .ok r' := by
  constructor
  · rintro ⟨t, ht⟩
    obtain ⟨hnodup, hrestored⟩ := ofRecords_eq_ok_iff.mp ht
    refine ⟨hnodup, fun r hr => ?_⟩
    have hmem : restoreSource records r ∈ t.modules.map .ok :=
      hrestored ▸ List.mem_map_of_mem hr
    obtain ⟨r', -, hr'⟩ := List.mem_map.mp hmem
    exact ⟨r', hr'.symm⟩
  · rintro ⟨hnodup, hall⟩
    refine ⟨⟨(partitionResults (records.map (restoreSource records))).2⟩,
      ofRecords_eq_ok_iff.mpr ⟨hnodup, (map_ok_partitionResults ?_).symm⟩⟩
    refine partitionResults_fst_eq_nil.mpr fun result hresult => ?_
    obtain ⟨r, hr, rfl⟩ := List.mem_map.mp hresult
    exact hall r hr

theorem lt_size_of_indexOf? (h : t.indexOf? id = some i) : i < t.size := by
  obtain ⟨hi, -⟩ := List.findIdx?_eq_some_iff_getElem.mp h
  exact hi

theorem mem_internalDeps {j : Nat} :
    j ∈ t.internalDeps i ↔
      ∃ specifier id, (specifier, some id) ∈ (t.get i).deps ∧ t.indexOf? id = some j := by
  simp only [internalDeps, List.mem_filterMap, Prod.exists]
  constructor
  · rintro ⟨specifier, id?, hmem, hid⟩
    obtain ⟨id, rfl, hid⟩ := Option.bind_eq_some_iff.mp hid
    exact ⟨specifier, id, hmem, hid⟩
  · rintro ⟨specifier, id, hmem, hid⟩
    exact ⟨specifier, some id, hmem, hid⟩

theorem internalDeps_of_size_le (hi : t.size ≤ i) : t.internalDeps i = [] := by
  rw [internalDeps, get, List.getD_eq_getElem?_getD, List.getElem?_eq_none hi]
  rfl

theorem within_internalDeps : Within t.size t.internalDeps := by
  intro i j hj
  obtain ⟨_, _, _, hid⟩ := mem_internalDeps.mp hj
  exact lt_size_of_indexOf? hid

end Table

end FlatBundle
