import FlatBundle.Proofs.Record.Table
import FlatBundle.Link.Facts

/-!
The scan of a table: it gives the facts about each module, or says which modules are no scripts.
-/

namespace FlatBundle

/-- Whether the source of a module is a script. -/
def Record.Parses (r : Record) : Prop :=
  (Script.Program.parse? r.source).isSome

instance (r : Record) : Decidable r.Parses :=
  inferInstanceAs (Decidable (_ = true))

variable {t : Table} {modules : List ModuleFacts} {i : Nat}

theorem Record.parses_iff {r : Record} : r.Parses ↔ ∃ a, Analysis.ofSource? r.source = some a := by
  rw [Parses, ← Option.isSome_iff_exists, Analysis.ofSource?, Option.isSome_map]

/-- What the scan makes of one module. -/
def scanned (t : Table) (r : Record) (i : Nat) : Except BuildError ModuleFacts :=
  match Analysis.ofSource? r.source with
  | some analysis => .ok (ModuleFacts.ofAnalysis t i analysis)
  | none => .error (BuildError.unparsable r.label)

theorem scanModules_eq :
    scanModules t = allResults (t.modules.zipIdx.map fun p => scanned t p.1 p.2) := by
  let results := t.modules.zipIdx.map fun p => scanned t p.1 p.2
  unfold scanModules allResults
  dsimp only
  split
  · rename_i facts hparts
    rw [show partitionResults results = ([], facts) from hparts]
  · rename_i errors facts hne hparts
    rw [show partitionResults results = (errors, facts) from hparts]
    cases errors with
    | nil => exact absurd rfl hne
    | cons error errors => rfl

theorem scanned_eq_ok {r : Record} {m : ModuleFacts} (h : scanned t r i = .ok m) :
    ∃ a, Analysis.ofSource? r.source = some a ∧ m = .ofAnalysis t i a := by
  unfold scanned at h
  split at h
  · rename_i a ha
    cases h
    exact ⟨a, ha, rfl⟩
  · cases h

theorem failure?_scanned {r : Record} : failure? (scanned t r i) =
    if ¬r.Parses then some (BuildError.unparsable r.label) else none := by
  unfold scanned
  cases ha : Analysis.ofSource? r.source with
  | none => rw [if_pos (by simp [Record.parses_iff, ha])]; rfl
  | some a => rw [if_neg (not_not_intro (Record.parses_iff.mpr ⟨a, ha⟩))]; rfl

theorem filterMap_scanned :
    (t.modules.zipIdx.map fun p => scanned t p.1 p.2).filterMap failure? =
      (t.modules.filter fun r => ¬r.Parses).map fun r => .unparsable r.label := by
  let error? (r : Record) := if ¬r.Parses then some (BuildError.unparsable r.label) else none
  have hindex : t.modules.filterMap error? = t.modules.zipIdx.filterMap (error? ∘ Prod.fst) := by
    rw [← List.filterMap_map, List.zipIdx_map_fst]
  have hfilter : t.modules.filterMap error? =
      (t.modules.filter fun r => ¬r.Parses).map fun r => .unparsable r.label := by
    rw [← List.filterMap_eq_map, List.filterMap_filter]
    simp [error?]
  rw [List.filterMap_map, ← hfilter, hindex]
  exact congrArg (List.filterMap · _) (funext fun _ => failure?_scanned)

/-- The scan fails with each module that is no script, in the order of the table. -/
theorem scanModules_error (h : ∃ r ∈ t.modules, ¬r.Parses) : scanModules t =
    .error ((t.modules.filter fun r => ¬r.Parses).map fun r => .unparsable r.label) := by
  rw [scanModules_eq, ← filterMap_scanned]
  refine allResults_error ?_
  rw [filterMap_scanned, Ne, List.map_eq_nil_iff, List.filter_eq_nil_iff]
  simpa using h

theorem exists_scanModules (h : ∀ r ∈ t.modules, r.Parses) :
    ∃ modules, scanModules t = .ok modules := by
  rw [scanModules_eq, exists_allResults_iff]
  intro result hresult
  obtain ⟨⟨r, i⟩, hmem, rfl⟩ := List.mem_map.mp hresult
  obtain ⟨a, ha⟩ := Record.parses_iff.mp (h r (List.fst_mem_of_mem_zipIdx hmem))
  exact ⟨.ofAnalysis t i a, by simp only [scanned, ha]⟩

theorem exists_scanModules_iff :
    (∃ modules, scanModules t = .ok modules) ↔ ∀ r ∈ t.modules, r.Parses := by
  refine ⟨fun ⟨modules, hmodules⟩ => ?_, exists_scanModules⟩
  refine fun r hr => Decidable.byContradiction fun hnot => ?_
  rw [scanModules_error ⟨r, hr, hnot⟩] at hmodules
  cases hmodules

/-- The scan gives the facts about each module in its place. -/
theorem get_of_scanModules (h : scanModules t = .ok modules) (hi : i < t.size) :
    ∃ a, Analysis.ofSource? (t.get i).source = some a ∧
      modules.getD i default = .ofAnalysis t i a := by
  rw [scanModules_eq, allResults_eq_ok_iff] at h
  have hget := congrArg (·[i]?) h
  simp only [List.getElem?_map, List.getElem?_zipIdx] at hget
  have hi : i < t.modules.length := hi
  rw [List.getElem?_eq_getElem hi, Option.map_some, Option.map_some, Nat.zero_add] at hget
  obtain ⟨m, hm, hscanned⟩ := Option.map_eq_some_iff.mp hget.symm
  obtain ⟨a, ha, rfl⟩ := scanned_eq_ok hscanned.symm
  refine ⟨a, ?_, by rw [List.getD_eq_getElem?_getD, hm, Option.getD_some]⟩
  rwa [Table.get, List.getD_eq_getElem?_getD, List.getElem?_eq_getElem hi]

/-- The facts about a module are those of its script. -/
theorem exists_parse?_of_scanModules (h : scanModules t = .ok modules) (hi : i < t.size) :
    ∃ p, Script.Program.parse? (t.get i).source = some p ∧
      modules.getD i default = .ofAnalysis t i (.ofProgram p (t.get i).source) := by
  obtain ⟨a, ha, hfacts⟩ := get_of_scanModules h hi
  obtain ⟨p, hp, rfl⟩ := Option.map_eq_some_iff.mp ha
  exact ⟨p, hp, hfacts⟩

theorem mem_toOption_scanModules :
    modules ∈ (scanModules t).toOption ↔ scanModules t = .ok modules := by
  cases scanModules t <;> simp [Except.toOption]

theorem length_of_scanModules (h : scanModules t = .ok modules) : modules.length = t.size := by
  rw [scanModules_eq, allResults_eq_ok_iff] at h
  simpa [Table.size] using (congrArg List.length h).symm

theorem exists_of_mem_scanModules {m : ModuleFacts} (h : scanModules t = .ok modules)
    (hm : m ∈ modules) :
    ∃ i < t.size, ∃ a, Analysis.ofSource? (t.get i).source = some a ∧ m = .ofAnalysis t i a := by
  obtain ⟨i, hi, rfl⟩ := List.getElem_of_mem hm
  have hlt : i < t.size := length_of_scanModules h ▸ hi
  obtain ⟨a, ha, hfacts⟩ := get_of_scanModules h hlt
  rw [List.getD_eq_getElem?_getD, List.getElem?_eq_getElem hi, Option.getD_some] at hfacts
  exact ⟨i, hlt, a, ha, hfacts⟩

theorem exists_mem_modules_iff {P : ModuleFacts → Prop} (h : scanModules t = .ok modules) :
    (∃ m ∈ modules, P m) ↔ ∃ i < t.size, P (modules.getD i default) := by
  have hget {i : Nat} (hi : i < modules.length) : modules.getD i default = modules[i] := by
    rw [List.getD_eq_getElem?_getD, List.getElem?_eq_getElem hi, Option.getD_some]
  rw [← length_of_scanModules h]
  constructor
  · rintro ⟨m, hm, hP⟩
    obtain ⟨i, hi, rfl⟩ := List.getElem_of_mem hm
    exact ⟨i, hi, hget hi ▸ hP⟩
  · rintro ⟨i, hi, hP⟩
    exact ⟨modules[i], List.getElem_mem hi, hget hi ▸ hP⟩

end FlatBundle
