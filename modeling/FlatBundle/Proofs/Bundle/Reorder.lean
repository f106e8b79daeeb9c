import FlatBundle.Proofs.Bundle.Build
import FlatBundle.Proofs.Link.Reindex
import Mathlib

/-!
A bundle of the same modules in a different order of the records.
-/

namespace FlatBundle

variable {σ : Nat → Nat} {l l' : Linked} {m : ModuleFacts} {options : Options} {names : LoaderNames}
  {i : Nat}

section Pieces

theorem LinkedReindexed.exportsOf_eq (h : LinkedReindexed σ l l') (i : Nat) :
    l'.exportsOf (σ i) = l.exportsOf i := by
  rw [Linked.exportsOf, Linked.exportsOf, h.isOnDemand, h.facts]
  rfl

theorem requirementEdits_reindex (h : LinkedReindexed σ l l') {gone : List Script.Span}
    {qs : List Requirement} :
    requirementEdits l' (m.reindex σ) gone (qs.map (.reindex σ)) = requirementEdits l m gone qs := by
  induction qs generalizing gone with
  | nil => rfl
  | cons q qs ih =>
    obtain ⟨call, target⟩ := q
    cases target with
    | external id => exact congrArg (_ :: ·) ih
    | internal i =>
      rw [List.map_cons, Requirement.reindex, Target.reindex, requirementEdits, requirementEdits,
        h.isOnDemand, h.exportsOf_eq, ih, ih]
      rfl

theorem moduleEdits_reindex (h : LinkedReindexed σ l l') (i : Nat) :
    moduleEdits l' (σ i) = moduleEdits l i := by
  rw [moduleEdits, moduleEdits, h.facts, h.isOnDemand, h.renamedBindings]
  exact congrArg (_ ++ ·) (requirementEdits_reindex h)

theorem placedEdits_reindex (h : LinkedReindexed σ l l') (i : Nat) :
    placedEdits options l' (σ i) = placedEdits options l i := by
  rw [placedEdits, placedEdits, moduleEdits_reindex h, h.facts]
  rfl

theorem moduleFrame_reindex (h : LinkedReindexed σ l l') (i : Nat) :
    moduleFrame l' names (σ i) = moduleFrame l names i := by
  rw [moduleFrame, moduleFrame, h.facts, h.isOnDemand]
  rfl

theorem placeModule_reindex (h : LinkedReindexed σ l l') (i : Nat) :
    placeModule options l' names (σ i) = placeModule options l names i := by
  rw [placeModule_eq, placeModule_eq, placedEdits_reindex h, moduleFrame_reindex h, h.facts]
  rfl

theorem placeModules_reindex (h : LinkedReindexed σ l l') :
    placeModules options l' names = placeModules options l names := by
  rw [placeModules, placeModules, h.order, List.map_map]
  simp only [Function.comp_def, placeModule_reindex h, h.facts]
  rfl

end Pieces

section Lines

theorem startLine?_reindex (h : LinkedReindexed σ l l') (i : Nat) :
    startLine? l' (σ i) = startLine? l i := by
  rw [startLine?, startLine?, h.facts, h.isOnDemand]
  rfl

theorem outwardLine?_reindex (h : LinkedReindexed σ l l') (i : Nat) :
    outwardLine? options l' names (σ i) = outwardLine? options l names i := by
  rw [outwardLine?, outwardLine?, exposeLine, exposeLine, h.exportsOf_eq, h.facts, h.isOnDemand]
  rfl

theorem exposes_reindex (h : LinkedReindexed σ l l') : exposes l' = exposes l := by
  rw [exposes, exposes, h.order, List.any_map]
  simp only [Function.comp_def, h.facts]
  rfl

theorem wrapperLines_reindex (h : LinkedReindexed σ l l') :
    wrapperLines options l' names = wrapperLines options l names := by
  have houter : outerLines options l' names = outerLines options l names := by
    rw [outerLines, outerLines, exposes_reindex h]
  rw [wrapperLines, wrapperLines, houter, h.none_onDemand, h.order, List.filterMap_map,
    List.filterMap_map]
  simp only [Function.comp_def, startLine?_reindex h, outwardLine?_reindex h]

/-- Which names are in use depends on the sources, and not on their order. -/
theorem unusedName_perm {sources sources' : List (List Char)} (h : sources'.Perm sources)
    (base : String) : unusedName sources' base = unusedName sources base := by
  have hany (p : List Char → Bool) : sources'.any p = sources.any p := by
    rw [Bool.eq_iff_iff, List.any_eq_true, List.any_eq_true]
    simp only [h.mem_iff]
  have hlength : sources'.flatten.length = sources.flatten.length := h.flatten.length_eq
  rw [unusedName, unusedName]
  simp only [hany, hlength]

theorem loaderNames_reindex (h : LinkedReindexed σ l l') :
    LoaderNames.ofModules l'.modules = LoaderNames.ofModules l.modules := by
  have hsources : (l'.modules.map (·.record.source.toList)).Perm
      (l.modules.map (·.record.source.toList)) := by
    refine (h.modules.map _).trans (.of_eq ?_)
    rw [List.map_map]
    rfl
  rw [LoaderNames.ofModules, LoaderNames.ofModules, unusedName_perm hsources,
    unusedName_perm hsources]

end Lines

section Bundles

variable {records records' : List Record} {t t' : Table} {modules modules' : List ModuleFacts}

theorem builtBundle_reindex {l l' : Linked} {pieces : List Piece} (h : LinkedReindexed σ l l') :
    (builtBundle options l' pieces).code = (builtBundle options l pieces).code ∧
      (builtBundle options l' pieces).map = (builtBundle options l pieces).map := by
  have hlines : wrapperLines options l' (LoaderNames.ofModules l'.modules) =
      wrapperLines options l (LoaderNames.ofModules l.modules) := by
    rw [wrapperLines_reindex h, loaderNames_reindex h]
  constructor
  · rw [builtBundle, builtBundle, hlines]
  · rw [builtBundle, builtBundle, hlines]

/-- Modules that go together in the same way make the same bundle. -/
theorem bundle_reindex (ht : Table.ofRecords records = .ok t) (hm : scanModules t = .ok modules)
    (ht' : Table.ofRecords records' = .ok t') (hm' : scanModules t' = .ok modules')
    (h : LinkedReindexed σ (.ofModules t modules) (.ofModules t' modules')) {b b' : BuiltBundle}
    (hb : bundle options records = .ok b) (hb' : bundle options records' = .ok b') :
    b'.code = b.code ∧ b'.map = b.map := by
  obtain ⟨pieces, hpieces⟩ : ∃ pieces, placeModules options (.ofModules t modules)
      (LoaderNames.ofModules modules) = .ok pieces := exists_placeModules _ hm
  have hpieces' : placeModules options (.ofModules t' modules') (LoaderNames.ofModules modules') =
      .ok pieces := by
    rw [placeModules_reindex h, show LoaderNames.ofModules modules' = LoaderNames.ofModules modules
      from loaderNames_reindex h, hpieces]
  rw [bundle_of_placed ht hm hpieces] at hb
  rw [bundle_of_placed ht' hm' hpieces'] at hb'
  cases hb
  cases hb'
  exact builtBundle_reindex h

theorem exists_bundle_perm (h : records.Perm records') (htexts : (records.map (·.id.text)).Nodup)
    (hb : ∃ b, bundle options records = .ok b) : ∃ b, bundle options records' = .ok b := by
  obtain ⟨t, ht, hparse⟩ := exists_bundle_iff.mp hb
  obtain ⟨t', ht', hperm⟩ := Table.exists_ofRecords_perm h htexts ht
  exact exists_bundle_iff.mpr ⟨t', ht', fun r hr => hparse r (hperm.mem_iff.mpr hr)⟩

/-- The tables of two lists of the same records, one list in a different order. -/
theorem exists_reindexed (h : records.Perm records') (htexts : (records.map (·.id.text)).Nodup)
    (ht : Table.ofRecords records = .ok t) (ht' : Table.ofRecords records' = .ok t') :
    ∃ σ, Reindexed σ t t' := by
  obtain ⟨t'', ht'', hperm⟩ := Table.exists_ofRecords_perm h htexts ht
  rw [ht'] at ht''
  cases ht''
  exact Reindexed.exists_of_perm hperm

/-- If the same modules run on demand, they do so by their other numbers. -/
theorem isOnDemand_eq_of_ids (h : Reindexed σ t t') (hids : t.DistinctIds)
    (hm : scanModules t = .ok modules) (hm' : scanModules t' = .ok modules')
    (hsame : ∀ id, id ∈ (Linked.ofModules t modules).onDemandIds t ↔
      id ∈ (Linked.ofModules t' modules').onDemandIds t') (i : Nat) :
    (Linked.ofModules t' modules').isOnDemand (σ i) = (Linked.ofModules t modules).isOnDemand i := by
  rw [Bool.eq_iff_iff]
  by_cases hi : i < t.size
  · have hi' : σ i < t'.size := h.size ▸ (h.lt_iff i).mpr hi
    rw [Linked.isOnDemand_iff_mem_ids (h.distinctIds hids) hm' hi',
      Linked.isOnDemand_iff_mem_ids hids hm hi, h.get, hsame]
  · have hi' : ¬σ i < t'.size := by rwa [h.size, h.lt_iff]
    exact ⟨fun hd => absurd (Linked.lt_size_of_isOnDemand hm' hd) hi',
      fun hd => absurd (Linked.lt_size_of_isOnDemand hm hd) hi⟩

theorem plan_reindex (h : Reindexed σ t t')
    (hl : LinkedReindexed σ (.ofModules t modules) (.ofModules t' modules')) :
    (Linked.ofModules t' modules').plan t' = (Linked.ofModules t modules).plan t := by
  rw [Linked.plan, Linked.plan, hl.order, List.map_map]
  refine List.map_congr_left fun i _ => ?_
  rw [Function.comp_apply, h.get, hl.isOnDemand]

/-- The order of the records decides neither whether there is a bundle nor, if the same modules run on
demand, how the modules go together and what the bundle is. They do run on demand in both orders once
the search misses no module on a cycle. -/
theorem bundle_perm (options : Options) {records records' : List Record} (h : records.Perm records')
    (htexts : (records.map (·.id.text)).Nodup) :
    ((∃ b, bundle options records = .ok b) ↔ ∃ b, bundle options records' = .ok b) ∧
    ∀ t modules t' modules', Table.ofRecords records = .ok t → scanModules t = .ok modules →
      Table.ofRecords records' = .ok t' → scanModules t' = .ok modules' →
      let l := Linked.ofModules t modules
      let l' := Linked.ofModules t' modules'
      (l'.plan t' = l.plan t ↔ ∀ id, id ∈ l.onDemandIds t ↔ id ∈ l'.onDemandIds t') ∧
      (l'.plan t' = l.plan t → ∀ b b', bundle options records = .ok b →
        bundle options records' = .ok b' → b'.code = b.code ∧ b'.map = b.map) ∧
      (t.CyclesFound → t'.CyclesFound → l'.plan t' = l.plan t) := by
  have htexts' : (records'.map (·.id.text)).Nodup := (h.map _).nodup_iff.mp htexts
  refine ⟨⟨exists_bundle_perm h htexts, exists_bundle_perm h.symm htexts'⟩,
    fun t modules t' modules' ht hm ht' hm' => ?_⟩
  intro l l'
  obtain ⟨σ, hσ⟩ := exists_reindexed h htexts ht ht'
  have hids := Table.distinctIds_of_ofRecords ht
  have hfacts := factsReindexed_of_scanModules hσ hids hm hm'
  have hlinked (hsame : ∀ id, id ∈ l.onDemandIds t ↔ id ∈ l'.onDemandIds t') :
      LinkedReindexed σ l l' :=
    linkedReindexed_ofModules hσ hids hfacts (isOnDemand_eq_of_ids hσ hids hm hm' hsame)
  have hsame (hplan : l'.plan t' = l.plan t) (id : ModuleId) :
      id ∈ l.onDemandIds t ↔ id ∈ l'.onDemandIds t' := by
    rw [← Linked.mem_plan_iff hm, ← Linked.mem_plan_iff hm', hplan]
  refine ⟨⟨hsame, fun hsame => plan_reindex hσ (hlinked hsame)⟩, fun hplan b b' hb hb' => ?_,
    fun hfound hfound' => ?_⟩
  · exact bundle_reindex ht hm ht' hm' (hlinked (hsame hplan)) hb hb'
  · exact plan_reindex hσ (linkedReindexed_ofModules hσ hids hfacts
      (isOnDemand_reindex hσ hids hfacts hfound hfound'))

def mutualModules : List Record := [
  { id := .number 1, source := "", deps := [("./b", some (.number 2))] },
  { id := .number 2, source := "", deps := [("./a", some (.number 1))] }]

theorem bundle_perm_mutualModules :
    mutualModules.Perm mutualModules.reverse ∧ (mutualModules.map (·.id.text)).Nodup ∧
      ∃ b b', bundle {} mutualModules = .ok b ∧ bundle {} mutualModules.reverse = .ok b' ∧
        b'.code = b.code := by
  have hperm : mutualModules.Perm mutualModules.reverse := (List.reverse_perm mutualModules).symm
  have htexts : (mutualModules.map (·.id.text)).Nodup := by decide
  have ht : Table.ofRecords mutualModules = .ok ⟨mutualModules⟩ :=
    Table.ofRecords_eq_ok_iff.mpr ⟨by decide, rfl⟩
  have ht' : Table.ofRecords mutualModules.reverse = .ok ⟨mutualModules.reverse⟩ :=
    Table.ofRecords_eq_ok_iff.mpr ⟨by decide, rfl⟩
  obtain ⟨modules, hm⟩ := exists_scanModules (t := ⟨mutualModules⟩) (by decide +kernel)
  obtain ⟨modules', hm'⟩ := exists_scanModules (t := ⟨mutualModules.reverse⟩) (by decide +kernel)
  have hfound {t : Table} (hall : ∀ i < t.size, i ∈ t.cycles.members) : t.CyclesFound :=
    fun i hi => hall i (hi.lt t.within_internalDeps)
  obtain ⟨hiff, hlinked⟩ := bundle_perm {} hperm htexts
  obtain ⟨-, hcode, hplan⟩ := hlinked _ modules _ modules' ht hm ht' hm'
  obtain ⟨b, hb⟩ : ∃ b, bundle {} mutualModules = .ok b := exists_bundle ht hm
  obtain ⟨b', hb'⟩ := hiff.mp ⟨b, hb⟩
  have hsame := hplan (hfound (by decide +kernel)) (hfound (by decide +kernel))
  exact ⟨hperm, htexts, b, b', hb, hb', (hcode hsame b b' hb hb').1⟩

end Bundles

section Crossing

variable {records : List Record} {t : Table} {modules : List ModuleFacts} {sorted : List Nat}

/-- A module that nothing is changed in. -/
def plainPiece (l : Linked) (names : LoaderNames) (i : Nat) : Piece :=
  { code := (moduleFrame l names i).1 ++ (l.facts i).record.source ++ (moduleFrame l names i).2 }

theorem placeModule_of_no_edits (hdebug : options.debug = false)
    (hedits : placedEdits options l i = []) :
    placeModule options l names i = .ok (plainPiece l names i) := by
  have hrequest : moduleMapRequest options (l.facts i).record = none := by
    simp [moduleMapRequest, hdebug]
  rw [placeModule_eq, hedits, hrequest]
  simp [EditList.apply, EditList.stretches, resolveEdits, reduceEdits, stretches, Stretch.output,
    Except.map, hdebug, plainPiece, String.append_assoc]

theorem placeModules_of_no_edits (hdebug : options.debug = false)
    (hedits : ∀ i ∈ l.order, placedEdits options l i = []) :
    placeModules options l names = .ok (l.order.map (plainPiece l names)) := by
  rw [placeModules_eq, allResults_eq_ok_iff, List.map_map]
  refine List.map_congr_left fun i hi => ?_
  rw [placeModule_of_no_edits hdebug (hedits i hi)]
  rfl

/-- The linked modules once it is known in which order they run. -/
def Linked.ofSorted (t : Table) (modules : List ModuleFacts) (sorted : List Nat) : Linked :=
  { ofModules t modules with
    order := sorted.filter (ofModules t modules).isOnDemand ++
      sorted.filter fun i => !(ofModules t modules).isOnDemand i
    renamed := claimAll (globalNames modules)
      (sorted.map fun i => (i, (modules.getD i default).scopes)) }

theorem Linked.ofModules_eq_ofSorted (h : t.sorted (callPlace modules) = sorted) :
    ofModules t modules = ofSorted t modules sorted := by
  rw [ofSorted, ← h, ← order_ofModules]
  rfl

theorem callPlace_of_no_calls (h : ∀ m ∈ modules, m.requirements = []) :
    Linked.callPlace modules = fun _ _ => none := by
  funext i j
  have hnone : (modules.getD i default).requirements = [] := by
    by_cases hi : i < modules.length
    · rw [List.getD_eq_getElem _ _ hi]
      exact h _ (List.getElem_mem hi)
    · rw [List.getD_eq_default _ _ (Nat.le_of_not_lt hi)]
      rfl
  rw [Linked.callPlace, ModuleFacts.firstCallEnd, hnone]
  rfl

/-- The code of a bundle of modules without calls and without names of their own. -/
def plainCode (t : Table) (sorted : List Nat) (modules : List ModuleFacts) : String :=
  let l := Linked.ofSorted t modules sorted
  (builtBundle {} l (l.order.map (plainPiece l (LoaderNames.ofModules modules)))).code

theorem code_eq_plainCode (ht : Table.ofRecords records = .ok t)
    (hm : scanModules t = .ok modules) (hcalls : ∀ m ∈ modules, m.requirements = [])
    (hsorted : (t.sorted fun _ _ => none) = sorted)
    (hedits : ∀ i ∈ (Linked.ofSorted t modules sorted).order,
      placedEdits {} (Linked.ofSorted t modules sorted) i = []) :
    ∃ b, bundle {} records = .ok b ∧ b.code = plainCode t sorted modules := by
  have hl := Linked.ofModules_eq_ofSorted ((callPlace_of_no_calls hcalls) ▸ hsorted)
  have hpieces := @placeModules_of_no_edits (Linked.ofSorted t modules sorted) {}
    (LoaderNames.ofModules modules) rfl hedits
  rw [← hl] at hpieces
  refine ⟨_, bundle_of_placed ht hm hpieces, ?_⟩
  rw [plainCode, ← hl]

def reorderedCycles : List Record :=
  Cycles.crossingCycles.drop 2 ++ Cycles.crossingCycles.take 2

theorem exists_plainCode {t : Table} {sorted : List Nat} (ht : Table.ofRecords records = .ok t)
    (hparse : ∀ r ∈ t.modules, r.Parses) (hsorted : (t.sorted fun _ _ => none) = sorted)
    (hplain : ((scanModules t).toOption.all fun modules => modules.all (·.requirements.isEmpty) &&
      (Linked.ofSorted t modules sorted).order.all fun i =>
        (placedEdits {} (Linked.ofSorted t modules sorted) i).isEmpty) = true) :
    ∃ b, bundle {} records = .ok b ∧
      some b.code = (scanModules t).toOption.map (plainCode t sorted) := by
  obtain ⟨modules, hm⟩ := exists_scanModules hparse
  rw [hm] at hplain ⊢
  simp [Except.toOption] at hplain
  obtain ⟨b, hb, hcode⟩ := code_eq_plainCode ht hm hplain.1 hsorted hplain.2
  exact ⟨b, hb, congrArg some hcode⟩

/-- The code depends on the order of the records where the search misses a module on a cycle in one of
the orders. -/
theorem not_bundle_perm :
    ¬∀ (options : Options) (records records' : List Record), records.Perm records' →
      (records.map (·.id)).Nodup → (records.map (·.id.text)).Nodup →
        ((¬∃ b, bundle options records = .ok b) ∧ ¬∃ b, bundle options records' = .ok b) ∨
          ∃ b b', bundle options records = .ok b ∧ bundle options records' = .ok b' ∧
            b'.code = b.code := by
  intro h
  have ht : Table.ofRecords Cycles.crossingCycles = .ok ⟨Cycles.crossingCycles⟩ :=
    Table.ofRecords_eq_ok_iff.mpr ⟨by decide, rfl⟩
  have ht' : Table.ofRecords reorderedCycles = .ok ⟨reorderedCycles⟩ :=
    Table.ofRecords_eq_ok_iff.mpr ⟨by decide, rfl⟩
  have hsorted : (Table.sorted ⟨Cycles.crossingCycles⟩ fun _ _ => none) = [1, 2, 0] := by cbv
  have hsorted' : (Table.sorted ⟨reorderedCycles⟩ fun _ _ => none) = [2, 0, 1] := by cbv
  obtain ⟨b, hb, hcode⟩ := exists_plainCode ht (by decide +kernel) hsorted (by decide +kernel)
  obtain ⟨b', hb', hcode'⟩ := exists_plainCode ht' (by decide +kernel) hsorted' (by decide +kernel)
  have hperm : Cycles.crossingCycles.Perm reorderedCycles :=
    List.Perm.trans (.of_eq (List.take_append_drop 2 _).symm) List.perm_append_comm
  rcases h {} _ _ hperm (by decide) (by decide) with ⟨hnone, -⟩ | ⟨c, c', hc, hc', heq⟩
  · exact hnone ⟨b, hb⟩
  · cases hb.symm.trans hc
    cases hb'.symm.trans hc'
    rw [heq, hcode] at hcode'
    revert hcode'
    decide +kernel

end Crossing

end FlatBundle
