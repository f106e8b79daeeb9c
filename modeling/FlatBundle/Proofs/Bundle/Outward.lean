import FlatBundle.Proofs.Bundle.Emission

/-!
What a bundle hands out. Modules take the exports of others from the places of their calls, and the lines
below the modules make some exports known outside, or return them.
-/

namespace FlatBundle

variable {options : Options} {l : Linked} {names : LoaderNames} {m : ModuleFacts} {records : List Record}
  {t : Table} {modules : List ModuleFacts} {value line global : String} {i j : Nat}

/-- A line that hands out the value of an expression for a module. -/
inductive HandsOut (names : LoaderNames) (m : ModuleFacts) (value : String) : String → Prop
  | exposed :
    HandsOut names m value (names.exposed ++ ".m[" ++ m.record.id.literal ++ "] = " ++ value ++ ";")
  | exposedLater :
    HandsOut names m value ("Object.defineProperty(" ++ names.exposed ++ ".m, " ++ m.record.id.literal ++
      ", \x7b get: function() \x7b return " ++ value ++ "; \x7d\x7d);")
  | returned : HandsOut names m value ("return " ++ value ++ ";")

/-- What is written for calls of modules of the bundle: the exports, in the place of the call or of the
variable that it gives a value, and nothing else. -/
structure CallsGiveExports (l : Linked) : Prop where
  called : ∀ i call target, ⟨call, .internal target⟩ ∈ (l.facts i).requirements →
    l.isOnDemand target ∨ call.declarator = none → .replacing call.span (l.exportsOf target) ∈ moduleEdits l i
  inlined : ∀ i call d target, l.Inlines i call d target →
    ∀ r ∈ (l.facts i).scopes.referencesOf d.binding,
      renameOccurrence (l.facts i).record.source (l.exportsOf target) r ∈ moduleEdits l i
  onlyThese : ∀ i, ∀ e ∈ requirementEdits l (l.facts i) [] (l.facts i).requirements,
    ∃ q ∈ (l.facts i).requirements, q.Yields l (l.facts i) e

/-- Wherever a bundle uses the exports of a module, it has the variable of an eager one, and calls the
variable of one on demand. -/
structure HandsOutExports (options : Options) (l : Linked) : Prop extends CallsGiveExports l where
  outward : ∀ i ∈ l.order, ∀ line, outwardLine? options l (LoaderNames.ofModules l.modules) i = some line →
    HandsOut (LoaderNames.ofModules l.modules) (l.facts i) (l.exportsOf i) line

theorem callsGiveExports (l : Linked) : CallsGiveExports l where
  called _ _ _ hcall hplace := List.mem_append_right _ (replacing_mem_requirementEdits hcall hplace)
  inlined _ _ _ _ hinlines r hr := by
    rw [exportsOf_eager hinlines.2.1]
    exact List.mem_append_right _
      (Linked.mem_requirementEdits hinlines.1 hinlines.2.1 hinlines.2.2 hr)
  onlyThese _ _ he := exists_yields he

/-- The line that returns the exports of a module as if it were eager. -/
def returnLine (m : ModuleFacts) : String :=
  "return " ++ m.exportsName ++ ";"

theorem outwardLine?_global (h : options.globalName = some global) :
    outwardLine? options l names i =
      if isReturned options (l.facts i) then some (returnLine (l.facts i)) else none := by
  unfold outwardLine?
  dsimp only
  rw [h]
  cases (l.facts i).record.expose <;> rfl

theorem outwardLine?_exposed (h : options.globalName = none) :
    outwardLine? options l names i = (l.facts i).record.expose.map fun _ => exposeLine l names i := by
  unfold outwardLine?
  dsimp only
  rw [h]
  cases (l.facts i).record.expose <;> rfl

theorem handsOut_exposeLine (l : Linked) (names : LoaderNames) (i : Nat) :
    HandsOut names (l.facts i) (l.exportsOf i) (exposeLine l names i) := by
  unfold exposeLine
  dsimp only
  split
  · exact .exposedLater
  · exact .exposed

/-- A line that is said to return a variable does not return what calling the variable gives. -/
theorem HandsOut.eq_of_returnLine (h : HandsOut (LoaderNames.ofModules l.modules) m value (returnLine m)) :
    value = m.exportsName := by
  obtain ⟨rest, hexposed⟩ :=
    exists_unusedName_eq (l.modules.map (·.record.source.toList)) "exposedRequire"
  have hexposed : (LoaderNames.ofModules l.modules).exposed = "exposedRequire" ++ rest := hexposed
  generalize hline : returnLine m = line at h
  cases h with
  | exposed =>
    rw [hexposed] at hline
    simp [returnLine, ← String.toList_inj] at hline
  | exposedLater => simp [returnLine, ← String.toList_inj] at hline
  | returned => simpa [returnLine, ← String.toList_inj] using hline.symm

theorem exportsOf_ne (h : l.isOnDemand i) : l.exportsOf i ≠ (l.facts i).exportsName := by
  simp [Linked.exportsOf, h, ← String.toList_inj]

/-- Calls always give the exports, and so do modules that are exposed. A bundle with a global name gives
them just when no module that it returns is on demand. -/
theorem handsOutExports_iff (options : Options) (l : Linked) :
    CallsGiveExports l ∧
    (∀ names i, HandsOut names (l.facts i) (l.exportsOf i) (exposeLine l names i)) ∧
    (HandsOutExports options l ↔ ∀ global, options.globalName = some global →
      ∀ i ∈ l.order, isReturned options (l.facts i) → l.isOnDemand i = false) := by
  refine ⟨callsGiveExports l, handsOut_exposeLine l,
    fun h global hglobal i hi hreturned => ?_, fun h => ⟨callsGiveExports l, fun i hi line hline => ?_⟩⟩
  · rw [← Bool.not_eq_true]
    intro hdemand
    have hline := h.outward i hi _ (by rw [outwardLine?_global hglobal, if_pos hreturned])
    exact exportsOf_ne hdemand hline.eq_of_returnLine
  · cases hglobal : options.globalName with
    | none =>
      rw [outwardLine?_exposed hglobal] at hline
      obtain ⟨_, -, rfl⟩ := Option.map_eq_some_iff.mp hline
      exact handsOut_exposeLine l _ i
    | some global =>
      rw [outwardLine?_global hglobal] at hline
      split at hline
      next hreturned =>
        have heager := h global hglobal i hi hreturned
        obtain rfl := Option.some.inj hline
        rw [returnLine, ← exportsOf_eager heager]
        exact .returned
      next => cases hline

/-- A module that needs another one only when it is asked to; the bundle returns that one. -/
def returnedLater : List Record := [
  { id := .number 1, source := "function f() \x7b require('./b'); \x7d", entry := true,
    deps := [("./b", some (.number 2))] },
  { id := .number 2, source := "module.exports = 5;" }]

theorem not_handsOutExports :
    ¬∀ (options : Options) (records : List Record) (t : Table) (modules : List ModuleFacts),
      Table.ofRecords records = .ok t → scanModules t = .ok modules →
        HandsOutExports options (.ofModules t modules) := by
  intro h
  let options : Options := { standalone := some "Lib", standaloneModule := some (.number 2) }
  let t : Table := ⟨returnedLater⟩
  have ht : Table.ofRecords returnedLater = .ok t := Table.ofRecords_eq_ok_iff.mpr ⟨by decide, rfl⟩
  obtain ⟨modules, hm, hreturned, hdemand⟩ : ∃ modules ∈ (scanModules t).toOption,
      let l := Linked.ofModules t modules
      isReturned options (l.facts 1) ∧ l.isOnDemand 1 := by decide +kernel
  have hm := mem_toOption_scanModules.mp hm
  have hglobal : options.globalName = some "Lib" := by decide +kernel
  have heager := (handsOutExports_iff options _).2.2.mp (h options _ t modules ht hm) "Lib" hglobal 1
    (Linked.mem_order.mpr (by decide)) hreturned
  rw [hdemand] at heager
  cases heager

def isReturnLine (line : String) : Bool :=
  "return ".toList.isPrefixOf line.toList

/-- The module that a bundle with a global name returns. Lines below the first one that returns never
run. -/
def Linked.returned? (options : Options) (l : Linked) : Option Nat :=
  l.order.find? fun i => isReturned options (l.facts i)

theorem isReturnLine_returnLine (m : ModuleFacts) : isReturnLine (returnLine m) := by
  simp [isReturnLine, returnLine]

namespace Linked

theorem isReturnLine_startLine (hm : scanModules t = .ok modules) (hi : i < t.size)
    (h : startLine? (ofModules t modules) i = some line) : isReturnLine line = false := by
  unfold startLine? at h
  split at h
  next =>
    obtain rfl := Option.some.inj h
    rw [isReturnLine, exportsName_facts hm hi]
    simp only [String.toList_append]
    rfl
  next => cases h

/-- The first line that returns is that of the first module that may be returned. -/
theorem find?_outro (hm : scanModules t = .ok modules) (h : options.globalName = some global) :
    let l := ofModules t modules
    (wrapperLines options l names).outro.find? isReturnLine =
      (l.returned? options).map fun i => returnLine (l.facts i) := by
  intro l
  have hstart : (l.order.filterMap (startLine? l)).find? isReturnLine = none := by
    rw [List.find?_eq_none]
    intro line hline
    obtain ⟨i, hi, hstart⟩ := List.mem_filterMap.mp hline
    rw [isReturnLine_startLine hm (mem_order.mp hi) hstart]
    exact Bool.false_ne_true
  have hend : [universalPostlude].find? isReturnLine = none := by decide
  have houter : (outerLines options l names).outro = [universalPostlude] := by
    rw [outerLines, h]
  have houtward : l.order.filterMap (outwardLine? options l names) =
      (l.order.filter fun i => isReturned options (l.facts i)).map fun i => returnLine (l.facts i) := by
    simp only [outwardLine?_global h]
    rw [← List.filterMap_eq_map, List.filterMap_filter]
    refine List.filterMap_congr fun i _ => ?_
    rfl
  have hfirst : ((l.order.filter fun i => isReturned options (l.facts i)).map fun i =>
      returnLine (l.facts i)).find? isReturnLine =
        (l.returned? options).map fun i => returnLine (l.facts i) := by
    rw [List.find?_map, List.find?_filter, returned?]
    simp [isReturnLine_returnLine]
  rw [wrapperLines, houter, houtward, List.find?_append, List.find?_append, hstart, hend, hfirst]
  simp

theorem returned?_eq_some_iff (hi : i < t.size) :
    (ofModules t modules).returned? options = some i ↔
      isReturned options ((ofModules t modules).facts i) ∧
        ∀ j, Precedes (ofModules t modules).order j i →
          isReturned options ((ofModules t modules).facts j) = false :=
  find?_eq_some_iff_precedes nodup_order (mem_order.mpr hi)

section Configured

variable (ht : Table.ofRecords records = .ok t) (hm : scanModules t = .ok modules) (hi : i < t.size)
  (hconfigured : options.standaloneModule = some (t.get i).id)
include ht hm hi hconfigured

/-- All modules but the configured one are returned as entries. -/
theorem isReturned_iff (hj : j < t.size) :
    isReturned options ((ofModules t modules).facts j) ↔
      j = i ∨ (t.get j).entry ∧ ((ofModules t modules).facts j).uses.hasExports := by
  have hids : (t.get i).id = (t.get j).id ↔ j = i :=
    ⟨fun h => (Table.distinctIds_of_ofRecords ht i hi j hj h).symm, fun h => h ▸ rfl⟩
  simp [isReturned, record_facts hm hj, hconfigured, hids, or_comm]

end Configured

/-- The first line that returns is that of the first module, in the order of the bundle, that is either
configured to be returned or an entry with exports. So the configured module is returned just when no
entry with exports comes before it, as where all of these are eager and lead to it or it is on demand. -/
theorem returned?_iff (ht : Table.ofRecords records = .ok t) (hm : scanModules t = .ok modules)
    (hi : i < t.size) (hglobal : options.globalName = some global)
    (hconfigured : options.standaloneModule = some (t.get i).id) :
    let l := ofModules t modules
    (wrapperLines options l (LoaderNames.ofModules modules)).outro.find? isReturnLine =
      (l.returned? options).map (fun j => returnLine (l.facts j)) ∧
    (l.returned? options = some i ↔
      ∀ j, Precedes l.order j i → (t.get j).entry → (l.facts j).uses.hasExports = false) ∧
    ((∀ j < t.size, j ≠ i → (t.get j).entry → (l.facts j).uses.hasExports →
        ¬l.isOnDemand j ∧ (l.isOnDemand i ∨ ¬OnCycle t.internalDeps j ∧ Leads t.internalDeps j i)) →
      l.returned? options = some i) := by
  intro l
  have hsize {j : Nat} (hj : Precedes l.order j i) : j < t.size := mem_order.mp hj.mem_left
  have hne {j : Nat} (hj : Precedes l.order j i) : j ≠ i := by
    rintro rfl
    exact hj.not_symm nodup_order hj
  have hiff : l.returned? options = some i ↔
      ∀ j, Precedes l.order j i → (t.get j).entry → (l.facts j).uses.hasExports = false := by
    rw [returned?_eq_some_iff hi, and_iff_right ((isReturned_iff ht hm hi hconfigured hi).mpr (.inl rfl))]
    refine forall₂_congr fun j hj => ?_
    rw [← Bool.not_eq_true, isReturned_iff ht hm hi hconfigured (hsize hj), or_iff_right (hne hj), not_and,
      Bool.not_eq_true]
  refine ⟨find?_outro hm hglobal, hiff, fun h => hiff.mpr fun j hj hentry => ?_⟩
  rw [← Bool.not_eq_true]
  intro hexports
  obtain ⟨heager, hdemand | ⟨hcycle, hleads⟩⟩ := h j (hsize hj) (hne hj) hentry hexports
  · exact hj.not_symm nodup_order (onDemand_precedes hi (hsize hj) hdemand heager)
  · by_cases hdemand : l.isOnDemand i
    · exact hj.not_symm nodup_order (onDemand_precedes hi (hsize hj) hdemand heager)
    · exact hj.not_symm nodup_order
        (precedes_of_not_onCycle (hsize hj) hi heager hdemand (hne hj) hcycle hleads)

/-- An entry that exports something, and the module that it needs. -/
def returnedDependency : List Record := [
  { id := .number 1, source := "exports.b = require('./b');", entry := true,
    deps := [("./b", some (.number 2))] },
  { id := .number 2, source := "module.exports = 5;" }]

theorem returned?_returnedDependency :
    ∃ t modules, Table.ofRecords returnedDependency = .ok t ∧ scanModules t = .ok modules ∧
      (wrapperLines { standalone := some "Lib", standaloneModule := some (.number 2) }
        (ofModules t modules) (LoaderNames.ofModules modules)).outro.find? isReturnLine =
          some "return _$module_2;" := by
  let options : Options := { standalone := some "Lib", standaloneModule := some (.number 2) }
  let t : Table := ⟨returnedDependency⟩
  have ht : Table.ofRecords returnedDependency = .ok t := Table.ofRecords_eq_ok_iff.mpr ⟨by decide, rfl⟩
  obtain ⟨modules, hm, heager, hline⟩ : ∃ modules ∈ (scanModules t).toOption,
      (ofModules t modules).isOnDemand 0 = false ∧
        returnLine ((ofModules t modules).facts 1) = "return _$module_2;" := by decide +kernel
  have hm := mem_toOption_scanModules.mp hm
  have hglobal : options.globalName = some "Lib" := by decide +kernel
  have hleads : Leads t.internalDeps 0 1 :=
    .single (show DependsOn _ 0 1 by unfold DependsOn; decide +kernel)
  have hnone : ∀ k < 2, 0 ∉ t.internalDeps k := by decide +kernel
  have hcycle : ¬OnCycle t.internalDeps 0 := by
    intro h
    obtain ⟨k, hk⟩ : ∃ k, 0 ∈ t.internalDeps k := by
      cases h with
      | single hd => exact ⟨_, hd⟩
      | tail _ hd => exact ⟨_, hd⟩
    by_cases hlt : k < 2
    · exact hnone k hlt hk
    · have hget : t.get k = default := List.getD_eq_default _ _ (Nat.le_of_not_lt hlt)
      rw [Table.internalDeps, hget] at hk
      cases hk
  obtain ⟨hfirst, -, hreturned⟩ := returned?_iff ht hm (by decide : 1 < t.size) hglobal rfl
  have hreturned : (ofModules t modules).returned? options = some 1 := by
    refine hreturned fun j hj hne _ _ => ?_
    obtain rfl : j = 0 := by
      change j < 2 at hj
      omega
    exact ⟨by simp [heager], .inr ⟨hcycle, hleads⟩⟩
  rw [hreturned, Option.map_some, hline] at hfirst
  exact ⟨t, modules, ht, hm, hfirst⟩

/-- An entry that exports something, and another module. -/
def returnedAfterEntry : List Record := [
  { id := .number 1, source := "module.exports = 1;", entry := true },
  { id := .number 2, source := "module.exports = 2;" }]

theorem not_returnsConfigured :
    ¬∀ (options : Options) (records : List Record) (t : Table) (modules : List ModuleFacts) (i : Nat)
      (global : String), Table.ofRecords records = .ok t → scanModules t = .ok modules → i < t.size →
        options.globalName = some global → options.standaloneModule = some (t.get i).id →
          (wrapperLines options (ofModules t modules) (LoaderNames.ofModules modules)).outro.find?
            isReturnLine = some (returnLine ((ofModules t modules).facts i)) := by
  intro h
  let options : Options := { standalone := some "Lib", standaloneModule := some (.number 2) }
  let t : Table := ⟨returnedAfterEntry⟩
  have ht : Table.ofRecords returnedAfterEntry = .ok t := Table.ofRecords_eq_ok_iff.mpr ⟨by decide, rfl⟩
  obtain ⟨modules, hm, hcalls, heager, hreturned, hlines⟩ : ∃ modules ∈ (scanModules t).toOption,
      let l := ofModules t modules
      (∀ m ∈ modules, m.requirements.isEmpty) ∧ (l.isOnDemand 0 = false ∧ l.isOnDemand 1 = false) ∧
        isReturned options (l.facts 0) ∧ returnLine (l.facts 0) ≠ returnLine (l.facts 1) := by
    decide +kernel
  have hm := mem_toOption_scanModules.mp hm
  have hglobal : options.globalName = some "Lib" := by decide +kernel
  have hsorted : (t.sorted fun _ _ => none) = [0, 1] := by cbv
  have horder : (ofModules t modules).order = [0, 1] := by
    have hplace := callPlace_of_no_calls fun m hm' => List.isEmpty_iff.mp (hcalls m hm')
    rw [order_ofModules, hplace, hsorted]
    simp [heager]
  have hfirst : (ofModules t modules).returned? options = some 0 := by
    rw [returned?, horder]
    exact List.find?_cons_of_pos hreturned
  have hclaim := h options _ t modules 1 "Lib" ht hm (by decide) hglobal rfl
  rw [find?_outro hm hglobal, hfirst] at hclaim
  exact hlines (Option.some.inj hclaim)

end Linked

end FlatBundle
