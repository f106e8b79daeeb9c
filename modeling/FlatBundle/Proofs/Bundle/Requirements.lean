import FlatBundle.Proofs.Bundle.Rewriting
import FlatBundle.Proofs.Link.Order
import FlatBundle.Proofs.Record.Specifiers
import FlatBundle.Proofs.Scope.Calls

/-!
The calls of a module and its dependencies. What its calls are resolved to and where it first calls for another module
come from its source, while cycles and the order of running are found by what its record lists.
-/

namespace FlatBundle

open Script (Span Node)

variable {records : List Record} {t : Table} {modules : List ModuleFacts} {p : Script.Program} {source : String}
  {i j k stop : Nat} {e e' : Spot} {c c' : Span × String}

section Calls

variable {scopes : ScopeTree} {n m : Node}

theorem requireCall?_eq_some (h : scopes.requireCall? n = some c) : n.kind = .call ∧ n.span = c.1 := by
  obtain ⟨named, hnamed, rfl⟩ := Option.map_eq_some_iff.mp h
  have hnamed := (Option.filter_eq_some_iff.mp hnamed).1
  unfold namedCall? at hnamed
  split at hnamed
  · obtain ⟨specifier, -, rfl⟩ := Option.map_eq_some_iff.mp hnamed
    exact ⟨rfl, rfl⟩
  · cases hnamed

/-- A call is told by where it ends. -/
theorem requireCall_eq_of_stop (h : Script.Program.parse? source = some p) (he : e ∈ p.spots) (he' : e' ∈ p.spots)
    (hc : scopes.requireCall? e.node = some c) (hc' : scopes.requireCall? e'.node = some c')
    (hstop : c.1.stop = c'.1.stop) : c = c' := by
  obtain ⟨hk, hspan⟩ := requireCall?_eq_some hc
  obtain ⟨hk', hspan'⟩ := requireCall?_eq_some hc'
  obtain ⟨lo, hi, hlaid⟩ := (Script.spanned_parse? h).laidOut
  have hsite := (p.pathTo_of_mem_spots he).partOf.site (by rw [hk]; rfl)
  have hsite' := (p.pathTo_of_mem_spots he').partOf.site (by rw [hk']; rfl)
  have hnode : e.node = e'.node := hlaid.eq_of_calls hsite hsite' hk hk' (by rw [hspan, hspan', hstop])
  exact Option.some.inj (hc.symm.trans (hnode ▸ hc'))

end Calls

namespace ModuleFacts

variable {m : ModuleFacts}

theorem exists_firstCallEnd_iff : (∃ stop, m.firstCallEnd j = some stop) ↔
    ∃ q ∈ m.requirements, q.target = .internal j := by
  rw [← Option.isSome_iff_exists, firstCallEnd, Option.isSome_map, List.find?_isSome]
  simp

/-- Where a module first calls for another one, among the calls of its script in pre-order. -/
theorem firstCallEnd_eq (h : Script.Program.parse? (t.get i).source = some p) (j : Nat) :
    (ofAnalysis t i (.ofProgram p (t.get i).source)).firstCallEnd j =
      ((p.spots.filterMap fun e => (Analysis.ofProgram p (t.get i).source).scopes.requireCall? e.node).find?
        fun c => t.resolve i c.2 = .internal j).map fun c => c.1.stop := by
  rw [← Analysis.map_calls h, firstCallEnd, ofAnalysis]
  dsimp only
  rw [List.find?_map, List.find?_map, Option.map_map, Option.map_map]
  rfl

theorem firstCallEnd_inj (h : Script.Program.parse? (t.get i).source = some p)
    (hj : (ofAnalysis t i (.ofProgram p (t.get i).source)).firstCallEnd j = some stop)
    (hk : (ofAnalysis t i (.ofProgram p (t.get i).source)).firstCallEnd k = some stop) : j = k := by
  rw [firstCallEnd_eq h] at hj hk
  obtain ⟨c, hc, rfl⟩ := Option.map_eq_some_iff.mp hj
  obtain ⟨c', hc', hstop⟩ := Option.map_eq_some_iff.mp hk
  obtain ⟨e, he, hcall⟩ := List.mem_filterMap.mp (List.mem_of_find?_eq_some hc)
  obtain ⟨e', he', hcall'⟩ := List.mem_filterMap.mp (List.mem_of_find?_eq_some hc')
  obtain rfl := requireCall_eq_of_stop h he he' hcall hcall' hstop.symm
  have htarget : t.resolve i c.2 = .internal j := by simpa using List.find?_some hc
  have htarget' : t.resolve i c.2 = .internal k := by simpa using List.find?_some hc'
  cases htarget.symm.trans htarget'
  rfl

end ModuleFacts

/-- What a module calls for is what its record lists, so that a call leads nowhere but to a dependency, and what is
written for a call is written for one that the search for cycles and the sort go through. A module has a place for just
the modules that its calls lead to, which is where the first such call ends; no two modules share one. -/
theorem requirements_are_dependencies (hrecords : ∀ r ∈ records, r.SpecifiersOnce)
    (ht : Table.ofRecords records = .ok t) (hm : scanModules t = .ok modules) (hi : i < t.size) :
    let m := modules.getD i default
    let l := Linked.ofModules t modules
    (∀ q ∈ m.requirements, ∀ j, q.target = .internal j → j ∈ t.internalDeps i) ∧
    (∀ j, (∃ specifier, t.resolve i specifier = .internal j) ↔ j ∈ t.internalDeps i) ∧
    (∀ j, (∃ stop, m.firstCallEnd j = some stop) ↔ ∃ q ∈ m.requirements, q.target = .internal j) ∧
    (∀ j k stop, m.firstCallEnd j = some stop → m.firstCallEnd k = some stop → j = k) ∧
    (∃ p, Script.Program.parse? (t.get i).source = some p ∧ ∀ j, m.firstCallEnd j =
      ((p.spots.filterMap fun e => m.scopes.requireCall? e.node).find? fun c => t.resolve i c.2 = .internal j).map
        fun c => c.1.stop) ∧
    ∀ e ∈ requirementEdits l m [] m.requirements, ∃ q ∈ m.requirements, q.Yields l m e ∧
      ∀ j, q.target = .internal j →
        DependsOn t.internalDeps i j ∧ DependsOn (t.visitDeps (Linked.callPlace modules)) i j := by
  intro m l
  obtain ⟨p, hp, hfacts⟩ := exists_parse?_of_scanModules hm hi
  have hm : m = .ofAnalysis t i (.ofProgram p (t.get i).source) := hfacts
  have hresolve (j : Nat) : (∃ specifier, t.resolve i specifier = .internal j) ↔ j ∈ t.internalDeps i :=
    t.exists_resolve_iff (Table.specifiersOnce_get hrecords ht i)
  have htarget : ∀ q ∈ m.requirements, ∀ j, q.target = .internal j → j ∈ t.internalDeps i := by
    intro q hq j hj
    rw [hm] at hq
    obtain ⟨call, -, rfl⟩ := List.mem_map.mp hq
    exact (hresolve j).mp ⟨call.specifier, hj⟩
  refine ⟨htarget, hresolve, fun j => ModuleFacts.exists_firstCallEnd_iff, ?_, ⟨p, hp, ?_⟩, fun e he => ?_⟩
  · rw [hm]
    exact fun j k stop => ModuleFacts.firstCallEnd_inj hp
  · rw [hm]
    exact ModuleFacts.firstCallEnd_eq hp
  · obtain ⟨q, hq, hyields⟩ := exists_yields he
    refine ⟨q, hq, hyields, fun j hj => ?_⟩
    have hdepends : DependsOn t.internalDeps i j := htarget q hq j hj
    exact ⟨hdepends, Table.dependsOn_visitDeps ▸ hdepends⟩

/-- A module with a call in a call, which ends first and comes second, one call twice, one for a module that is not in
the bundle, and a dependency that it never calls for. -/
def nestedCalls : List Record :=
  [{ id := .number 0, source := "require('./a', require('./b')); require('./b'); require('fs');"
     deps := [("./b", some (.number 2)), ("./a", some (.number 1)), ("./c", some (.number 3)), ("fs", none)] },
    { id := .number 1, source := "" }, { id := .number 2, source := "" }, { id := .number 3, source := "" }]

theorem requirements_are_dependencies_nestedCalls : ∃ t modules, Table.ofRecords nestedCalls = .ok t ∧
    scanModules t = .ok modules ∧ t.internalDeps 0 = [2, 1, 3] ∧
    (∀ q ∈ (modules.getD 0 default).requirements, ∀ j, q.target = .internal j → j ∈ t.internalDeps 0) ∧
    [1, 2, 3].map (modules.getD 0 default).firstCallEnd = [some 30, some 29, none] := by
  have hrecords : ∀ r ∈ nestedCalls, r.SpecifiersOnce := by decide
  have ht : Table.ofRecords nestedCalls = .ok ⟨nestedCalls⟩ := Table.ofRecords_eq_ok_iff.mpr ⟨by decide, rfl⟩
  obtain ⟨modules, hm, hends⟩ : ∃ modules ∈ (scanModules ⟨nestedCalls⟩).toOption,
      [1, 2, 3].map (modules.getD 0 default).firstCallEnd = [some 30, some 29, none] := by decide +kernel
  have hm := mem_toOption_scanModules.mp hm
  exact ⟨_, modules, ht, hm, by decide +kernel, (requirements_are_dependencies hrecords ht hm (by decide)).1, hends⟩

end FlatBundle
