import FlatBundle.Link.Linked
import FlatBundle.Proofs.Distinct
import FlatBundle.Proofs.Link.Cycles
import FlatBundle.Proofs.Link.Order
import FlatBundle.Proofs.Record.Reindex

/-!
The modules that run on demand: those found on cycles and those that some calls may need late.
-/

namespace FlatBundle

variable {t : Table} {modules : List ModuleFacts} {i : Nat} {settled : List Nat}
  {qs : List Requirement}

/-- Some call needs a module unpredictably, and no call before it needs that module predictably. -/
def CalledLate (qs : List Requirement) (i : Nat) : Prop :=
  ∃ before q after, qs = before ++ q :: after ∧ q.target = .internal i ∧ q.call.unpredictable ∧
    ∀ p ∈ before, p.target = .internal i → p.call.unpredictable

theorem not_calledLate_nil : ¬CalledLate [] i := by
  rintro ⟨before, q, after, heq, -⟩
  cases before <;> cases heq

theorem calledLate_cons {q : Requirement} : CalledLate (q :: qs) i ↔
    q.target = .internal i ∧ q.call.unpredictable ∨
      (q.target = .internal i → q.call.unpredictable) ∧ CalledLate qs i := by
  constructor
  · rintro ⟨before, late, after, heq, htarget, hlate, hbefore⟩
    cases before with
    | nil =>
      obtain ⟨rfl, -⟩ := List.cons.inj heq
      exact .inl ⟨htarget, hlate⟩
    | cons p before =>
      obtain ⟨rfl, rfl⟩ := List.cons.inj heq
      obtain ⟨hfirst, hbefore⟩ := List.forall_mem_cons.mp hbefore
      exact .inr ⟨hfirst, before, late, after, rfl, htarget, hlate, hbefore⟩
  · rintro (⟨htarget, hlate⟩ | ⟨hfirst, before, late, after, rfl, htarget, hlate, hbefore⟩)
    · exact ⟨[], q, qs, rfl, htarget, hlate, nofun⟩
    · exact ⟨q :: before, late, after, rfl, htarget, hlate, List.forall_mem_cons.mpr ⟨hfirst, hbefore⟩⟩

theorem mem_unpredictableTargets_iff :
    i ∈ unpredictableTargets settled qs ↔ i ∉ settled ∧ CalledLate qs i := by
  induction qs generalizing settled with
  | nil => simp [unpredictableTargets, not_calledLate_nil]
  | cons q qs ih =>
    obtain ⟨call, target⟩ := q
    rw [calledLate_cons]
    cases target with
    | external id => simp [unpredictableTargets, ih]
    | internal j =>
      rw [unpredictableTargets]
      split
      next hcall =>
        -- from here on the module is settled
        have hcall : call.unpredictable = false := by simpa using hcall
        simp only [ih, hcall, Target.internal.injEq, List.mem_cons, not_or]
        tauto
      next hcall =>
        have hcall : call.unpredictable = true := by simpa using hcall
        split
        next hsettled =>
          have hsettled : j ∈ settled := by simpa using hsettled
          rw [ih, hcall]
          constructor
          · exact fun ⟨hi, hlate⟩ => ⟨hi, .inr ⟨fun _ => rfl, hlate⟩⟩
          · rintro ⟨hi, ⟨hj, -⟩ | ⟨-, hlate⟩⟩
            · exact absurd (Target.internal.inj hj ▸ hsettled) hi
            · exact ⟨hi, hlate⟩
        next hsettled =>
          have hsettled : j ∉ settled := by simpa using hsettled
          rw [List.mem_cons, ih, hcall]
          constructor
          · rintro (rfl | ⟨hi, hlate⟩)
            · exact ⟨hsettled, .inl ⟨rfl, rfl⟩⟩
            · exact ⟨hi, .inr ⟨fun _ => rfl, hlate⟩⟩
          · rintro ⟨hi, ⟨hj, -⟩ | ⟨-, hlate⟩⟩
            · exact .inl (Target.internal.inj hj).symm
            · exact .inr ⟨hi, hlate⟩

theorem mem_unpredictableTargets (h : i ∈ unpredictableTargets settled qs) :
    ∃ q ∈ qs, q.target = .internal i := by
  obtain ⟨before, q, after, rfl, htarget, -⟩ := (mem_unpredictableTargets_iff.mp h).2
  exact ⟨q, List.mem_append_cons_self, htarget⟩

theorem mem_onDemandModules {cyclic : List Nat} : i ∈ onDemandModules cyclic modules ↔
    i ∈ cyclic ∨ ∃ m ∈ modules, i ∈ unpredictableTargets [] m.requirements := by
  rw [onDemandModules, mem_firstOccurrences, List.mem_append, List.mem_flatMap]

theorem Table.lt_size_of_resolve {importer : Nat} {specifier : String}
    (h : t.resolve importer specifier = .internal i) : i < t.size := by
  rw [Table.resolve] at h
  split at h
  · split at h
    · cases h
      exact lt_size_of_indexOf? ‹_›
    · cases h
  · cases h

theorem Table.lt_size_of_mem_members (h : i ∈ t.cycles.members) : i < t.size :=
  ((Cycles.mem_members_iff_returnsOnEntry t.within_internalDeps).mp h).onCycle.lt
    t.within_internalDeps

/-- Whether the search misses no module on a cycle. -/
def Table.CyclesFound (t : Table) : Prop :=
  ∀ i, OnCycle t.internalDeps i → i ∈ t.cycles.members

theorem Table.CyclesFound.mem_members_iff (h : t.CyclesFound) :
    i ∈ t.cycles.members ↔ OnCycle t.internalDeps i :=
  ⟨fun hi => ((Cycles.mem_members_iff_returnsOnEntry t.within_internalDeps).mp hi).onCycle, h i⟩

theorem Linked.isOnDemand_iff : (ofModules t modules).isOnDemand i ↔
    i ∈ t.cycles.members ∨ ∃ m ∈ modules, i ∈ unpredictableTargets [] m.requirements := by
  rw [isOnDemand, List.contains_iff_mem]
  exact mem_onDemandModules

/-- Every module on demand is one of the table. -/
theorem Linked.lt_size_of_isOnDemand (hm : scanModules t = .ok modules)
    (h : (ofModules t modules).isOnDemand i) : i < t.size := by
  rcases isOnDemand_iff.mp h with h | ⟨m, hmem, h⟩
  · exact t.lt_size_of_mem_members h
  · obtain ⟨q, hq, htarget⟩ := mem_unpredictableTargets h
    obtain ⟨j, -, a, -, rfl⟩ := exists_of_mem_scanModules hm hmem
    obtain ⟨call, -, rfl⟩ := List.mem_map.mp hq
    exact t.lt_size_of_resolve htarget

namespace Linked

/-- The ids of the modules that run on demand. -/
def onDemandIds (l : Linked) (t : Table) : List ModuleId :=
  l.onDemand.map fun i => (t.get i).id

/-- The ids of all modules in the order of the bundle, and whether each one runs on demand. -/
def plan (l : Linked) (t : Table) : List (ModuleId × Bool) :=
  l.order.map fun i => ((t.get i).id, l.isOnDemand i)

theorem isOnDemand_iff_mem_ids (hids : t.DistinctIds) (hm : scanModules t = .ok modules)
    (hi : i < t.size) :
    (ofModules t modules).isOnDemand i ↔ (t.get i).id ∈ (ofModules t modules).onDemandIds t := by
  rw [onDemandIds, List.mem_map, isOnDemand, List.contains_iff_mem]
  constructor
  · exact fun hmem => ⟨i, hmem, rfl⟩
  · rintro ⟨j, hmem, hid⟩
    have hj : j < t.size := lt_size_of_isOnDemand hm (List.contains_iff_mem.mpr hmem)
    rwa [← hids j hj i hi hid]

theorem mem_plan_iff (hm : scanModules t = .ok modules) {id : ModuleId} :
    (id, true) ∈ (ofModules t modules).plan t ↔ id ∈ (ofModules t modules).onDemandIds t := by
  rw [plan, onDemandIds, List.mem_map, List.mem_map]
  constructor
  · rintro ⟨i, -, heq⟩
    obtain ⟨rfl, hd⟩ := Prod.mk.inj heq
    exact ⟨i, List.contains_iff_mem.mp hd, rfl⟩
  · rintro ⟨i, hmem, rfl⟩
    have hd : (ofModules t modules).isOnDemand i := List.contains_iff_mem.mpr hmem
    exact ⟨i, mem_order.mpr (lt_size_of_isOnDemand hm hd), by rw [hd]⟩

end Linked

/-- Some call in a module needs another one unpredictably, and no call before it in the module needs that
one predictably. -/
def Table.CallsLate (t : Table) (m i : Nat) : Prop :=
  ∃ a, Analysis.ofSource? (t.get m).source = some a ∧
    ∃ before call after, a.calls = before ++ call :: after ∧
      t.resolve m call.specifier = .internal i ∧ call.unpredictable ∧
      ∀ earlier ∈ before, t.resolve m earlier.specifier = .internal i → earlier.unpredictable

theorem calledLate_requirements {m : Nat} {a : Analysis} :
    CalledLate (ModuleFacts.ofAnalysis t m a).requirements i ↔
      ∃ before call after, a.calls = before ++ call :: after ∧
        t.resolve m call.specifier = .internal i ∧ call.unpredictable ∧
        ∀ earlier ∈ before, t.resolve m earlier.specifier = .internal i → earlier.unpredictable := by
  constructor
  · rintro ⟨before, q, after, heq, htarget, hlate, hbefore⟩
    obtain ⟨front, back, hcalls, rfl, hback⟩ := List.map_eq_append_iff.mp heq
    obtain ⟨call, rest, rfl, rfl, -⟩ := List.map_eq_cons_iff.mp hback
    exact ⟨front, call, rest, hcalls, htarget, hlate, List.forall_mem_map.mp hbefore⟩
  · rintro ⟨before, call, after, hcalls, htarget, hlate, hbefore⟩
    let required (call : RequireCall) : Requirement := ⟨call, t.resolve m call.specifier⟩
    refine ⟨before.map required, required call, after.map required, ?_, htarget, hlate,
      List.forall_mem_map.mpr hbefore⟩
    rw [ModuleFacts.ofAnalysis, hcalls, List.map_append, List.map_cons]

theorem Table.callsLate_iff {m : Nat} (hm : scanModules t = .ok modules) (hlt : m < t.size) :
    t.CallsLate m i ↔ CalledLate (modules.getD m default).requirements i := by
  obtain ⟨a, ha, hfacts⟩ := get_of_scanModules hm hlt
  rw [CallsLate, hfacts, calledLate_requirements, ha]
  simp only [Option.some.injEq, exists_eq_left']

namespace Linked

/-- The modules on demand are those found on cycles and those that some module calls for late. It does not
matter in which order the modules are looked at, nor what calls there are in other modules. -/
theorem isOnDemand_iff_callsLate (hm : scanModules t = .ok modules) :
    (∀ i, (ofModules t modules).isOnDemand i ↔
      i ∈ t.cycles.members ∨ ∃ m < t.size, t.CallsLate m i) ∧
    (∀ reordered, reordered.Perm modules → ∀ i,
      i ∈ onDemandModules t.cycles.members reordered ↔ (ofModules t modules).isOnDemand i) ∧
    (∀ m < t.size, ∀ i, t.CallsLate m i → ∀ others, (ofModules t modules).facts m ∈ others →
      i ∈ onDemandModules t.cycles.members others) := by
  have hlate (m : ModuleFacts) (i : Nat) :
      i ∈ unpredictableTargets [] m.requirements ↔ CalledLate m.requirements i := by
    rw [mem_unpredictableTargets_iff, and_iff_right List.not_mem_nil]
  refine ⟨fun i => ?_, fun reordered hperm i => ?_, fun m hlt i hcalls others hmem => ?_⟩
  · rw [isOnDemand_iff, exists_mem_modules_iff hm]
    refine or_congr_right (exists_congr fun m => and_congr_right fun hlt => ?_)
    rw [hlate, Table.callsLate_iff hm hlt]
  · rw [mem_onDemandModules, isOnDemand_iff]
    simp only [hperm.mem_iff]
  · have hcalls : CalledLate ((ofModules t modules).facts m).requirements i :=
      (Table.callsLate_iff hm hlt).mp hcalls
    exact mem_onDemandModules.mpr (.inr ⟨_, hmem, (hlate _ i).mpr hcalls⟩)

/-- Two modules call for a third one: the first when it runs and later on, the second later on only. -/
def neededTwice : Table := ⟨[
  { id := .number 1, source := "require('./c'); function f() \x7b require('./c'); \x7d",
    deps := [("./c", some (.number 3))] },
  { id := .number 2, source := "function g() \x7b require('./c'); require('./c'); \x7d",
    deps := [("./c", some (.number 3))] },
  { id := .number 3, source := "" }]⟩

theorem isOnDemand_neededTwice : ∃ modules, scanModules neededTwice = .ok modules ∧
    ¬neededTwice.CallsLate 0 2 ∧ neededTwice.CallsLate 1 2 ∧ 2 ∉ neededTwice.cycles.members ∧
    (ofModules neededTwice modules).isOnDemand 2 := by
  obtain ⟨modules, hm, hfirst, hsecond, hcycles⟩ : ∃ modules ∈ (scanModules neededTwice).toOption,
      2 ∉ unpredictableTargets [] (modules.getD 0 default).requirements ∧
        2 ∈ unpredictableTargets [] (modules.getD 1 default).requirements ∧
        2 ∉ neededTwice.cycles.members := by decide +kernel
  have hm := mem_toOption_scanModules.mp hm
  rw [mem_unpredictableTargets_iff, and_iff_right List.not_mem_nil] at hfirst hsecond
  have hlate : neededTwice.CallsLate 1 2 := (Table.callsLate_iff hm (by decide)).mpr hsecond
  refine ⟨modules, hm, mt (Table.callsLate_iff hm (by decide)).mp hfirst, hlate, hcycles, ?_⟩
  exact ((isOnDemand_iff_callsLate hm).1 2).mpr (.inr ⟨1, by decide, hlate⟩)

end Linked

end FlatBundle
