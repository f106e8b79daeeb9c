import FlatBundle.Proofs.Bundle.Spelling

/-!
Which module keeps a top-level name. The modules take their names in the order in which they run, after
all globals. The bundle lists modules on demand first, so that the module that keeps a name may come
after others that have it.
-/

namespace FlatBundle

variable {t : Table} {modules : List ModuleFacts} {name : String} {i j : Nat}

/-- Some occurrence of a name in a module means what no scope of the module declares. -/
def Table.UsesGlobal (t : Table) (i : Nat) (name : String) : Prop :=
  ∃ p, Script.Program.parse? (t.get i).source = some p ∧
    (Analysis.ofProgram p (t.get i).source).scopes.LooksUpUndeclared p.visited name

namespace Linked

/-- Whether a module has a top-level name. -/
def binds (l : Linked) (name : String) (i : Nat) : Bool :=
  (l.topLevelNames i).contains name

/-- A module has a top-level name and does not change it. -/
def Keeps (l : Linked) (i : Nat) (name : String) : Prop :=
  ∃ b, (name, b) ∈ (l.facts i).scopes.programBindings ∧ b ∉ l.renamedBindings i

theorem binds_iff_mem {l : Linked} : l.binds name i ↔ name ∈ l.topLevelNames i :=
  List.contains_iff_mem

theorem binds_iff {l : Linked} :
    l.binds name i ↔ ∃ b, (name, b) ∈ (l.facts i).scopes.programBindings := by
  rw [binds_iff_mem, topLevelNames, List.mem_map]
  constructor
  · rintro ⟨⟨_, b⟩, hb, rfl⟩
    exact ⟨b, hb⟩
  · rintro ⟨b, hb⟩
    exact ⟨_, hb, rfl⟩

section Build

variable (hm : scanModules t = .ok modules)
include hm

theorem usesGlobal_iff (hi : i < t.size) : t.UsesGlobal i name ↔
    name ∈ ((ofModules t modules).facts i).scopes.undeclaredNames := by
  obtain ⟨p, hp, hfacts⟩ := exists_program hm hi
  rw [hfacts, Table.UsesGlobal, hp]
  simp only [Option.some.injEq, exists_eq_left']
  exact Analysis.mem_undeclaredNames_iff.symm

theorem mem_globalNames_iff : name ∈ globalNames modules ↔
    ∃ i < t.size, name ∈ ((ofModules t modules).facts i).scopes.undeclaredNames := by
  rw [globalNames, List.mem_flatMap]
  exact exists_mem_modules_iff hm

theorem not_mem_globalNames_of_unused (h : ∀ j < t.size, ¬t.UsesGlobal j name) :
    name ∉ globalNames modules := fun hglobal =>
  have ⟨j, hj, hundeclared⟩ := (mem_globalNames_iff hm).mp hglobal
  h j hj ((usesGlobal_iff hm hj).mpr hundeclared)

theorem keeps_iff (hi : i < t.size) : (ofModules t modules).Keeps i name ↔
    (ofModules t modules).binds name i ∧ name ∉ globalNames modules ∧
      ¬TakenBefore t modules i name := by
  rw [binds_iff, ← not_or]
  constructor
  · rintro ⟨b, hb, hkept⟩
    exact ⟨⟨b, hb⟩, mt (mem_renamedBindings_iff_of_bound hm hi hb).mpr hkept⟩
  · rintro ⟨⟨b, hb⟩, hfree⟩
    exact ⟨b, hb, mt (mem_renamedBindings_iff_of_bound hm hi hb).mp hfree⟩

/-- Of the modules that have a name, the first one to run keeps it, unless it is a global. -/
theorem keeps_iff_find? (hi : i < t.size) : (ofModules t modules).Keeps i name ↔
    name ∉ globalNames modules ∧
      (t.sorted (callPlace modules)).find? ((ofModules t modules).binds name) = some i := by
  have hfirst : ¬TakenBefore t modules i name ↔
      ∀ j, Precedes (t.sorted (callPlace modules)) j i →
        (ofModules t modules).binds name j = false := by
    simp only [TakenBefore, not_exists, not_and, ← binds_iff_mem, Bool.not_eq_true]
  rw [keeps_iff hm hi, hfirst,
    find?_eq_some_iff_precedes Table.nodup_sorted (Table.mem_sorted.mpr hi)]
  exact and_left_comm

end Build

/-- A top-level name changes just where it is a global of some module or a top-level name of one that runs
before. So no two modules keep the same name, and none keeps a name that is a global anywhere. -/
theorem renamed_iff_taken (hm : scanModules t = .ok modules) :
    let l := ofModules t modules
    (∀ i < t.size, ∀ name b, (name, b) ∈ (l.facts i).scopes.programBindings →
      (b ∈ l.renamedBindings i ↔
        (∃ j < t.size, name ∈ (l.facts j).scopes.undeclaredNames) ∨
          ∃ j, Precedes (t.sorted (callPlace modules)) j i ∧
            ∃ c, (name, c) ∈ (l.facts j).scopes.programBindings)) ∧
    (∀ name, ∀ i < t.size, ∀ j < t.size, l.Keeps i name → l.Keeps j name → i = j) ∧
    (∀ name, ∀ i < t.size, l.Keeps i name → ∀ j < t.size, ¬t.UsesGlobal j name) := by
  intro l
  refine ⟨fun i hi name b hb => ?_, fun name i hi j hj hkeeps hkeeps' => ?_,
    fun name i hi hkeeps j hj hglobal => ?_⟩
  · rw [mem_renamedBindings_iff_of_bound hm hi hb, mem_globalNames_iff hm]
    simp only [TakenBefore, ← binds_iff_mem, binds_iff, l]
  · have hfirst := ((keeps_iff_find? hm hi).mp hkeeps).2
    have hfirst' := ((keeps_iff_find? hm hj).mp hkeeps').2
    exact Option.some.inj (hfirst.symm.trans hfirst')
  · refine ((keeps_iff_find? hm hi).mp hkeeps).1 ((mem_globalNames_iff hm).mpr ?_)
    exact ⟨j, hj, (usesGlobal_iff hm hj).mp hglobal⟩

/-- Two modules with a name in common, of which the second uses a name that the first declares. -/
def hiddenGlobal : Table := ⟨[
  { id := .number 1, source := "var a; var b;" },
  { id := .number 2, source := "var a; f(b);" }]⟩

theorem renamed_iff_taken_hiddenGlobal : ∃ modules, scanModules hiddenGlobal = .ok modules ∧
    ∃ b, ("b", b) ∈ ((ofModules hiddenGlobal modules).facts 0).scopes.programBindings ∧
      b ∈ (ofModules hiddenGlobal modules).renamedBindings 0 := by
  obtain ⟨modules, hm, hbinds, hglobal⟩ : ∃ modules ∈ (scanModules hiddenGlobal).toOption,
      (ofModules hiddenGlobal modules).binds "b" 0 ∧
        "b" ∈ ((ofModules hiddenGlobal modules).facts 1).scopes.undeclaredNames := by decide +kernel
  have hm := mem_toOption_scanModules.mp hm
  obtain ⟨b, hb⟩ := binds_iff.mp hbinds
  have hrenamed := ((renamed_iff_taken hm).1 0 (by decide) "b" b hb).mpr (.inl ⟨1, by decide, hglobal⟩)
  exact ⟨modules, hm, b, hb, hrenamed⟩

section Order

theorem find?_order {p : Nat → Bool} : (ofModules t modules).order.find? p =
    ((t.sorted (callPlace modules)).find? fun i => (ofModules t modules).isOnDemand i && p i).or
      ((t.sorted (callPlace modules)).find? fun i => !(ofModules t modules).isOnDemand i && p i) := by
  rw [order_ofModules, List.find?_append, List.find?_filter, List.find?_filter]
  simp only [Bool.decide_and, Bool.decide_eq_true]

theorem find?_and_of_find? {xs : List Nat} {p q : Nat → Bool} (h : xs.find? p = some i) (hq : q i) :
    xs.find? (fun j => q j && p j) = some i := by
  obtain ⟨hp, front, back, hsplit, hfront⟩ := List.find?_eq_some_iff_append.mp h
  refine List.find?_eq_some_iff_append.mpr ⟨by simp [hp, hq], front, back, hsplit, fun j hj => ?_⟩
  have hj := hfront j hj
  simp_all

/-- The first module to run of some is also the first one listed if it is on demand, or else if none of
them is. -/
theorem find?_order_eq_iff {p : Nat → Bool}
    (hfirst : (t.sorted (callPlace modules)).find? p = some i) :
    (ofModules t modules).order.find? p = some i ↔
      (ofModules t modules).isOnDemand i ∨
        ∀ j < t.size, (ofModules t modules).isOnDemand j → ¬p j := by
  by_cases hdemand : (ofModules t modules).isOnDemand i
  · rw [find?_order, find?_and_of_find? hfirst hdemand]
    simp [hdemand]
  · rw [or_iff_right hdemand]
    constructor
    · intro hlisted j hj hjdemand hp
      -- the first one of those on demand is listed before `i`
      have hsome : ((t.sorted (callPlace modules)).find? fun j =>
          (ofModules t modules).isOnDemand j && p j).isSome :=
        List.find?_isSome.mpr ⟨j, Table.mem_sorted.mpr hj, by simp [hjdemand, hp]⟩
      obtain ⟨k, hk⟩ := Option.isSome_iff_exists.mp hsome
      rw [find?_order, hk, Option.some_or] at hlisted
      obtain rfl := Option.some.inj hlisted
      have hkdemand := List.find?_some hk
      simp [hdemand] at hkdemand
    · intro hnone
      have hnone : (t.sorted (callPlace modules)).find?
          (fun j => (ofModules t modules).isOnDemand j && p j) = none := by
        rw [List.find?_eq_none]
        intro j hj hboth
        rw [Bool.and_eq_true] at hboth
        exact hnone j (Table.mem_sorted.mp hj) hboth.1 hboth.2
      rw [find?_order, hnone, Option.none_or]
      exact find?_and_of_find? (q := fun j => !(ofModules t modules).isOnDemand j) hfirst
        (by simpa using hdemand)

end Order

/-- A name that is no global is kept by the first module to run that has it. This is the first one in the
bundle that has it just when it is on demand or no module on demand has the name. -/
theorem keeps_iff_runsFirst (hm : scanModules t = .ok modules)
    (hname : ∀ j < t.size, ¬t.UsesGlobal j name) :
    let l := ofModules t modules
    (∀ i < t.size, l.Keeps i name ↔ (t.sorted (callPlace modules)).find? (l.binds name) = some i) ∧
    (∀ i < t.size, l.Keeps i name → (l.order.find? (l.binds name) = some i ↔
      l.isOnDemand i ∨ ∀ j < t.size, l.isOnDemand j → ¬l.binds name j)) := by
  intro l
  have hkeeps : ∀ i < t.size, l.Keeps i name ↔
      (t.sorted (callPlace modules)).find? (l.binds name) = some i := fun i hi =>
    (keeps_iff_find? hm hi).trans (and_iff_right (not_mem_globalNames_of_unused hm hname))
  exact ⟨hkeeps, fun i hi h => find?_order_eq_iff ((hkeeps i hi).mp h)⟩

/-- Two modules with a name in common. The second one runs on demand, since the third calls for it in a
function. -/
def nameOnDemand : List Record := [
  { id := .number 1, source := "var a = 1;" },
  { id := .number 2, source := "var a = 2;" },
  { id := .number 3, source := "function f() \x7b require('./b'); \x7d",
    deps := [("./b", some (.number 2))] }]

theorem sorted_nameOnDemand (place : Nat → Nat → Option Nat) :
    Table.sorted ⟨nameOnDemand⟩ place = [0, 1, 2] := by
  let t : Table := ⟨nameOnDemand⟩
  have hranked : t.ranked = [0, 1, 2] := List.mergeSort_of_pairwise (by decide +kernel)
  have hvisit0 : t.visitDeps place 0 = [] := by
    rw [Table.visitDeps, show t.internalDeps 0 = [] by decide +kernel, List.mergeSort_nil]
  have hvisit1 : t.visitDeps place 1 = [] := by
    rw [Table.visitDeps, show t.internalDeps 1 = [] by decide +kernel, List.mergeSort_nil]
  have hvisit2 : t.visitDeps place 2 = [1] := by
    rw [Table.visitDeps, show t.internalDeps 2 = [1] by decide +kernel, List.mergeSort_singleton]
  have hrange : List.range t.size = [0, 1, 2] := rfl
  change t.sorted place = [0, 1, 2]
  rw [Table.sorted_eq_walk, hranked, hrange]
  simp [walk, postorder, hvisit0, hvisit1, hvisit2]

theorem exists_modules_nameOnDemand : ∃ modules, scanModules ⟨nameOnDemand⟩ = .ok modules ∧
    let l := ofModules ⟨nameOnDemand⟩ modules
    l.binds "a" 0 ∧ l.binds "a" 1 ∧ ¬l.isOnDemand 0 ∧ l.isOnDemand 1 ∧
      ∀ j < 3, ¬Table.UsesGlobal ⟨nameOnDemand⟩ j "a" := by
  obtain ⟨modules, hm, hfirst, hsecond, heager, hdemand, hfree⟩ :
      ∃ modules ∈ (scanModules ⟨nameOnDemand⟩).toOption, let l := ofModules ⟨nameOnDemand⟩ modules
        l.binds "a" 0 ∧ l.binds "a" 1 ∧ ¬l.isOnDemand 0 ∧ l.isOnDemand 1 ∧
          ∀ j < 3, "a" ∉ (l.facts j).scopes.undeclaredNames := by decide +kernel
  have hm := mem_toOption_scanModules.mp hm
  exact ⟨modules, hm, hfirst, hsecond, heager, hdemand, fun j hj =>
    mt (usesGlobal_iff hm hj).mp (hfree j hj)⟩

theorem keeps_iff_runsFirst_nameOnDemand : ∃ modules, scanModules ⟨nameOnDemand⟩ = .ok modules ∧
    let l := ofModules ⟨nameOnDemand⟩ modules
    l.Keeps 0 "a" ∧ l.order.find? (l.binds "a") ≠ some 0 := by
  obtain ⟨modules, hm, hfirst, hsecond, heager, hdemand, hfree⟩ := exists_modules_nameOnDemand
  obtain ⟨hkeeps, hlisted⟩ := keeps_iff_runsFirst hm hfree
  have hkept := (hkeeps 0 (by decide)).mpr (by
    rw [sorted_nameOnDemand]
    exact List.find?_cons_of_pos hfirst)
  refine ⟨modules, hm, hkept, fun hlist => ?_⟩
  rcases (hlisted 0 (by decide) hkept).mp hlist with hdemand' | hnone
  · exact heager hdemand'
  · exact hnone 1 (by decide) hdemand hsecond

theorem not_keeps_firstListed :
    ¬∀ (records : List Record) (t : Table) (modules : List ModuleFacts),
      Table.ofRecords records = .ok t → scanModules t = .ok modules →
        ∀ name, (∀ j < t.size, ¬t.UsesGlobal j name) →
          ∀ i < t.size, (ofModules t modules).Keeps i name →
            (ofModules t modules).order.find? ((ofModules t modules).binds name) = some i := by
  intro h
  have ht : Table.ofRecords nameOnDemand = .ok ⟨nameOnDemand⟩ :=
    Table.ofRecords_eq_ok_iff.mpr ⟨by decide, rfl⟩
  obtain ⟨modules, hm, hfirst, hsecond, heager, hdemand, hfree⟩ := exists_modules_nameOnDemand
  have hruns : (Table.sorted ⟨nameOnDemand⟩ (callPlace modules)).find?
      ((ofModules ⟨nameOnDemand⟩ modules).binds "a") = some 0 := by
    rw [sorted_nameOnDemand]
    exact List.find?_cons_of_pos hfirst
  have hkept : (ofModules ⟨nameOnDemand⟩ modules).Keeps 0 "a" :=
    (keeps_iff_find? hm (by decide)).mpr ⟨not_mem_globalNames_of_unused hm hfree, hruns⟩
  rcases (find?_order_eq_iff hruns).mp (h _ _ modules ht hm "a" hfree 0 (by decide) hkept) with
    hdemand' | hnone
  · exact heager hdemand'
  · exact hnone 1 (by decide) hdemand hsecond

end Linked

end FlatBundle
