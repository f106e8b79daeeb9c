import FlatBundle.Bundle.Placement
import FlatBundle.Proofs.Link.ExportsName
import FlatBundle.Proofs.Link.Names
import FlatBundle.Proofs.Scope.Occurrences

/-!
The names of the one scope that all eager modules share: top-level names as they are spelled in the end,
the variables for the exports, the names of the code that the bundle brings along, and globals.
-/

namespace FlatBundle

variable {records : List Record} {t : Table} {modules : List ModuleFacts} {name : String} {b i j : Nat}

theorem changedName_eq (m : ModuleFacts) (b : Nat) :
    changedName m b = "__" ++ nameWithId (m.scopes.binding b).name m.record.id := by
  let bound := (m.scopes.binding b).name
  have hmark : Text.isIdContinue '_' = true := by decide
  have hkept := Text.keptText_cons hmark (a := bound ++ "_" ++ m.record.id.text)
  have hparts : "__" ++ bound ++ "_" ++ m.record.id.text =
      "_" ++ (String.ofList ['_'] ++ (bound ++ "_" ++ m.record.id.text)) := by
    simp [← String.toList_inj]
  rw [keptText_nameWithId] at hkept
  rw [changedName, hparts, Text.toIdentifier_underscore, hkept]
  simp [← String.toList_inj, bound]

/-- A name that changes keeps all its characters, behind `__` and before what is left of the id. -/
theorem changedName_of_isIdentifierName {m : ModuleFacts}
    (h : Text.isIdentifierName (m.scopes.binding b).name.toList) :
    changedName m b = "__" ++ (m.scopes.binding b).name ++ "_" ++ Text.keptText m.record.id.text := by
  rw [changedName_eq, nameWithId, Text.keptText_of_isIdentifierName h]
  simp [← String.toList_inj]

/-- Names in use are told apart by appending to the name that is wanted. -/
theorem exists_unusedName_eq (sources : List (List Char)) (base : String) :
    ∃ rest, unusedName sources base = base ++ rest := by
  have hnumbered (inUse : String → Bool) (fuel n : Nat) (name : String)
      (h : numberedName? inUse base fuel n = some name) : ∃ rest, name = base ++ rest := by
    induction fuel generalizing n with
    | zero => cases h
    | succ fuel ih =>
      rw [numberedName?] at h
      split at h
      · exact ih (n + 1) h
      · cases h
        exact ⟨"_" ++ toString n, String.append_assoc ..⟩
  have hbase : ∃ rest, base = base ++ rest := ⟨"", (String.append_empty).symm⟩
  unfold unusedName
  dsimp only
  split
  · cases hname : numberedName? _ base _ 0 with
    | none => exact hbase
    | some name => exact hnumbered _ _ _ _ hname
  · exact hbase

namespace Linked

/-- A top-level name as the bundle spells it. -/
def spelling (l : Linked) (i b : Nat) : String :=
  if b ∈ l.renamedBindings i then changedName (l.facts i) b
  else ((l.facts i).scopes.binding b).name

/-- The variable that gets its value from a call of an eager module is spelled like the variable of
that. -/
def Inlines (l : Linked) (i : Nat) (call : RequireCall) (d : RequireDeclarator) (target : Nat) :
    Prop :=
  ⟨call, .internal target⟩ ∈ (l.facts i).requirements ∧ l.isOnDemand target = false ∧
    call.declarator = some d

/-- A top-level name of an eager module that is not replaced by the variable of another one. -/
structure Emits (l : Linked) (i : Nat) (name : String) (b : Nat) : Prop where
  eager : l.isOnDemand i = false
  bound : (name, b) ∈ (l.facts i).scopes.programBindings
  stays : ∀ call d target, l.Inlines i call d target → d.binding ≠ b

section Build

variable (hm : scanModules t = .ok modules) (hi : i < t.size)
include hm hi

theorem exists_program : ∃ p, Script.Program.parse? (t.get i).source = some p ∧
    (ofModules t modules).facts i = .ofAnalysis t i (.ofProgram p (t.get i).source) :=
  exists_parse?_of_scanModules hm hi

theorem sound_facts : ((ofModules t modules).facts i).scopes.Sound := by
  obtain ⟨p, -, hfacts⟩ := exists_program hm hi
  rw [hfacts]
  exact (Analysis.sound_scopes : (Analysis.ofProgram p (t.get i).source).scopes.Sound)

theorem nodup_topLevelNames : ((ofModules t modules).topLevelNames i).Nodup :=
  (sound_facts hm hi).names ScopeTree.programScope

theorem name_of_bound (hb : (name, b) ∈ ((ofModules t modules).facts i).scopes.programBindings) :
    (((ofModules t modules).facts i).scopes.binding b).name = name :=
  ((sound_facts hm hi).bound ScopeTree.programScope _ hb).2.1

theorem isIdentifierName_of_topLevel (hname : name ∈ (ofModules t modules).topLevelNames i) :
    Text.isIdentifierName name.toList := by
  obtain ⟨p, hp, hfacts⟩ := exists_program hm hi
  obtain ⟨⟨_, b⟩, hb, rfl⟩ := List.mem_map.mp hname
  have hlookup := (sound_facts hm hi).lookup_of_mem hb
  rw [hfacts] at hlookup
  have hbound := Option.isSome_iff_ne_none.mp (Option.isSome_iff_exists.mpr ⟨b, hlookup⟩)
  exact Analysis.isIdentifierName_of_bound (t.get i).source (Script.spanned_parse? hp) (by decide) hbound

theorem binding_unique {b' : Nat}
    (hb : (name, b) ∈ ((ofModules t modules).facts i).scopes.programBindings)
    (hb' : (name, b') ∈ ((ofModules t modules).facts i).scopes.programBindings) : b = b' := by
  have hlookup := (sound_facts hm hi).lookup_of_mem hb
  have hlookup' := (sound_facts hm hi).lookup_of_mem hb'
  exact Option.some.inj (hlookup.symm.trans hlookup')

theorem changedName_of_bound
    (hb : (name, b) ∈ ((ofModules t modules).facts i).scopes.programBindings) :
    changedName ((ofModules t modules).facts i) b =
      "__" ++ name ++ "_" ++ Text.keptText (t.get i).id.text := by
  have hmem : name ∈ (ofModules t modules).topLevelNames i := List.mem_map.mpr ⟨_, hb, rfl⟩
  have hname := name_of_bound hm hi hb
  rw [changedName_of_isIdentifierName (hname ▸ isIdentifierName_of_topLevel hm hi hmem), hname, record_facts hm hi]

theorem mem_renamedBindings_iff_of_bound
    (hb : (name, b) ∈ ((ofModules t modules).facts i).scopes.programBindings) :
    b ∈ (ofModules t modules).renamedBindings i ↔
      name ∈ globalNames modules ∨ TakenBefore t modules i name := by
  rw [mem_renamedBindings_iff hi (nodup_topLevelNames hm hi)]
  constructor
  · rintro ⟨other, hother, htaken⟩
    have hsame : other = name :=
      (name_of_bound hm hi hother).symm.trans (name_of_bound hm hi hb)
    rwa [hsame] at htaken
  · exact fun htaken => ⟨name, hb, htaken⟩

end Build

/-- No top-level name is spelled like another name of the shared scope. -/
structure NamesApart (l : Linked) (size : Nat) : Prop where
  others : ∀ i < size, ∀ j < size, ∀ name b other c, l.Emits i name b → l.Emits j other c →
    (i, b) ≠ (j, c) → l.spelling i b ≠ l.spelling j c
  exports : ∀ i < size, ∀ name b, l.Emits i name b → ∀ j < size,
    l.spelling i b ≠ (l.facts j).exportsName
  loader : ∀ i < size, ∀ name b, l.Emits i name b →
    l.spelling i b ≠ (LoaderNames.ofModules l.modules).factory ∧
      l.spelling i b ≠ (LoaderNames.ofModules l.modules).exposed
  globals : ∀ i < size, ∀ name b, l.Emits i name b → l.spelling i b ∉ globalNames l.modules

/-- No name that stays is one that the bundle adds, and no changed name is a global, a name that stays,
or a changed name of another module. -/
structure GeneratedApart (l : Linked) (size : Nat) : Prop where
  kept : ∀ i < size, ∀ name b, l.Emits i name b → b ∉ l.renamedBindings i →
    (∀ j < size, name ≠ (l.facts j).exportsName) ∧
      name ≠ (LoaderNames.ofModules l.modules).factory ∧
      name ≠ (LoaderNames.ofModules l.modules).exposed
  changed : ∀ i < size, ∀ name b, l.Emits i name b → b ∈ l.renamedBindings i →
    changedName (l.facts i) b ∉ globalNames l.modules ∧
      ∀ j < size, ∀ other c, l.Emits j other c →
        (c ∉ l.renamedBindings j → changedName (l.facts i) b ≠ other) ∧
        (c ∈ l.renamedBindings j → i ≠ j →
          changedName (l.facts i) b ≠ changedName (l.facts j) c)

theorem spelling_of_changed (hchanged : b ∈ (ofModules t modules).renamedBindings i) :
    (ofModules t modules).spelling i b = changedName ((ofModules t modules).facts i) b := by
  rw [spelling, if_pos hchanged]

theorem changedName_ne_exportsName (hm : scanModules t = .ok modules) (hj : j < t.size)
    (m : ModuleFacts) : changedName m b ≠ ((ofModules t modules).facts j).exportsName := by
  have hexports := exportsName_facts hm hj
  rw [changedName_eq, hexports]
  intro h
  simp [← String.toList_inj] at h

theorem changedName_ne_loader (m : ModuleFacts) :
    changedName m b ≠ (LoaderNames.ofModules modules).factory ∧
      changedName m b ≠ (LoaderNames.ofModules modules).exposed := by
  obtain ⟨factory, hfactory⟩ :=
    exists_unusedName_eq (modules.map (·.record.source.toList)) "createModuleFactory"
  obtain ⟨exposed, hexposed⟩ :=
    exists_unusedName_eq (modules.map (·.record.source.toList)) "exposedRequire"
  rw [changedName_eq]
  constructor
  · intro h
    rw [LoaderNames.ofModules, hfactory] at h
    simp [← String.toList_inj] at h
  · intro h
    rw [LoaderNames.ofModules, hexposed] at h
    simp [← String.toList_inj] at h

section Apart

variable (hm : scanModules t = .ok modules)
include hm

theorem spelling_of_kept (hi : i < t.size) (hb : (ofModules t modules).Emits i name b)
    (hkept : b ∉ (ofModules t modules).renamedBindings i) :
    (ofModules t modules).spelling i b = name := by
  rw [spelling, if_neg hkept, name_of_bound hm hi hb.bound]

/-- The first of two modules with a name keeps it. -/
theorem kept_apart {c : Nat} (hi : i < t.size) (hj : j < t.size) (hij : i ≠ j)
    (hb : (name, b) ∈ ((ofModules t modules).facts i).scopes.programBindings)
    (hc : (name, c) ∈ ((ofModules t modules).facts j).scopes.programBindings) :
    b ∈ (ofModules t modules).renamedBindings i ∨ c ∈ (ofModules t modules).renamedBindings j := by
  have hmem {k : Nat} (hk : k < t.size) : k ∈ t.sorted (callPlace modules) :=
    Table.mem_sorted.mpr hk
  rcases precedes_or_precedes (hmem hi) (hmem hj) hij with h | h
  · refine .inr ((mem_renamedBindings_iff_of_bound hm hj hc).mpr (.inr ⟨i, h, ?_⟩))
    exact List.mem_map.mpr ⟨_, hb, rfl⟩
  · refine .inl ((mem_renamedBindings_iff_of_bound hm hi hb).mpr (.inr ⟨j, h, ?_⟩))
    exact List.mem_map.mpr ⟨_, hc, rfl⟩

theorem changedName_inj {other : String} {c : Nat} (hi : i < t.size)
    (hb : (name, b) ∈ ((ofModules t modules).facts i).scopes.programBindings)
    (hc : (other, c) ∈ ((ofModules t modules).facts i).scopes.programBindings)
    (h : changedName ((ofModules t modules).facts i) b =
      changedName ((ofModules t modules).facts i) c) : b = c := by
  rw [changedName_of_bound hm hi hb, changedName_of_bound hm hi hc] at h
  have hname : name = other := by
    simpa [← String.toList_inj] using h
  subst hname
  exact binding_unique hm hi hb hc

theorem namesApart_of_generatedApart
    (h : GeneratedApart (ofModules t modules) t.size) : NamesApart (ofModules t modules) t.size := by
  let l := ofModules t modules
  refine ⟨fun i hi j hj name b other c hb hc hne => ?_, fun i hi name b hb j hj => ?_,
    fun i hi name b hb => ?_, fun i hi name b hb => ?_⟩
  · by_cases hchanged : b ∈ l.renamedBindings i
    · obtain ⟨-, hothers⟩ := h.changed i hi name b hb hchanged
      obtain ⟨hkept, hboth⟩ := hothers j hj other c hc
      rw [spelling_of_changed hchanged]
      by_cases hchanged' : c ∈ l.renamedBindings j
      · rw [spelling_of_changed hchanged']
        by_cases hij : i = j
        · subst hij
          exact fun heq => hne (by rw [changedName_inj hm hi hb.bound hc.bound heq])
        · exact hboth hchanged' hij
      · rw [spelling_of_kept hm hj hc hchanged']
        exact hkept hchanged'
    · rw [spelling_of_kept hm hi hb hchanged]
      by_cases hchanged' : c ∈ l.renamedBindings j
      · obtain ⟨-, hothers⟩ := h.changed j hj other c hc hchanged'
        rw [spelling_of_changed hchanged']
        exact ((hothers i hi name b hb).1 hchanged).symm
      · rw [spelling_of_kept hm hj hc hchanged']
        rintro rfl
        by_cases hij : i = j
        · subst hij
          exact hne (by rw [binding_unique hm hi hb.bound hc.bound])
        · -- two modules that both keep a name: the later one would have found it taken
          rcases kept_apart hm hi hj hij hb.bound hc.bound with hin | hin
          · exact hchanged hin
          · exact hchanged' hin
  · by_cases hchanged : b ∈ l.renamedBindings i
    · rw [spelling_of_changed hchanged]
      exact changedName_ne_exportsName hm hj _
    · rw [spelling_of_kept hm hi hb hchanged]
      exact (h.kept i hi name b hb hchanged).1 j hj
  · by_cases hchanged : b ∈ l.renamedBindings i
    · rw [spelling_of_changed hchanged]
      exact changedName_ne_loader _
    · rw [spelling_of_kept hm hi hb hchanged]
      exact (h.kept i hi name b hb hchanged).2
  · by_cases hchanged : b ∈ l.renamedBindings i
    · rw [spelling_of_changed hchanged]
      exact (h.changed i hi name b hb hchanged).1
    · rw [spelling_of_kept hm hi hb hchanged]
      exact fun hglobal =>
        hchanged ((mem_renamedBindings_iff_of_bound hm hi hb.bound).mpr (.inl hglobal))

theorem generatedApart_of_namesApart
    (h : NamesApart (ofModules t modules) t.size) : GeneratedApart (ofModules t modules) t.size := by
  let l := ofModules t modules
  refine ⟨fun i hi name b hb hkept => ?_, fun i hi name b hb hchanged => ⟨?_, fun j hj other c hc =>
    ⟨fun hkept' => ?_, fun hchanged' hij => ?_⟩⟩⟩
  · have hspelling : l.spelling i b = name := spelling_of_kept hm hi hb hkept
    exact ⟨fun j hj => hspelling ▸ h.exports i hi name b hb j hj, hspelling ▸ h.loader i hi name b hb⟩
  · rw [← spelling_of_changed hchanged]
    exact h.globals i hi name b hb
  · have hne : (i, b) ≠ (j, c) := by
      rintro heq
      cases heq
      exact hkept' hchanged
    rw [← spelling_of_changed hchanged, ← spelling_of_kept hm hj hc hkept']
    exact h.others i hi j hj name b other c hb hc hne
  · rw [← spelling_of_changed hchanged, ← spelling_of_changed hchanged']
    exact h.others i hi j hj name b other c hb hc fun heq => hij (Prod.mk.inj heq).1

end Apart

/-- A name that starts like those that the bundle makes up. -/
def LooksGenerated (name : String) : Prop :=
  ∃ rest, name = "_$" ++ rest ∨ name = "__" ++ rest

theorem generatedApart_of_plainNames (ht : Table.ofRecords records = .ok t)
    (hm : scanModules t = .ok modules) (hids : ∀ i < t.size, (t.get i).id.isNumber)
    (hnames : ∀ i < t.size, ∀ name b, (ofModules t modules).Emits i name b →
      ¬LooksGenerated name ∧ name ≠ (LoaderNames.ofModules modules).factory ∧
        name ≠ (LoaderNames.ofModules modules).exposed)
    (hglobals : ∀ name ∈ globalNames modules, ¬LooksGenerated name) :
    GeneratedApart (ofModules t modules) t.size := by
  let l := ofModules t modules
  have hlooks (m : ModuleFacts) (b : Nat) : LooksGenerated (changedName m b) :=
    ⟨_, .inr (changedName_eq m b)⟩
  refine ⟨fun i hi name b hb _ => ?_, fun i hi name b hb _ => ⟨?_, fun j hj other c hc =>
    ⟨fun _ => ?_, fun _ hij => ?_⟩⟩⟩
  · obtain ⟨hplain, hloader⟩ := hnames i hi name b hb
    refine ⟨fun j hj heq =>
      hplain ⟨nameWithId (l.facts j).exportsBase (t.get j).id, .inl ?_⟩, hloader⟩
    exact heq.trans (exportsName_facts hm hj)
  · exact fun hglobal => hglobals _ hglobal (hlooks _ b)
  · rintro rfl
    exact (hnames j hj _ c hc).1 (hlooks _ b)
  · intro heq
    rw [changedName_eq, changedName_eq, String.append_right_inj, record_facts hm hi,
      record_facts hm hj] at heq
    cases hidi : (t.get i).id with
    | name => simpa [hidi, ModuleId.isNumber] using hids i hi
    | number m =>
      cases hidj : (t.get j).id with
      | name => simpa [hidj, ModuleId.isNumber] using hids j hj
      | number n =>
        rw [hidi, hidj] at heq
        obtain ⟨-, rfl⟩ := nameWithId_number_inj heq
        exact hij (Table.distinctIds_of_ofRecords ht i hi j hj (hidi.trans hidj.symm))

/-- A top-level name gives way to globals and to the modules that run before, and then takes `__` and
the id of its module. This keeps the names of the shared scope apart just when none of the source names
is one that the bundle makes up, as is certain where none of them looks like one and all ids are
numbers. -/
theorem namesApart_iff (ht : Table.ofRecords records = .ok t) (hm : scanModules t = .ok modules) :
    let l := ofModules t modules
    (∀ i < t.size, ∀ name b, (name, b) ∈ (l.facts i).scopes.programBindings →
      (b ∈ l.renamedBindings i ↔ name ∈ globalNames modules ∨ TakenBefore t modules i name) ∧
      l.spelling i b = if b ∈ l.renamedBindings i then
        "__" ++ name ++ "_" ++ Text.keptText (t.get i).id.text else name) ∧
    (NamesApart l t.size ↔ GeneratedApart l t.size) ∧
    ((∀ i < t.size, (t.get i).id.isNumber) →
      (∀ i < t.size, ∀ name b, l.Emits i name b → ¬LooksGenerated name ∧
        name ≠ (LoaderNames.ofModules modules).factory ∧
        name ≠ (LoaderNames.ofModules modules).exposed) →
      (∀ name ∈ globalNames modules, ¬LooksGenerated name) → NamesApart l t.size) := by
  refine ⟨fun i hi name b hb => ⟨mem_renamedBindings_iff_of_bound hm hi hb, ?_⟩,
    ⟨generatedApart_of_namesApart hm, namesApart_of_generatedApart hm⟩, fun hids hnames hglobals => ?_⟩
  · rw [spelling, changedName_of_bound hm hi hb, name_of_bound hm hi hb]
  · exact namesApart_of_generatedApart hm (generatedApart_of_plainNames ht hm hids hnames hglobals)

/-- Two modules with a name in common. -/
def sharedName : List Record := [
  { id := .number 1, source := "var x;" },
  { id := .number 2, source := "var x;" }]

theorem namesApart_sharedName :
    ∃ t modules, Table.ofRecords sharedName = .ok t ∧ scanModules t = .ok modules ∧
      NamesApart (ofModules t modules) t.size := by
  let t : Table := ⟨sharedName⟩
  have ht : Table.ofRecords sharedName = .ok t := Table.ofRecords_eq_ok_iff.mpr ⟨by decide, rfl⟩
  obtain ⟨modules, hm, hnames, hglobals, hloader⟩ : ∃ modules ∈ (scanModules t).toOption,
      (∀ i < t.size, (ofModules t modules).topLevelNames i = ["x"]) ∧ globalNames modules = [] ∧
        LoaderNames.ofModules modules = ⟨"createModuleFactory", "exposedRequire"⟩ := by decide +kernel
  have hm := mem_toOption_scanModules.mp hm
  have hplain : ¬LooksGenerated "x" := by
    rintro ⟨rest, h | h⟩ <;> simp [← String.toList_inj] at h
  refine ⟨t, modules, ht, hm, (namesApart_iff ht hm).2.2 (by decide) (fun i hi name b hb => ?_) ?_⟩
  · have hmem : name ∈ (ofModules t modules).topLevelNames i := List.mem_map.mpr ⟨_, hb.bound, rfl⟩
    rw [hnames i hi] at hmem
    rw [List.mem_singleton.mp hmem, hloader]
    exact ⟨hplain, by decide, by decide⟩
  · intro global hglobal
    rw [hglobals] at hglobal
    cases hglobal

/-- A module with a name that the bundle makes up for it. -/
def takenVariable : List Record := [
  { id := .number 1, source := "var _$module_1 = 5;" }]

theorem not_namesApart :
    ¬∀ (records : List Record) (t : Table) (modules : List ModuleFacts),
      Table.ofRecords records = .ok t → scanModules t = .ok modules →
        NamesApart (ofModules t modules) t.size := by
  intro h
  let t : Table := ⟨takenVariable⟩
  have ht : Table.ofRecords takenVariable = .ok t := Table.ofRecords_eq_ok_iff.mpr ⟨by decide, rfl⟩
  obtain ⟨modules, hm, hexports, hbindings, hcalls, hglobals, heager⟩ :
      ∃ modules ∈ (scanModules t).toOption, let l := ofModules t modules
        (l.facts 0).exportsName = "_$module_1" ∧
        (l.facts 0).scopes.programBindings = [("_$module_1", 3)] ∧
        (l.facts 0).requirements = [] ∧ globalNames modules = [] ∧ l.isOnDemand 0 = false := by
    decide +kernel
  have hm := mem_toOption_scanModules.mp hm
  let l := ofModules t modules
  have hbound : ("_$module_1", 3) ∈ (l.facts 0).scopes.programBindings := by
    rw [hbindings]
    exact List.mem_singleton_self _
  have hemits : l.Emits 0 "_$module_1" 3 := by
    refine ⟨heager, hbound, fun call d target hinlines => ?_⟩
    obtain ⟨hcall, -⟩ := hinlines
    rw [hcalls] at hcall
    cases hcall
  have hkept : 3 ∉ l.renamedBindings 0 := by
    intro hrenamed
    rcases (mem_renamedBindings_iff_of_bound hm (by decide) hbound).mp hrenamed with hin | ⟨j, hj, -⟩
    · rw [hglobals] at hin
      cases hin
    · have hlt : j < 1 := Table.mem_sorted.mp hj.mem_left
      obtain rfl : j = 0 := by omega
      exact hj.not_symm Table.nodup_sorted hj
  refine (h _ t modules ht hm).exports 0 (by decide) _ _ hemits 0 (by decide) ?_
  rw [spelling_of_kept hm (by decide) hemits hkept]
  exact hexports.symm

end Linked

end FlatBundle
