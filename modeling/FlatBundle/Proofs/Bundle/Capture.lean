import FlatBundle.Proofs.Bundle.Placement
import FlatBundle.Proofs.Bundle.Rewriting

/-!
Names that the bundle makes up, at the places where it writes them. A module's own scopes around such a
place may bind the very same name, which then means something else there.
-/

namespace FlatBundle

variable {options : Options} {t : Table} {modules : List ModuleFacts} {l : Linked} {e : Edit}
  {name : String} {i at_ b : Nat}

/-- An edit that is there in the text that a module ends up with. -/
def TakesEffect (options : Options) (l : Linked) (i : Nat) (e : Edit) : Prop :=
  ∃ edits, resolveEdits (l.facts i).record.source.toList (placedEdits options l i) = .ok edits ∧
    e ∈ edits

namespace Linked

/-- The scopes around a place that are a module's own, from the inside out: the top level of an eager
module is a part of the scope that all of them share. -/
def ownScopes (l : Linked) (i at_ : Nat) : List Nat :=
  ((l.facts i).scopes.chain at_).filter fun s =>
    s != ScopeTree.wrapperScope && (l.isOnDemand i || s != ScopeTree.programScope)

/-- At a place in a module, a name means a variable that is the module's own. -/
def BindsAround (l : Linked) (i at_ : Nat) (name : String) : Prop :=
  ∃ s ∈ l.ownScopes i at_, ((l.facts i).scopes.scope s).bindings.lookup name ≠ none

/-- Some declaration in the source of a module puts a name into one of the module's own scopes around a
place. -/
def DeclaresAround (l : Linked) (i at_ : Nat) (name : String) : Prop :=
  ∃ p, Script.Program.parse? (l.facts i).record.source = some p ∧
    ∃ s ∈ l.ownScopes i at_, (l.facts i).scopes.DeclaredIn p.visited s name

/-- No name that an edit writes is bound by a scope of the module around it. -/
def CaptureFree (options : Options) (l : Linked) (size : Nat) : Prop :=
  ∀ i < size, ∀ at_ name e, l.Writes i at_ name e → TakesEffect options l i e →
    ¬l.BindsAround i at_ name

theorem ne_wrapper_of_mem_ownScopes {s : Nat} (h : s ∈ l.ownScopes i at_) :
    s ≠ ScopeTree.wrapperScope := by
  have hs := (List.mem_filter.mp h).2
  simp only [Bool.and_eq_true, bne_iff_ne] at hs
  exact hs.1

/-- The own scopes are the inner ones of those around a place. -/
theorem mem_ownScopes_of_le {s owner : Nat} (hs : s ∈ l.ownScopes i at_) (hle : s ≤ owner)
    (howner : owner ∈ (l.facts i).scopes.chain at_) : owner ∈ l.ownScopes i at_ := by
  have hown := (List.mem_filter.mp hs).2
  refine List.mem_filter.mpr ⟨howner, ?_⟩
  simp only [ScopeTree.wrapperScope, ScopeTree.programScope, Bool.and_eq_true, Bool.or_eq_true,
    bne_iff_ne] at hown ⊢
  obtain ⟨hwrapper, hprogram⟩ := hown
  refine ⟨by omega, hprogram.imp id fun hne => ?_⟩
  omega

section Build

variable (hm : scanModules t = .ok modules) (hi : i < t.size)
include hm hi

/-- A scope around a place binds a name just when the source declares the name there. -/
theorem bindsAround_iff_declaresAround :
    (ofModules t modules).BindsAround i at_ name ↔ (ofModules t modules).DeclaresAround i at_ name := by
  let l := ofModules t modules
  obtain ⟨p, hp, hfacts⟩ := exists_program hm hi
  have hrecord : (l.facts i).record = t.get i := record_facts hm hi
  have hscopes : (l.facts i).scopes = (Analysis.ofProgram p (t.get i).source).scopes :=
    congrArg ModuleFacts.scopes hfacts
  have hbound {s : Nat} (hs : s ∈ l.ownScopes i at_) :
      ((l.facts i).scopes.scope s).bindings.lookup name ≠ none ↔
        (l.facts i).scopes.DeclaredIn p.visited s name := by
    rw [← Option.isSome_iff_ne_none, hscopes, Analysis.bound_ofProgram]
    exact or_iff_right fun h => ne_wrapper_of_mem_ownScopes hs h.1
  constructor
  · rintro ⟨s, hs, hlookup⟩
    exact ⟨p, hrecord ▸ hp, s, hs, (hbound hs).mp hlookup⟩
  · rintro ⟨p', hp', s, hs, hdeclared⟩
    rw [hrecord, hp] at hp'
    obtain rfl := Option.some.inj hp'
    exact ⟨s, hs, (hbound hs).mpr hdeclared⟩

/-- A name is captured at a place just when the module itself would mean a variable of its own by it. -/
theorem bindsAround_iff_findBinding :
    (ofModules t modules).BindsAround i at_ name ↔
      ∃ b, ((ofModules t modules).facts i).scopes.findBinding at_ name = some b ∧
        (((ofModules t modules).facts i).scopes.binding b).scope ∈
          (ofModules t modules).ownScopes i at_ := by
  let l := ofModules t modules
  let scopes := (l.facts i).scopes
  have hsound : scopes.Sound := sound_facts hm hi
  have hscope {s b : Nat} (h : (scopes.scope s).bindings.lookup name = some b) :
      (scopes.binding b).scope = s :=
    (hsound.bound s _ (ScopeTree.Sound.mem_of_lookup h)).2.2
  constructor
  · rintro ⟨s, hs, hlookup⟩
    have hchain : s ∈ scopes.chain at_ := (List.mem_filter.mp hs).1
    cases hfind : scopes.findBinding at_ name with
    | none => exact absurd (List.findSome?_eq_none_iff.mp hfind s hchain) hlookup
    | some b =>
      obtain ⟨inner, owner, outer, hparts, howner, hinner⟩ := ScopeTree.findBinding_eq_some_iff.mp hfind
      have hmem : owner ∈ scopes.chain at_ := by
        rw [hparts]
        exact List.mem_append_right _ (List.mem_cons_self ..)
      -- scopes are numbered from the outside in, and no scope within the owner binds the name
      have hle : s ≤ owner := Nat.le_of_not_lt fun hlt =>
        hlookup (hinner s (hsound.mem_inner hparts hchain hlt))
      refine ⟨b, rfl, ?_⟩
      rw [hscope howner]
      exact mem_ownScopes_of_le hs hle hmem
  · rintro ⟨b, hfind, hmem⟩
    obtain ⟨inner, owner, outer, -, howner, -⟩ := ScopeTree.findBinding_eq_some_iff.mp hfind
    rw [hscope howner] at hmem
    refine ⟨owner, hmem, ?_⟩
    rw [howner]
    exact Option.some_ne_none b

theorem renamedBindings_eq_nil (h : (ofModules t modules).topLevelNames i = []) :
    (ofModules t modules).renamedBindings i = [] := by
  refine List.eq_nil_iff_forall_not_mem.mpr fun b hb => ?_
  obtain ⟨name, hname, -⟩ := (mem_renamedBindings_iff hi (nodup_topLevelNames hm hi)).mp hb
  have hmem : name ∈ (ofModules t modules).topLevelNames i := List.mem_map.mpr ⟨_, hname, rfl⟩
  rw [h] at hmem
  cases hmem

theorem looksGenerated_exportsName : LooksGenerated ((ofModules t modules).facts i).exportsName :=
  ⟨_, .inl (exportsName_facts hm hi)⟩

theorem lt_size_of_requirement {call : RequireCall} {target : Nat}
    (h : ⟨call, .internal target⟩ ∈ ((ofModules t modules).facts i).requirements) :
    target < t.size := by
  obtain ⟨p, -, hfacts⟩ := exists_program hm hi
  rw [hfacts] at h
  obtain ⟨call', -, heq⟩ := List.mem_map.mp h
  exact t.lt_size_of_resolve (congrArg Requirement.target heq)

theorem looksGenerated_of_writes (h : (ofModules t modules).Writes i at_ name e) :
    LooksGenerated name := by
  cases h with
  | exports | moduleExports | module => exact looksGenerated_exportsName hm hi
  | changed => exact ⟨_, .inr (changedName_eq _ _)⟩
  | call _ _ _ needed => exact looksGenerated_exportsName hm (lt_size_of_requirement hm hi needed)
  | inlined inlines => exact looksGenerated_exportsName hm (lt_size_of_requirement hm hi inlines.1)

end Build

/-- Each edit writes a name that the bundle makes up, or no name at all. Nobody asks what the module
itself declares around the place, so that nothing is captured just when no declaration there happens to
be one of the name, as where no declaration looks like a name that the bundle makes up. -/
theorem captureFree_iff (hm : scanModules t = .ok modules) :
    let l := ofModules t modules
    (∀ i < t.size, ∀ e ∈ moduleEdits l i, (∃ at_ name, l.Writes i at_ name e) ∨ l.WritesNoName i e) ∧
    (∀ i < t.size, ∀ at_ name e, l.Writes i at_ name e → e ∈ moduleEdits l i ∧ LooksGenerated name ∧
      (l.BindsAround i at_ name ↔ ∃ b, (l.facts i).scopes.findBinding at_ name = some b ∧
        ((l.facts i).scopes.binding b).scope ∈ l.ownScopes i at_)) ∧
    (CaptureFree options l t.size ↔ ∀ i < t.size, ∀ at_ name e, l.Writes i at_ name e →
      TakesEffect options l i e → ¬l.DeclaresAround i at_ name) ∧
    ((∀ i < t.size, ∀ p, Script.Program.parse? (t.get i).source = some p →
        ∀ at_ place name span shorthand, (at_, .declare place name span shorthand) ∈ p.visited →
          ¬LooksGenerated name) →
      CaptureFree options l t.size) := by
  intro l
  refine ⟨fun i hi e he => writes_of_mem_moduleEdits hm hi he, fun i hi at_ name e h =>
    ⟨h.mem_moduleEdits, looksGenerated_of_writes hm hi h, bindsAround_iff_findBinding hm hi⟩,
    ⟨fun h i hi at_ name e hwrites heffect => ?_, fun h i hi at_ name e hwrites heffect => ?_⟩,
    fun hplain i hi at_ name e hwrites _ hbinds => ?_⟩
  · rw [← bindsAround_iff_declaresAround hm hi]
    exact h i hi at_ name e hwrites heffect
  · rw [bindsAround_iff_declaresAround hm hi]
    exact h i hi at_ name e hwrites heffect
  · obtain ⟨p, hp, s, -, at', place, span, shorthand, hdeclared, -⟩ :=
      (bindsAround_iff_declaresAround hm hi).mp hbinds
    rw [record_facts hm hi] at hp
    exact hplain i hi p hp at' place name span shorthand hdeclared (looksGenerated_of_writes hm hi hwrites)

/-- A module that needs another one in a function. -/
def calledWithin : List Record := [
  { id := .number 1, source := "(function (g) \x7b g(require('./a')); \x7d)(f);",
    deps := [("./a", some (.number 2))] },
  { id := .number 2, source := "f(exports);" }]

def declaredName? : Nat × Visit → Option String
  | (_, .declare _ name _ _) => some name
  | _ => none

theorem captureFree_calledWithin :
    ∃ t modules, Table.ofRecords calledWithin = .ok t ∧ scanModules t = .ok modules ∧
      ((ofModules t modules).facts 0).requirements ≠ [] ∧
      CaptureFree {} (ofModules t modules) t.size := by
  let t : Table := ⟨calledWithin⟩
  have ht : Table.ofRecords calledWithin = .ok t := Table.ofRecords_eq_ok_iff.mpr ⟨by decide, rfl⟩
  obtain ⟨modules, hm, hneeds, hnames⟩ : ∃ modules ∈ (scanModules t).toOption,
      ((ofModules t modules).facts 0).requirements ≠ [] ∧
      ∀ i < t.size, ∀ p ∈ Script.Program.parse? (t.get i).source,
        ∀ name ∈ p.visited.filterMap declaredName?, name = "g" := by decide +kernel
  have hm := mem_toOption_scanModules.mp hm
  refine ⟨t, modules, ht, hm, hneeds, (captureFree_iff hm).2.2.2 ?_⟩
  rintro i hi p hp at_ place name span shorthand hdeclared ⟨rest, hname⟩
  rw [hnames i hi p hp name (List.mem_filterMap.mpr ⟨_, hdeclared, rfl⟩)] at hname
  rcases hname with hname | hname <;> simp [← String.toList_inj] at hname

/-- A function with a parameter that is spelled like the variable of a module that the function needs. -/
def capturedCall : List Record := [
  { id := .number 1, source := "(function (_$module_2) \x7b f(require('./a')); \x7d)();",
    deps := [("./a", some (.number 2))] },
  { id := .number 2, source := "f(exports);" }]

theorem not_captureFree :
    ¬∀ (options : Options) (records : List Record) (t : Table) (modules : List ModuleFacts),
      Table.ofRecords records = .ok t → scanModules t = .ok modules →
        CaptureFree options (ofModules t modules) t.size := by
  intro h
  let t : Table := ⟨capturedCall⟩
  have ht : Table.ofRecords capturedCall = .ok t := Table.ofRecords_eq_ok_iff.mpr ⟨by decide, rfl⟩
  obtain ⟨modules, hm, hexports, htop, hnames, ⟨call, _⟩, hneeded, rfl, hnone, hedits, hfits, p, hp, ⟨at_, v⟩,
      hvisit, hcalled, hbinds⟩ :
      ∃ modules ∈ (scanModules t).toOption, let l := ofModules t modules
        (l.facts 1).exportsName = "_$module_2" ∧ l.topLevelNames 0 = [] ∧
        typeofRequireEdits (l.facts 0) ++ exportsEdits (l.facts 0) ++
          (l.facts 0).uses.module.map (moduleEdit (l.facts 0)) = [] ∧
        ∃ q ∈ (l.facts 0).requirements, q.target = .internal 1 ∧ q.call.declarator = none ∧
          requirementEdits l (l.facts 0) [] (l.facts 0).requirements =
            [.replacing q.call.span (l.exportsOf 1)] ∧
          (Edit.replacing q.call.span (l.exportsOf 1)).fits (l.facts 0).record.source.toList ∧
          ∃ p ∈ Script.Program.parse? (l.facts 0).record.source,
            ∃ e ∈ p.visited, (l.facts 0).scopes.called? e = some q.call ∧
              ∃ s ∈ l.ownScopes 0 e.1,
                ((l.facts 0).scopes.scope s).bindings.lookup "_$module_2" ≠ none := by decide +kernel
  have hm := mem_toOption_scanModules.mp hm
  let l := ofModules t modules
  obtain ⟨hfirst, hmodule⟩ := List.append_eq_nil_iff.mp hnames
  obtain ⟨htypeof, hown⟩ := List.append_eq_nil_iff.mp hfirst
  have hplaced : placedEdits {} l 0 = [.replacing call.span (l.exportsOf 1)] := by
    simp [placedEdits, moduleEdits, htypeof, hown, hmodule, hedits,
      renamedBindings_eq_nil hm (by decide) htop, l]
  have heffect : TakesEffect {} l 0 (.replacing call.span (l.exportsOf 1)) := by
    refine ⟨_, ?_, List.mem_singleton_self _⟩
    rw [hplaced, resolveEdits, List.mergeSort_singleton, reduceEdits, hfits]
    rfl
  have hwrites : l.Writes 0 at_ (l.facts 1).exportsName (.replacing call.span (l.exportsOf 1)) :=
    .call hp hvisit hcalled hneeded (.inr hnone)
  exact h {} _ t modules ht hm 0 (by decide) at_ _ _ hwrites heffect (hexports ▸ hbinds)

end Linked

end FlatBundle
