import FlatBundle.Proofs.Bundle.Spelling

/-!
The name `require` in the shared scope. Calls of modules outside of the bundle stay calls of the loader's
`require`, which a top-level `require` of some eager module would hide from all others.
-/

namespace FlatBundle

variable {t : Table} {modules : List ModuleFacts} {i : Nat}

/-- The edit for a call of a module outside of the bundle. -/
def externalEdit? (q : Requirement) : Option Edit :=
  match q.target with
  | .external id => some (.replacing q.call.span ("require(" ++ id.literal ++ ")"))
  | .internal _ => none

theorem requirementEdits_external {l : Linked} {m : ModuleFacts} {gone : List Script.Span}
    {qs : List Requirement} (h : ∀ q ∈ qs, externalEdit? q ≠ none) :
    requirementEdits l m gone qs = qs.filterMap externalEdit? := by
  induction qs generalizing gone with
  | nil => rfl
  | cons q qs ih =>
    obtain ⟨call, target⟩ := q
    have hrest := @ih gone fun q hq => h q (List.mem_cons_of_mem _ hq)
    cases target with
    | external id =>
      rw [requirementEdits, hrest]
      rfl
    | internal j => exact absurd rfl (h _ (List.mem_cons_self ..))

namespace Linked

/-- Some use of the loader's `require` is still there in the bundle: no edit takes it away, but for those
that put a call of `require` in its place. -/
def KeepsRequire (l : Linked) (i : Nat) : Prop :=
  ∃ r ∈ (l.facts i).uses.require, ∀ e ∈ moduleEdits l i,
    e.start ≤ r.span.start → r.span.stop ≤ e.stop →
      ∃ q ∈ (l.facts i).requirements, externalEdit? q = some e

/-- Where some module still needs the loader's `require`, no top-level name of an eager module hides
it. -/
def RequireApart (l : Linked) (size : Nat) : Prop :=
  (∃ j < size, l.KeepsRequire j) →
    ∀ i < size, ∀ name b, l.Emits i name b → l.spelling i b ≠ "require"

section Build

variable (hm : scanModules t = .ok modules)
include hm

theorem not_mem_globalNames {name : String} (h : name ∈ ScopeTree.wrapperNames) :
    name ∉ globalNames modules := by
  intro hmem
  obtain ⟨m, hmodule, hname⟩ := List.mem_flatMap.mp hmem
  obtain ⟨i, -, a, ha, rfl⟩ := exists_of_mem_scanModules hm hmodule
  obtain ⟨p, -, rfl⟩ := Option.map_eq_some_iff.mp ha
  exact Analysis.not_mem_undeclaredNames (t.get i).source h hname

theorem requirements_of_own_require (hi : i < t.size)
    (hown : "require" ∈ (ofModules t modules).topLevelNames i) :
    ((ofModules t modules).facts i).requirements = [] := by
  obtain ⟨p, hp, hfacts⟩ := exists_program hm hi
  obtain ⟨⟨_, b⟩, hb, rfl⟩ := List.mem_map.mp hown
  have hlookup := (sound_facts hm hi).lookup_of_mem hb
  rw [hfacts] at hlookup ⊢
  have hbound := Option.isSome_iff_ne_none.mp (Option.isSome_iff_exists.mpr ⟨b, hlookup⟩)
  have hcalls : (Analysis.ofProgram p (t.get i).source).calls = [] :=
    Analysis.calls_of_declared_require (Script.spanned_parse? hp).kind hbound
  exact List.map_eq_nil_iff.mpr hcalls

/-- The first eager module with a `require` of its own emits it as it is. -/
theorem emits_require (hi : i < t.size) (heager : (ofModules t modules).isOnDemand i = false)
    (hown : "require" ∈ (ofModules t modules).topLevelNames i)
    (hfirst : ¬TakenBefore t modules i "require") :
    ∃ b, (ofModules t modules).Emits i "require" b ∧
      (ofModules t modules).spelling i b = "require" := by
  obtain ⟨⟨_, b⟩, hb, rfl⟩ := List.mem_map.mp hown
  have hemits : (ofModules t modules).Emits i "require" b := by
    refine ⟨heager, hb, fun call d target hinlines => ?_⟩
    obtain ⟨hcall, -⟩ := hinlines
    rw [requirements_of_own_require hm hi hown] at hcall
    cases hcall
  refine ⟨b, hemits, spelling_of_kept hm hi hemits fun hrenamed => ?_⟩
  rcases (mem_renamedBindings_iff_of_bound hm hi hb).mp hrenamed with hglobal | htaken
  · exact not_mem_globalNames hm (by decide) hglobal
  · exact hfirst htaken

end Build

/-- A module with a `require` of its own calls for no other one. Among the top-level names `require`, the
one that comes first in the order of running stays as it is, so that others are safe from it only where
it is that of a module on demand, or where no module needs the loader's `require` any more. -/
theorem requireApart_iff (hm : scanModules t = .ok modules) :
    let l := ofModules t modules
    (∀ i < t.size, "require" ∈ l.topLevelNames i → (l.facts i).requirements = []) ∧
    (RequireApart l t.size ↔ (¬∃ j < t.size, l.KeepsRequire j) ∨
      ∀ i < t.size, "require" ∈ l.topLevelNames i → ¬TakenBefore t modules i "require" →
        l.isOnDemand i) := by
  intro l
  refine ⟨fun i hi => requirements_of_own_require hm hi, fun h => ?_, fun h hkeeps => ?_⟩
  · refine or_iff_not_imp_left.mpr fun hkeeps i hi hown hfirst => ?_
    refine Decidable.byContradiction fun heager => ?_
    obtain ⟨b, hemits, hspelling⟩ := emits_require hm hi (by simpa using heager) hown hfirst
    exact h (not_not.mp hkeeps) i hi _ b hemits hspelling
  · intro i hi name b hemits hspelling
    by_cases hchanged : b ∈ l.renamedBindings i
    · rw [spelling_of_changed hchanged, changedName_eq] at hspelling
      simp [← String.toList_inj] at hspelling
    · rw [spelling_of_kept hm hi hemits hchanged] at hspelling
      subst hspelling
      have hfirst : ¬TakenBefore t modules i "require" := fun htaken =>
        hchanged ((mem_renamedBindings_iff_of_bound hm hi hemits.bound).mpr (.inr htaken))
      have hown : "require" ∈ l.topLevelNames i := List.mem_map.mpr ⟨_, hemits.bound, rfl⟩
      have hdemand := h.resolve_left (not_not.mpr hkeeps) i hi hown hfirst
      rw [hemits.eager] at hdemand
      cases hdemand

/-- A module that calls for one outside of the bundle. -/
def externalCall : List Record := [
  { id := .number 1, source := "require('fs');" }]

theorem requireApart_externalCall :
    ∃ t modules, Table.ofRecords externalCall = .ok t ∧ scanModules t = .ok modules ∧
      RequireApart (ofModules t modules) t.size := by
  let t : Table := ⟨externalCall⟩
  have ht : Table.ofRecords externalCall = .ok t := Table.ofRecords_eq_ok_iff.mpr ⟨by decide, rfl⟩
  obtain ⟨modules, hm, hnames⟩ : ∃ modules ∈ (scanModules t).toOption,
      ∀ i < t.size, (ofModules t modules).topLevelNames i = [] := by decide +kernel
  have hm := mem_toOption_scanModules.mp hm
  refine ⟨t, modules, ht, hm, (requireApart_iff hm).2.mpr (.inr fun i hi hown _ => ?_)⟩
  rw [hnames i hi] at hown
  cases hown

/-- A module with a `require` of its own, and one that needs the loader's. -/
def hiddenRequire : List Record := [
  { id := .number 1, source := "var require = f;" },
  { id := .number 2, source := "require('fs');" }]

theorem not_requireApart :
    ¬∀ (records : List Record) (t : Table) (modules : List ModuleFacts),
      Table.ofRecords records = .ok t → scanModules t = .ok modules →
        RequireApart (ofModules t modules) t.size := by
  intro h
  let t : Table := ⟨hiddenRequire⟩
  have ht : Table.ofRecords hiddenRequire = .ok t := Table.ofRecords_eq_ok_iff.mpr ⟨by decide, rfl⟩
  obtain ⟨modules, hm, hown, heager, hnone, htypeof, hexports, hmodule, huses, hexternal⟩ :
      ∃ modules ∈ (scanModules t).toOption, let l := ofModules t modules
        l.topLevelNames 0 = ["require"] ∧ l.isOnDemand 0 = false ∧ l.topLevelNames 1 = [] ∧
        typeofRequireEdits (l.facts 1) = [] ∧ exportsEdits (l.facts 1) = [] ∧
        (l.facts 1).uses.module = [] ∧ (l.facts 1).uses.require ≠ [] ∧
        ∀ q ∈ (l.facts 1).requirements, externalEdit? q ≠ none := by decide +kernel
  have hm := mem_toOption_scanModules.mp hm
  obtain ⟨r, hr⟩ := List.exists_mem_of_ne_nil _ huses
  have hkeeps : (ofModules t modules).KeepsRequire 1 := by
    refine ⟨r, hr, fun e he _ _ => ?_⟩
    have hrenamed : (ofModules t modules).renamedBindings 1 = [] := by
      refine List.eq_nil_iff_forall_not_mem.mpr fun b hb => ?_
      obtain ⟨name, hname, -⟩ := (mem_renamedBindings_iff (by decide)
        (nodup_topLevelNames hm (by decide))).mp hb
      have hmem : name ∈ (ofModules t modules).topLevelNames 1 :=
        List.mem_map.mpr ⟨_, hname, rfl⟩
      rw [hnone] at hmem
      cases hmem
    simp only [moduleEdits, htypeof, hexports, hmodule, hrenamed, requirementEdits_external hexternal]
      at he
    exact List.mem_filterMap.mp (by simpa using he)
  have hfirst : ¬TakenBefore t modules 0 "require" := by
    rintro ⟨j, hj, hname⟩
    have hlt : j < 2 := Table.mem_sorted.mp hj.mem_left
    obtain rfl | rfl : j = 0 ∨ j = 1 := by omega
    · exact hj.not_symm Table.nodup_sorted hj
    · rw [hnone] at hname
      cases hname
  obtain ⟨b, hemits, hspelling⟩ := emits_require hm (by decide) heager
    (by rw [hown]; exact List.mem_singleton_self _) hfirst
  exact h _ t modules ht hm ⟨1, by decide, hkeeps⟩ 0 (by decide) _ b hemits hspelling

end Linked

end FlatBundle
