import FlatBundle.Proofs.Bundle.Emission

/-!
Whether a bundle can be read as a script.
-/

namespace FlatBundle

open Script (Node Kind)

mutual

/-- Whether some part of a node imports or exports. -/
def hasModuleItem : Node → Bool
  | .mk kind _ children =>
    kind == .importDeclaration || kind == .exportDeclaration || anyHasModuleItem children

def anyHasModuleItem : List Node → Bool
  | [] => false
  | n :: rest => hasModuleItem n || anyHasModuleItem rest

end

/-- A bundle of plain scripts is a script. -/
def EmitsScript (options : Options) (records : List Record) : Prop :=
  (∀ r ∈ records, ∀ p, Script.Program.parse? r.source = some p → hasModuleItem p.tree = false) →
    ∀ b, bundle options records = .ok b → ∃ p, Script.Program.parse? b.code = some p

/-- An export in parentheses. -/
def exportInParens : List Record := [{ id := .number 1, source := "(module.exports = 5);" }]

theorem not_emitsScript :
    ¬∀ (options : Options) (records : List Record), EmitsScript options records := by
  intro h
  let t : Table := ⟨exportInParens⟩
  have ht : Table.ofRecords exportInParens = .ok t := Table.ofRecords_eq_ok_iff.mpr ⟨by decide, rfl⟩
  let code := "(function()\x7b\n(var _$module_1 = 5);\n\x7d());\n"
  obtain ⟨modules, hm, htop, e, -, hedits, hfits, hcode⟩ :
      ∃ modules ∈ (scanModules t).toOption, let l := Linked.ofSorted t modules [0]
        l.topLevelNames 0 = [] ∧
        ∃ e ∈ plainEdits l 0, plainEdits l 0 = [e] ∧ e.fits (l.facts 0).record.source.toList ∧
          (builtBundle {} l [{ code := placedText l (LoaderNames.ofModules modules) 0 [e] }]).code = code := by
    decide +kernel
  have hm := mem_toOption_scanModules.mp hm
  have hsorted : t.sorted (Linked.callPlace modules) = [0] := List.perm_singleton.mp t.sorted_perm_range
  rw [← Linked.ofModules_eq_ofSorted hsorted] at htop hedits hfits hcode
  have hresolved : resolveEdits ((Linked.ofModules t modules).facts 0).record.source.toList
      (placedEdits {} (.ofModules t modules) 0) = .ok [e] := by
    rw [placedEdits_eq_plainEdits hm (by decide) rfl htop, hedits, resolveEdits_singleton hfits]
  have horder : (Linked.ofModules t modules).order = [0] :=
    List.perm_singleton.mp Linked.order_perm_range
  have hpieces : placeModules {} (.ofModules t modules) (LoaderNames.ofModules modules) =
      .ok [{ code := placedText (.ofModules t modules) (LoaderNames.ofModules modules) 0 [e] }] := by
    rw [placeModules_eq, horder, List.map_singleton, placeModule_of_resolved _ rfl hresolved]
    rfl
  obtain ⟨p, hp⟩ := h {} _ (by decide +kernel) _ (bundle_of_placed ht hm hpieces)
  have hnone : Script.Program.parse? code = none := by
    rw [← Option.isNone_iff_eq_none]
    decide +kernel
  rw [hcode, hnone] at hp
  cases hp

end FlatBundle
