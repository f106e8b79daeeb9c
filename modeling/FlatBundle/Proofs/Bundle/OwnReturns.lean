import FlatBundle.Proofs.Bundle.Emission
import FlatBundle.Proofs.Script.Layout

/-!
Statements that return from a script itself, and not from a function in it. The scripts of modules
are read as bodies of functions, so that they may have such statements.
-/

namespace FlatBundle

open Script (Node)

mutual

/-- Whether a script returns in some part of it that is in no function. -/
def hasOwnReturn : Node → Bool
  | .mk kind _ children => kind == .returnStatement || !kind.opensBody && anyHasOwnReturn children

def anyHasOwnReturn : List Node → Bool
  | [] => false
  | n :: rest => hasOwnReturn n || anyHasOwnReturn rest

end

/-- The statements that return from a module are in a function once the module is in its place. -/
def Linked.KeepsReturnsInside (options : Options) (l : Linked) (names : LoaderNames) (i : Nat) : Prop :=
  ∀ piece, placeModule options l names i = .ok piece →
    ∀ p q, Script.Program.parse? (l.facts i).record.source = some p → hasOwnReturn p.tree →
      Script.Program.parse? piece.code = some q → hasOwnReturn q.tree = false

/-- A module that returns early, before another module. -/
def returnsEarly : List Record := [
  { id := .number 1, source := "if (f) return;\ng();", entry := true },
  { id := .number 2, source := "h();", entry := true }]

theorem Linked.not_keepsReturnsInside :
    ¬∀ (options : Options) (records : List Record) (t : Table) (modules : List ModuleFacts),
      Table.ofRecords records = .ok t → scanModules t = .ok modules → ∀ i < t.size,
        KeepsReturnsInside options (ofModules t modules) (LoaderNames.ofModules modules) i := by
  intro h
  let t : Table := ⟨returnsEarly⟩
  have ht : Table.ofRecords returnsEarly = .ok t := Table.ofRecords_eq_ok_iff.mpr ⟨by decide, rfl⟩
  obtain ⟨modules, hm, htop, hedits, p, hp, hreturns, q, hq, hreturns'⟩ :
      ∃ modules ∈ (scanModules t).toOption, let l := ofModules t modules
        l.topLevelNames 0 = [] ∧ plainEdits l 0 = [] ∧
        ∃ p ∈ Script.Program.parse? (l.facts 0).record.source, hasOwnReturn p.tree ∧
          ∃ q ∈ Script.Program.parse? (placedText l (LoaderNames.ofModules modules) 0 []),
            hasOwnReturn q.tree := by
    decide +kernel
  have hm := mem_toOption_scanModules.mp hm
  have hresolved : resolveEdits ((ofModules t modules).facts 0).record.source.toList
      (placedEdits {} (ofModules t modules) 0) = .ok [] := by
    rw [placedEdits_eq_plainEdits hm (by decide) rfl htop, hedits, resolveEdits_nil]
  have hinside := h {} _ t modules ht hm 0 (by decide) _ (placeModule_of_resolved _ rfl hresolved)
    p q hp hreturns hq
  rw [hreturns'] at hinside
  cases hinside

end FlatBundle
