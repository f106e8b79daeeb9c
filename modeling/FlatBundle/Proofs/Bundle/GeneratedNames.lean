import FlatBundle.Proofs.Bundle.Spelling
import FlatBundle.Proofs.Text.Nearest

/-!
The names that a bundle makes out of names and ids. Whatever falls away in the middle, the characters in front stay,
and so do the digits of an id that is a number.
-/

namespace FlatBundle

variable {name : String} {id : ModuleId} {m : ModuleFacts} {b : Nat}

theorem toIdentifier_exportsIdentifier :
    Text.toIdentifier ("_$" ++ name ++ "_" ++ id.text) = some (exportsIdentifier name id) := by
  have hparts : "_$" ++ name ++ "_" ++ id.text = "_" ++ ("$" ++ name ++ "_" ++ id.text) := by
    simp [← String.toList_inj]
  rw [exportsIdentifier, hparts, Text.toIdentifier_underscore]

theorem toIdentifier_changedName :
    Text.toIdentifier ("__" ++ (m.scopes.binding b).name ++ "_" ++ m.record.id.text) = some (changedName m b) := by
  let rest := "_" ++ (m.scopes.binding b).name ++ "_" ++ m.record.id.text
  have hparts : "__" ++ (m.scopes.binding b).name ++ "_" ++ m.record.id.text = "_" ++ rest := by
    simp [← String.toList_inj, rest]
  rw [changedName, hparts, Text.toIdentifier_underscore, Option.getD_some]

theorem exportsIdentifier_number (n : Nat) : exportsIdentifier name (.number n) =
    "_$" ++ Text.keptText name ++ "_" ++ String.ofList (Nat.toDigits 10 n) := by
  rw [exportsIdentifier_eq, nameWithId, (ModuleId.keptText_number n).1, ← Nat.toString_eq_ofList_toDigits]
  simp [← String.toList_inj]

/-- The variable for the exports of a module is a binding name for every name and id, behind `_$` and, where the id is
a number, before `_` and its digits. So is what a name changes to, behind `__`, the name and `_`; distinct top-level
names of a module change to distinct ones. -/
theorem isBindingName_generated :
    (∀ (name : String) (id : ModuleId),
      Text.toIdentifier ("_$" ++ name ++ "_" ++ id.text) = some (exportsIdentifier name id) ∧
      Text.isBindingName (exportsIdentifier name id) ∧
      ∃ rest, exportsIdentifier name id = "_$" ++ rest) ∧
    (∀ (name : String) (n : Nat), ∃ rest, exportsIdentifier name (.number n) =
      "_$" ++ rest ++ "_" ++ String.ofList (Nat.toDigits 10 n)) ∧
    (∀ (m : ModuleFacts) (b : Nat), Text.isIdentifierName (m.scopes.binding b).name.toList →
      Text.isBindingName (changedName m b) ∧
      ∃ rest, changedName m b = "__" ++ (m.scopes.binding b).name ++ "_" ++ rest) ∧
    ∀ (t : Table) (modules : List ModuleFacts) (i : Nat), scanModules t = .ok modules → i < t.size →
      let l := Linked.ofModules t modules
      ∀ b ∈ l.renamedBindings i, ∀ c ∈ l.renamedBindings i, b ≠ c →
        changedName (l.facts i) b ≠ changedName (l.facts i) c := by
  refine ⟨fun name id => ⟨toIdentifier_exportsIdentifier, ?_, _, exportsIdentifier_eq⟩,
    fun name n => ⟨_, exportsIdentifier_number n⟩, fun m b h => ⟨?_, _, changedName_of_isIdentifierName h⟩, ?_⟩
  · exact Text.isBindingName_of_toIdentifier toIdentifier_exportsIdentifier
  · exact Text.isBindingName_of_toIdentifier toIdentifier_changedName
  · intro t modules i hm hi l b hb c hc hne heq
    have hnames := Linked.nodup_topLevelNames hm hi
    obtain ⟨name, hname, -⟩ := (Linked.mem_renamedBindings_iff hi hnames).mp hb
    obtain ⟨other, hother, -⟩ := (Linked.mem_renamedBindings_iff hi hnames).mp hc
    exact hne (Linked.changedName_inj hm hi hname hother heq)

/-- A module with two names that another one uses as globals. -/
def hiddenGlobals : List Record := [
  { id := .number 10, source := "var a, b;" },
  { id := .name "x", source := "f(a, b);" }]

theorem isBindingName_generated_hiddenGlobals :
    ∃ t modules, Table.ofRecords hiddenGlobals = .ok t ∧ scanModules t = .ok modules ∧
      let l := Linked.ofModules t modules
      3 ∈ l.renamedBindings 0 ∧ 4 ∈ l.renamedBindings 0 ∧ changedName (l.facts 0) 3 = "__a_10" ∧
        Text.isBindingName "__a_10" ∧ changedName (l.facts 0) 3 ≠ changedName (l.facts 0) 4 := by
  let t : Table := ⟨hiddenGlobals⟩
  have ht : Table.ofRecords hiddenGlobals = .ok t := Table.ofRecords_eq_ok_iff.mpr ⟨by decide, rfl⟩
  obtain ⟨modules, hm, hnames, hglobals, hname, hchanged⟩ : ∃ modules ∈ (scanModules t).toOption,
      let m := (Linked.ofModules t modules).facts 0
      m.scopes.programBindings = [("a", 3), ("b", 4)] ∧ globalNames modules = ["f", "a", "b"] ∧
        (m.scopes.binding 3).name = "a" ∧ changedName m 3 = "__a_10" := by decide +kernel
  have hm := mem_toOption_scanModules.mp hm
  have hrenamed {name : String} {b : Nat} (hb : (name, b) ∈ [("a", 3), ("b", 4)]) (hglobal : name ∈ ["f", "a", "b"]) :
      b ∈ (Linked.ofModules t modules).renamedBindings 0 :=
    (Linked.mem_renamedBindings_iff_of_bound hm (by decide) (hnames ▸ hb)).mpr (.inl (hglobals ▸ hglobal))
  have h3 := @hrenamed "a" 3 (by decide) (by decide)
  have h4 := @hrenamed "b" 4 (by decide) (by decide)
  obtain ⟨-, -, hvalid, hapart⟩ := isBindingName_generated
  refine ⟨t, modules, ht, hm, h3, h4, hchanged, hchanged ▸ (hvalid _ 3 ?_).1, ?_⟩
  · rw [hname]
    decide
  · exact hapart t modules 0 hm (by decide) 3 h3 4 h4 (by decide)

end FlatBundle
