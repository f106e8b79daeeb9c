import FlatBundle.Link.Linked
import FlatBundle.Proofs.Link.Facts
import FlatBundle.Proofs.Record.Reindex
import FlatBundle.Proofs.Text.Identifier

/-!
The variables for the exports of modules. A name and an id are put together and lose the characters
that no identifier takes, so that two variables may end up with one name.
-/

namespace FlatBundle

variable {records : List Record} {t : Table} {modules : List ModuleFacts} {a b : String}
  {id id' : ModuleId} {i j : Nat}

/-- What is left of `<name>_<id>` in an identifier. -/
def nameWithId (name : String) (id : ModuleId) : String :=
  Text.keptText name ++ "_" ++ Text.keptText id.text

theorem keptText_nameWithId : Text.keptText (a ++ "_" ++ id.text) = nameWithId a id :=
  Text.keptText_append_underscore

theorem exportsIdentifier_eq : exportsIdentifier a id = "_$" ++ nameWithId a id := by
  have hdollar : Text.isIdContinue '$' = true := by decide
  have hkept := Text.keptText_cons hdollar (a := a ++ "_" ++ id.text)
  have hparts : "_$" ++ a ++ "_" ++ id.text =
      "_" ++ (String.ofList ['$'] ++ (a ++ "_" ++ id.text)) := by
    simp [← String.toList_inj]
  rw [keptText_nameWithId] at hkept
  rw [exportsIdentifier, hparts, Text.toIdentifier_underscore, hkept]
  simp [← String.toList_inj]

/-- Ids without an `_` stay apart from the names before them. -/
theorem nameWithId_inj (hid : '_' ∉ (Text.keptText id.text).toList)
    (hid' : '_' ∉ (Text.keptText id'.text).toList) :
    nameWithId a id = nameWithId b id' ↔
      Text.keptText a = Text.keptText b ∧ Text.keptText id.text = Text.keptText id'.text := by
  constructor
  · exact Text.append_underscore_inj hid hid'
  · rintro ⟨ha, hb⟩
    rw [nameWithId, nameWithId, ha, hb]

theorem ModuleId.underscore_number (n : Nat) : '_' ∉ (Text.keptText (number n).text).toList := by
  obtain ⟨hkept, hfree⟩ := keptText_number n
  rwa [hkept]

theorem toString_nat_inj {m n : Nat} (h : toString m = toString n) : m = n := by
  rw [Nat.toString_eq_ofList_toDigits, Nat.toString_eq_ofList_toDigits] at h
  have hdigits := congrArg (Nat.ofDigitChars 10 · 0) (String.ofList_inj.mp h)
  simpa [Nat.ofDigitChars_toDigits] using hdigits

theorem nameWithId_number_inj {m n : Nat} (h : nameWithId a (.number m) = nameWithId b (.number n)) :
    Text.keptText a = Text.keptText b ∧ m = n := by
  obtain ⟨hname, hid⟩ :=
    (nameWithId_inj (ModuleId.underscore_number m) (ModuleId.underscore_number n)).mp h
  rw [(ModuleId.keptText_number m).1, (ModuleId.keptText_number n).1] at hid
  exact ⟨hname, toString_nat_inj hid⟩

namespace ModuleFacts

/-- What the variable is named for: the only value that the module exports, if that has a name, or
else its path. -/
def exportsBase (m : ModuleFacts) : String :=
  (m.uses.soleExport?.bind (·.2.valueName)).getD (Path.moduleName (m.record.file.getD ""))

theorem exportsName_ofAnalysis (t : Table) (i : Nat) (a : Analysis) :
    (ofAnalysis t i a).exportsName =
      "_$" ++ nameWithId (ofAnalysis t i a).exportsBase (ofAnalysis t i a).record.id :=
  exportsIdentifier_eq

end ModuleFacts

/-- A number as the id of a module. -/
def ModuleId.isNumber : ModuleId → Bool
  | number _ => true
  | name _ => false

namespace Linked

theorem record_facts (hm : scanModules t = .ok modules) (hi : i < t.size) :
    ((ofModules t modules).facts i).record = t.get i := by
  obtain ⟨a, -, hfacts⟩ := get_of_scanModules hm hi
  have hfacts : (ofModules t modules).facts i = .ofAnalysis t i a := hfacts
  rw [hfacts]
  rfl

theorem exportsName_facts (hm : scanModules t = .ok modules) (hi : i < t.size) :
    let m := (ofModules t modules).facts i
    m.exportsName = "_$" ++ nameWithId m.exportsBase (t.get i).id := by
  obtain ⟨a, -, hfacts⟩ := get_of_scanModules hm hi
  have hfacts : (ofModules t modules).facts i = .ofAnalysis t i a := hfacts
  intro m
  rw [show m = .ofAnalysis t i a from hfacts]
  exact ModuleFacts.exportsName_ofAnalysis t i a

/-- No two modules share the variable for their exports. -/
def DistinctExports (t : Table) (l : Linked) : Prop :=
  ∀ i < t.size, ∀ j < t.size, i ≠ j → (l.facts i).exportsName ≠ (l.facts j).exportsName

/-- Two modules share a variable just when as much is left of their names and ids. Between numbers this
never happens, so that the ids that are texts decide whether all variables are distinct; where no `_`
is left of two ids, both the names and the ids would have to meet. -/
theorem distinctExports_iff (ht : Table.ofRecords records = .ok t)
    (hm : scanModules t = .ok modules) :
    let l := ofModules t modules
    (∀ i < t.size, ∀ j < t.size, (t.get i).id.isNumber → (t.get j).id.isNumber → i ≠ j →
      (l.facts i).exportsName ≠ (l.facts j).exportsName) ∧
    (∀ i < t.size, ∀ j < t.size, '_' ∉ (Text.keptText (t.get i).id.text).toList →
      '_' ∉ (Text.keptText (t.get j).id.text).toList →
        ((l.facts i).exportsName = (l.facts j).exportsName ↔
          Text.keptText (l.facts i).exportsBase = Text.keptText (l.facts j).exportsBase ∧
          Text.keptText (t.get i).id.text = Text.keptText (t.get j).id.text)) ∧
    (DistinctExports t l ↔
      ∀ i < t.size, ∀ j < t.size, i ≠ j → ((t.get i).id.isNumber → ¬(t.get j).id.isNumber) →
        nameWithId (l.facts i).exportsBase (t.get i).id ≠
          nameWithId (l.facts j).exportsBase (t.get j).id) := by
  intro l
  have hsame (i j : Nat) (hi : i < t.size) (hj : j < t.size) :
      (l.facts i).exportsName = (l.facts j).exportsName ↔
        nameWithId (l.facts i).exportsBase (t.get i).id =
          nameWithId (l.facts j).exportsBase (t.get j).id := by
    rw [exportsName_facts hm hi, exportsName_facts hm hj, String.append_right_inj]
  have hnumbers : ∀ i < t.size, ∀ j < t.size, (t.get i).id.isNumber → (t.get j).id.isNumber →
      i ≠ j → (l.facts i).exportsName ≠ (l.facts j).exportsName := by
    intro i hi j hj hni hnj hij heq
    have hstems := (hsame i j hi hj).mp heq
    cases hidi : (t.get i).id with
    | name => simp [hidi, ModuleId.isNumber] at hni
    | number m =>
      cases hidj : (t.get j).id with
      | name => simp [hidj, ModuleId.isNumber] at hnj
      | number n =>
        rw [hidi, hidj] at hstems
        obtain ⟨-, rfl⟩ := nameWithId_number_inj hstems
        exact hij (Table.distinctIds_of_ofRecords ht i hi j hj (hidi.trans hidj.symm))
  refine ⟨hnumbers, fun i hi j hj hfi hfj => (hsame i j hi hj).trans (nameWithId_inj hfi hfj),
    fun h i hi j hj hij _ => mt (hsame i j hi hj).mpr (h i hi j hj hij), fun h i hi j hj hij => ?_⟩
  by_cases hnumber : (t.get i).id.isNumber ∧ (t.get j).id.isNumber
  · exact hnumbers i hi j hj hnumber.1 hnumber.2 hij
  · have hstems := h i hi j hj hij fun hni hnj => hnumber ⟨hni, hnj⟩
    exact mt (hsame i j hi hj).mp hstems

/-- Modules of one name whose ids are a number and a text. -/
def numberAndText : List Record := [
  { id := .number 1, source := "" },
  { id := .name "lib", source := "" }]

theorem distinctExports_numberAndText :
    ∃ t modules, Table.ofRecords numberAndText = .ok t ∧ scanModules t = .ok modules ∧
      DistinctExports t (ofModules t modules) := by
  let t : Table := ⟨numberAndText⟩
  have ht : Table.ofRecords numberAndText = .ok t := Table.ofRecords_eq_ok_iff.mpr ⟨by decide, rfl⟩
  obtain ⟨modules, hm, hstems⟩ : ∃ modules ∈ (scanModules t).toOption,
      ∀ i < t.size, ∀ j < t.size, i ≠ j →
        nameWithId (modules.getD i default).exportsBase (t.get i).id ≠
          nameWithId (modules.getD j default).exportsBase (t.get j).id := by decide +kernel
  have hm := mem_toOption_scanModules.mp hm
  exact ⟨t, modules, ht, hm, (distinctExports_iff ht hm).2.2.mpr fun i hi j hj hij _ =>
    hstems i hi j hj hij⟩

/-- Two ids that differ only in that one is a number and the other one a text. -/
def equalTexts : List Record := [
  { id := .number 1, source := "f(exports);" },
  { id := .name "1", source := "g(exports);" }]

theorem not_distinctExports :
    ¬∀ (records : List Record) (t : Table) (modules : List ModuleFacts),
      Table.ofRecords records = .ok t → scanModules t = .ok modules →
        DistinctExports t (ofModules t modules) := by
  intro h
  let t : Table := ⟨equalTexts⟩
  have ht : Table.ofRecords equalTexts = .ok t := Table.ofRecords_eq_ok_iff.mpr ⟨by decide, rfl⟩
  obtain ⟨modules, hm, hsame⟩ : ∃ modules ∈ (scanModules t).toOption,
      ((ofModules t modules).facts 0).exportsName = ((ofModules t modules).facts 1).exportsName := by
    decide +kernel
  have hm := mem_toOption_scanModules.mp hm
  exact h _ t modules ht hm 0 (by decide) 1 (by decide) (by decide) hsame

end Linked

end FlatBundle
