import FlatBundle.Proofs.Bundle.GeneratedNames
import FlatBundle.Proofs.Text.Position
import Mathlib.Data.Finset.Card
import Mathlib.Order.Interval.Finset.Nat

/-!
The names of the code that a bundle brings along. An occurrence of a numbered name ends somewhere in the sources, and
what ends there tells its number, so that a text keeps no more numbers in use than it has characters.
-/

namespace FlatBundle

variable {part s : List Char} {sources : List (List Char)} {inUse : String → Bool} {base name : String}
  {k n fuel limit : Nat} {modules : List ModuleFacts} {m : ModuleFacts}

theorem Text.occursIn_iff : Text.occursIn part s ↔ part <:+: s := by
  induction s with
  | nil => simp [Text.occursIn]
  | cons c s ih => rw [Text.occursIn, Bool.or_eq_true, List.isPrefixOf_iff_prefix, ih, List.infix_cons_iff]

/-- A name with a number. -/
def numberedName (base : String) (n : Nat) : String :=
  base ++ "_" ++ toString n

theorem underscore_toString (n : Nat) : '_' ∉ (toString n).toList :=
  (ModuleId.keptText_number n).2

/-- What ends at a place tells the number. -/
theorem numberedName_inj (hk : (numberedName base k).toList <:+ s) (hn : (numberedName base n).toList <:+ s) :
    k = n := by
  obtain ⟨front, hfront⟩ := hk
  obtain ⟨front', hfront'⟩ := hn
  have hsame : String.ofList front ++ base ++ "_" ++ toString k =
      String.ofList front' ++ base ++ "_" ++ toString n := by
    refine String.toList_inj.mp ?_
    simpa [numberedName] using hfront.trans hfront'.symm
  exact toString_nat_inj (Text.append_underscore_inj (underscore_toString k) (underscore_toString n) hsame).2

/-- A text that occurs in a source ends somewhere in the sources put together. -/
theorem exists_isSuffix_take (hpart : part ≠ []) (hs : s ∈ sources) (hin : part <:+: s) :
    ∃ stop ∈ Finset.Icc 1 sources.flatten.length, part <:+ sources.flatten.take stop := by
  obtain ⟨before, after, rfl⟩ := List.append_of_mem hs
  obtain ⟨front, back, rfl⟩ := hin
  let upTo := before.flatten ++ front ++ part
  have hflatten : (before ++ (front ++ part ++ back) :: after).flatten = upTo ++ (back ++ after.flatten) := by
    simp [upTo]
  have hpos : 0 < upTo.length := by
    have := List.length_pos_iff.mpr hpart
    simp only [upTo, List.length_append]
    omega
  refine ⟨upTo.length, Finset.mem_Icc.mpr ⟨hpos, ?_⟩, ?_⟩
  · rw [hflatten]
    exact (List.prefix_append upTo _).length_le
  · rw [hflatten, List.take_left]
    exact List.suffix_append ..

/-- Some number up to the number of characters is not in use. -/
theorem exists_unused_numberedName (sources : List (List Char)) (base : String) :
    ∃ n ≤ sources.flatten.length, ∀ s ∈ sources, ¬(numberedName base n).toList <:+: s := by
  by_contra! hall
  have hstop : ∀ n ∈ Finset.range (sources.flatten.length + 1), ∃ stop ∈ Finset.Icc 1 sources.flatten.length,
      (numberedName base n).toList <:+ sources.flatten.take stop := by
    intro n hn
    obtain ⟨s, hs, hin⟩ := hall n (Nat.le_of_lt_succ (Finset.mem_range.mp hn))
    exact exists_isSuffix_take (by simp [numberedName]) hs hin
  choose! stop hmem hsuffix using hstop
  -- there are more numbers than places where they can end
  obtain ⟨k, hk, n, hn, hne, hsame⟩ := Finset.exists_ne_map_eq_of_card_lt_of_maps_to (by simp) hmem
  exact hne (numberedName_inj (hsuffix k hk) (hsame ▸ hsuffix n hn))

/-- The search stops at the first number that is not in use. -/
theorem numberedName?_eq_some (hfirst : ∀ j, k ≤ j → j < n → inUse (numberedName base j))
    (hn : inUse (numberedName base n) = false) (hk : k ≤ n) (hfuel : n < k + fuel) :
    numberedName? inUse base fuel k = some (numberedName base n) := by
  induction fuel generalizing k with
  | zero => omega
  | succ fuel ih =>
    rw [numberedName?, ← numberedName]
    rcases Nat.eq_or_lt_of_le hk with rfl | hlt
    · rw [hn]
      rfl
    · rw [hfirst k (Nat.le_refl k) hlt, if_pos rfl]
      exact ih (fun j hj => hfirst j (Nat.le_of_succ_le hj)) hlt (by omega)

/-- No module has a name anywhere in its source. -/
def Unused (modules : List ModuleFacts) (name : String) : Prop :=
  ∀ m ∈ modules, ¬name.toList <:+: m.record.source.toList

/-- A name is the first unused one among `base`, `base_0`, `base_1` and so on, and its number is below a limit. -/
def FirstUnused (modules : List ModuleFacts) (base : String) (limit : Nat) (name : String) : Prop :=
  Unused modules base ∧ name = base ∨
    ¬Unused modules base ∧ ∃ n < limit, name = numberedName base n ∧ Unused modules name ∧
      ∀ k < n, ¬Unused modules (numberedName base k)

theorem FirstUnused.unused (h : FirstUnused modules base limit name) : Unused modules name := by
  rcases h with ⟨hbase, rfl⟩ | ⟨-, n, -, -, hname, -⟩
  · exact hbase
  · exact hname

theorem any_occursIn_iff : (modules.map (·.record.source.toList)).any (Text.occursIn name.toList) ↔
    ¬Unused modules name := by
  simp [Unused, Text.occursIn_iff]

theorem firstUnused_unusedName (hlimit : (modules.map (·.record.source.toList)).flatten.length < limit) :
    FirstUnused modules base limit (unusedName (modules.map (·.record.source.toList)) base) := by
  let sources := modules.map (·.record.source.toList)
  let inUse := fun (name : String) => sources.any (Text.occursIn name.toList)
  have hused {name : String} : inUse name ↔ ¬Unused modules name := any_occursIn_iff
  have hunused {name : String} : inUse name = false ↔ Unused modules name := by
    rw [Bool.eq_false_iff, Ne, hused, not_not]
  by_cases hbase : Unused modules base
  · refine .inl ⟨hbase, ?_⟩
    exact if_neg (mt hused.mp (not_not.mpr hbase))
  · have hexists : ∃ n, Unused modules (numberedName base n) ∧ n ≤ sources.flatten.length := by
      obtain ⟨n, hle, hn⟩ := exists_unused_numberedName sources base
      exact ⟨n, fun m hm => hn _ (List.mem_map_of_mem hm), hle⟩
    classical
    obtain ⟨hn, hle⟩ := Nat.find_spec hexists
    have hfirst (k : Nat) (hk : k < Nat.find hexists) : ¬Unused modules (numberedName base k) := fun hunused =>
      Nat.find_min hexists hk ⟨hunused, by omega⟩
    have hname : unusedName sources base = numberedName base (Nat.find hexists) := by
      have hfound : numberedName? inUse base (sources.flatten.length + 1) 0 = some _ :=
        numberedName?_eq_some (fun j _ hj => hused.mpr (hfirst j hj)) (hunused.mpr hn) (Nat.zero_le _) (by omega)
      unfold unusedName
      dsimp only
      rw [if_pos (hused.mpr hbase), hfound, Option.getD_some]
    refine .inr ⟨hbase, _, Nat.lt_of_le_of_lt hle hlimit, hname, hname ▸ hn, hfirst⟩

theorem exists_loaderNames_eq (modules : List ModuleFacts) :
    (∃ rest, (LoaderNames.ofModules modules).factory = "createModuleFactory" ++ rest) ∧
      ∃ rest, (LoaderNames.ofModules modules).exposed = "exposedRequire" ++ rest :=
  ⟨exists_unusedName_eq _ _, exists_unusedName_eq _ _⟩

/-- The number of bytes in the sources of some modules, all of them together. -/
def sourceBytes (modules : List ModuleFacts) : Nat :=
  byteLength (modules.map (·.record.source.toList)).flatten

/-- The code that a bundle brings along goes by the first names that no source has anywhere. The search for them ends
with numbers below the bound on the size of the sources. The two names are apart from each other and from all names that
are made out of names and ids. -/
theorem loaderNames_unused (modules : List ModuleFacts) (hsize : sourceBytes modules < 2 ^ 28) :
    let names := LoaderNames.ofModules modules
    FirstUnused modules "createModuleFactory" (2 ^ 28) names.factory ∧
    FirstUnused modules "exposedRequire" (2 ^ 28) names.exposed ∧
    Unused modules names.factory ∧ Unused modules names.exposed ∧ names.factory ≠ names.exposed ∧
    (∀ name id, exportsIdentifier name id ≠ names.factory ∧ exportsIdentifier name id ≠ names.exposed) ∧
    (∀ t, scanModules t = .ok modules → ∀ m ∈ modules,
      m.exportsName ≠ names.factory ∧ m.exportsName ≠ names.exposed) ∧
    ∀ m b, changedName m b ≠ names.factory ∧ changedName m b ≠ names.exposed := by
  intro names
  have hlimit := Nat.lt_of_le_of_lt length_le_byteLength hsize
  have hfactory : FirstUnused modules "createModuleFactory" (2 ^ 28) names.factory := firstUnused_unusedName hlimit
  have hexposed : FirstUnused modules "exposedRequire" (2 ^ 28) names.exposed := firstUnused_unusedName hlimit
  obtain ⟨⟨front, hfront⟩, ⟨front', hfront'⟩⟩ := exists_loaderNames_eq modules
  have hexports (name : String) (id : ModuleId) :
      exportsIdentifier name id ≠ names.factory ∧ exportsIdentifier name id ≠ names.exposed := by
    rw [exportsIdentifier_eq, hfront, hfront']
    constructor <;> simp [← String.toList_inj]
  refine ⟨hfactory, hexposed, hfactory.unused, hexposed.unused, ?_, hexports, fun t hm m hmem => ?_,
    fun m b => Linked.changedName_ne_loader m⟩
  · rw [hfront, hfront']
    simp [← String.toList_inj]
  · obtain ⟨i, -, a, -, rfl⟩ := exists_of_mem_scanModules hm hmem
    exact hexports _ _

/-- A module that has a name of the loader and the first name after it. -/
def helperNames : List ModuleFacts := [
  { (default : ModuleFacts) with
    record := { id := .number 1, source := "var createModuleFactory, createModuleFactory_0;" } }]

theorem loaderNames_unused_helperNames : sourceBytes helperNames < 2 ^ 28 ∧
    LoaderNames.ofModules helperNames = ⟨"createModuleFactory_1", "exposedRequire"⟩ ∧
    Unused helperNames "createModuleFactory_1" ∧ ¬Unused helperNames "createModuleFactory_0" := by
  have hsize : sourceBytes helperNames < 2 ^ 28 := by decide
  have hnames : LoaderNames.ofModules helperNames = ⟨"createModuleFactory_1", "exposedRequire"⟩ := by decide +kernel
  obtain ⟨-, -, hunused, -⟩ := loaderNames_unused helperNames hsize
  rw [hnames] at hunused
  exact ⟨hsize, hnames, hunused, any_occursIn_iff.mp (by decide +kernel)⟩

end FlatBundle
