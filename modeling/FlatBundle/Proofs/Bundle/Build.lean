import FlatBundle.Bundle.Build
import FlatBundle.Proofs.Bundle.Placement
import FlatBundle.Proofs.Link.Facts
import FlatBundle.Proofs.Link.Order

/-!
Which lists of records can be built.
-/

namespace FlatBundle

variable {options : Options} {records : List Record} {t : Table} {modules : List ModuleFacts}
  {i : Nat}

theorem exists_placed (h : scanModules t = .ok modules) (hi : i < t.size) :
    ∃ root, ((Linked.ofModules t modules).facts i).Placed root ∧
      ((Linked.ofModules t modules).facts i).record = t.get i := by
  obtain ⟨a, ha, hfacts⟩ := get_of_scanModules h hi
  obtain ⟨root, hroot⟩ := placed_ofSource? ha
  have hfacts : (Linked.ofModules t modules).facts i = .ofAnalysis t i a := hfacts
  rw [hfacts]
  exact ⟨root, placed_ofAnalysis hroot, rfl⟩

theorem placeModules_eq {l : Linked} {names : LoaderNames} :
    placeModules options l names = allResults (l.order.map fun i =>
      (placeModule options l names i).mapError (.badEdit (l.facts i).record.label)) := by
  unfold placeModules allResults
  dsimp only
  rcases partitionResults _ with ⟨_ | ⟨_, _⟩, _⟩ <;> rfl

/-- Once every module is a script, each one finds its place. -/
theorem exists_placeModules (names : LoaderNames) (h : scanModules t = .ok modules) :
    ∃ pieces, placeModules options (.ofModules t modules) names = .ok pieces := by
  rw [placeModules_eq, exists_allResults_iff]
  intro result hresult
  obtain ⟨i, hi, rfl⟩ := List.mem_map.mp hresult
  obtain ⟨root, hplaced, -⟩ := exists_placed h (Linked.mem_order.mp hi)
  obtain ⟨piece, hpiece⟩ : ∃ piece, placeModule options (.ofModules t modules) names i = .ok piece :=
    placeModule_ok names hplaced
  exact ⟨piece, by rw [hpiece]; rfl⟩

theorem bundle_of_error {errors : List BuildError} (ht : Table.ofRecords records = .ok t)
    (hm : scanModules t = .error errors) : bundle options records = .error errors := by
  unfold bundle
  rw [ht]
  change (scanModules t >>= _) = _
  rw [hm]
  rfl

/-- The bundle of some linked modules in their places. -/
def builtBundle (options : Options) (l : Linked) (pieces : List Piece) : BuiltBundle :=
  let lines := wrapperLines options l (LoaderNames.ofModules l.modules)
  let piece := renderBundle options lines pieces
  { code := piece.code, map := piece.map, warnings := l.warnings }

theorem bundle_of_placed {pieces : List Piece} (ht : Table.ofRecords records = .ok t)
    (hm : scanModules t = .ok modules)
    (hpieces : placeModules options (.ofModules t modules) (LoaderNames.ofModules modules) =
      .ok pieces) :
    bundle options records = .ok (builtBundle options (.ofModules t modules) pieces) := by
  unfold bundle
  rw [ht]
  change (scanModules t >>= _) = _
  rw [hm]
  change (placeModules options (.ofModules t modules) (LoaderNames.ofModules modules) >>= _) = _
  rw [hpieces]
  rfl

theorem exists_bundle (ht : Table.ofRecords records = .ok t) (hm : scanModules t = .ok modules) :
    ∃ b, bundle options records = .ok b := by
  obtain ⟨pieces, hpieces⟩ : ∃ pieces, placeModules options (.ofModules t modules)
      (LoaderNames.ofModules modules) = .ok pieces := exists_placeModules _ hm
  exact ⟨_, bundle_of_placed ht hm hpieces⟩

theorem exists_bundle_iff : (∃ b, bundle options records = .ok b) ↔
    ∃ t, Table.ofRecords records = .ok t ∧ ∀ r ∈ t.modules, r.Parses := by
  constructor
  · rintro ⟨b, hb⟩
    cases ht : Table.ofRecords records with
    | error errors =>
      unfold bundle at hb
      rw [ht] at hb
      cases hb
    | ok t =>
      refine ⟨t, rfl, exists_scanModules_iff.mp ?_⟩
      cases hm : scanModules t with
      | error errors =>
        rw [bundle_of_error ht hm] at hb
        cases hb
      | ok modules => exact ⟨modules, rfl⟩
  · rintro ⟨t, ht, hparse⟩
    obtain ⟨modules, hm⟩ := exists_scanModules hparse
    exact exists_bundle ht hm

/-- A bundle is built just when the ids are distinct, each marker names a module, and each body, put
back where a marker stands for it, is a script; no edits get in each other's way. If only the last
of these fails, each module that is no script is reported once, in the order of the records. -/
theorem bundle_ok_iff (options : Options) (records : List Record) :
    ((∃ b, bundle options records = .ok b) ↔
      (records.map (·.id)).Nodup ∧
      (∀ r ∈ records, ∀ target, duplicateOf? r.source = some target →
        ∃ twin ∈ records, twin.id.text = target) ∧
      ∀ r ∈ records, ∀ r', restoreSource records r = .ok r' → r'.Parses) ∧
    ∀ t, Table.ofRecords records = .ok t →
      records.map (restoreSource records) = t.modules.map .ok ∧
      (∀ modules, scanModules t = .ok modules → ∀ i < t.size,
        let edits := placedEdits options (.ofModules t modules) i
        (∀ e ∈ edits, e.fits (t.get i).source.toList) ∧ AllLaminar edits) ∧
      ((∃ r ∈ t.modules, ¬r.Parses) → bundle options records =
        .error ((t.modules.filter fun r => ¬r.Parses).map fun r => .unparsable r.label)) := by
  refine ⟨?_, fun t ht =>
    ⟨(Table.ofRecords_eq_ok_iff.mp ht).2, fun modules hm i hi => ?_, fun h => ?_⟩⟩
  · rw [exists_bundle_iff]
    constructor
    · rintro ⟨t, ht, hparse⟩
      obtain ⟨hnodup, hrestored⟩ := Table.ofRecords_eq_ok_iff.mp ht
      obtain ⟨-, hall⟩ := Table.exists_ofRecords_iff.mp ⟨t, ht⟩
      refine ⟨hnodup, fun r hr => exists_restoreSource_iff.mp (hall r hr), fun r hr r' hr' => ?_⟩
      have hmem : restoreSource records r ∈ t.modules.map .ok := hrestored ▸ List.mem_map_of_mem hr
      obtain ⟨k, hk, heq⟩ := List.mem_map.mp hmem
      cases heq.trans hr'
      exact hparse _ hk
    · rintro ⟨hnodup, hmarkers, hparse⟩
      obtain ⟨t, ht⟩ := Table.exists_ofRecords_iff.mpr
        ⟨hnodup, fun r hr => exists_restoreSource_iff.mpr (hmarkers r hr)⟩
      refine ⟨t, ht, fun r' hr' => ?_⟩
      have hmem : .ok r' ∈ records.map (restoreSource records) :=
        (Table.ofRecords_eq_ok_iff.mp ht).2 ▸ List.mem_map_of_mem hr'
      obtain ⟨r, hr, heq⟩ := List.mem_map.mp hmem
      exact hparse r hr r' heq
  · obtain ⟨root, hplaced, hrecord⟩ := exists_placed hm hi
    rw [← hrecord]
    exact placedEdits_spec hplaced
  · exact bundle_of_error ht (scanModules_error h)

end FlatBundle
