import FlatBundle.Proofs.Bundle.Pieces

/-!
Debug bundles: the code is that of the plain bundle, and below it goes a comment with the map.
-/

namespace FlatBundle

variable {options options' : Options} {l : Linked} {names : LoaderNames} {records : List Record} {t : Table}
  {modules : List ModuleFacts} {pieces pieces' : List Piece} {lines : WrapperLines} {i : Nat}

theorem Base64.digitChar_ne_newline (n : Nat) : digitChar n ≠ '\n' := by
  unfold digitChar
  split_ifs with h26 h52 h62 h63
  · interval_cases n <;> decide
  · interval_cases n <;> decide
  · interval_cases n <;> decide
  · decide
  · decide

theorem Base64.newline_not_mem_encode (bytes : List UInt8) : '\n' ∉ encode bytes := by
  have hdigit (n : Nat) : '\n' ≠ digitChar n := (digitChar_ne_newline n).symm
  induction bytes using encode.induct with
  | case1 => exact List.not_mem_nil
  | case2 a => simp [encode, hdigit]
  | case3 a b => simp [encode, hdigit]
  | case4 a b c rest ih => simp [encode, hdigit, ih]

/-- The comment that carries a map is one line. -/
theorem SourceMap.newline_not_mem_comment (m : SourceMap) : '\n' ∉ m.comment.toList := by
  have hstart :
      '\n' ∉ "//# sourceMappingURL=data:application/json;charset=utf-8;base64,".toList := by decide
  intro h
  unfold comment payload at h
  rw [String.toList_append] at h
  rcases List.mem_append.mp h with h | h
  · exact hstart h
  · rw [String.toList_ofList] at h
    exact Base64.newline_not_mem_encode _ h

/-- No module of a build brings along a map in a comment. -/
def NoOwnMaps (records : List Record) : Prop :=
  ∀ t modules, Table.ofRecords records = .ok t → scanModules t = .ok modules →
    ∀ m ∈ modules, ownMap? m = none

theorem effectiveEdits_eq (h : ownMap? (l.facts i) = none) :
    effectiveEdits options l i = effectiveEdits options' l i := by
  simp [effectiveEdits, placedEdits, h]

/-- Where no module brings along a map, the options have no say in what the modules become. -/
theorem codes_eq (hown : ∀ i ∈ l.order, ownMap? (l.facts i) = none)
    (h : placeModules options l names = .ok pieces) (h' : placeModules options' l names = .ok pieces') :
    pieces.map Piece.code = pieces'.map Piece.code := by
  rw [codes_of_placeModules h, codes_of_placeModules h']
  refine List.map_congr_left fun i hi => ?_
  rw [effectiveEdits_eq (hown i hi)]

theorem codes_wrapperPiece (options options' : Options) (name : String) (lines : List String) :
    (wrapperPiece options name lines).map Piece.code =
      (wrapperPiece options' name lines).map Piece.code := by
  cases lines <;> rfl

theorem code_joinPieces_eq (h : pieces.map Piece.code = pieces'.map Piece.code) :
    (joinPieces (bundlePieces options lines pieces)).code =
      (joinPieces (bundlePieces options' lines pieces')).code := by
  unfold bundlePieces joinPieces
  simp only [List.map_append, h, codes_wrapperPiece options options']

theorem map_eq_none_of_placeModule (hdebug : options.debug = false) {piece : Piece}
    (h : placeModule options l names i = .ok piece) : piece.map = none := by
  obtain ⟨edits, hresolved, -⟩ := code_of_placeModule h
  rw [placeModule_of_resolved names hdebug hresolved] at h
  cases h
  rfl

theorem maps_eq_none (hdebug : options.debug = false) (h : placeModules options l names = .ok pieces) :
    ∀ p ∈ pieces, p.map = none := by
  intro p hp
  obtain ⟨i, -, hplaced⟩ := exists_of_mem_pieces h hp
  exact map_eq_none_of_placeModule hdebug hplaced

/-- A plain bundle has no map and ends with a line break. -/
theorem builtBundle_plain (h : placeModules { options with debug := false } l names = .ok pieces) :
    builtBundle { options with debug := false } l pieces =
      { code := (joinPieces (bundlePieces { options with debug := false }
          (wrapperLines options l (LoaderNames.ofModules l.modules)) pieces)).code ++ "\n"
        map := none
        warnings := l.warnings } := by
  let lines := wrapperLines options l (LoaderNames.ofModules l.modules)
  have hrendered : renderBundle { options with debug := false } lines pieces = _ :=
    renderBundle_plain rfl (maps_eq_none rfl h)
  change BuiltBundle.mk (renderBundle _ lines pieces).code (renderBundle _ lines pieces).map l.warnings = _
  rw [hrendered]

/-- A debug bundle of modules that have the same text as in the plain one. -/
theorem builtBundle_debug (hcodes : pieces.map Piece.code = pieces'.map Piece.code) {b : BuiltBundle}
    (h : placeModules { options with debug := false } l names = .ok pieces)
    (hb : builtBundle { options with debug := false } l pieces = b) :
    ∃ map : SourceMap, builtBundle { options with debug := true } l pieces' =
      { code := b.code ++ map.comment ++ "\n", map := some map, warnings := b.warnings } := by
  let lines := wrapperLines options l (LoaderNames.ofModules l.modules)
  have hrendered : renderBundle { options with debug := true } lines pieces' = _ := renderBundle_debug rfl
  have hjoined : (joinPieces (bundlePieces { options with debug := false } lines pieces)).code =
      (joinPieces (bundlePieces { options with debug := true } lines pieces')).code :=
    code_joinPieces_eq hcodes
  refine ⟨bundleMap { options with debug := true } lines pieces', ?_⟩
  rw [← hb, builtBundle_plain h]
  change BuiltBundle.mk (renderBundle _ lines pieces').code (renderBundle _ lines pieces').map l.warnings = _
  rw [hrendered, hjoined]

/-- What keeps a bundle from being built does not depend on the options. -/
theorem bundle_fails_or (records : List Record) :
    (∃ errors, ∀ options, bundle options records = .error errors) ∨
      ∃ t modules, Table.ofRecords records = .ok t ∧ scanModules t = .ok modules := by
  cases ht : Table.ofRecords records with
  | error errors =>
    refine .inl ⟨errors, fun options => ?_⟩
    unfold bundle
    rw [ht]
    rfl
  | ok t =>
    cases hm : scanModules t with
    | error errors => exact .inl ⟨errors, fun options => bundle_of_error ht hm⟩
    | ok modules => exact .inr ⟨t, modules, rfl, hm⟩

/-- Where no module brings along a map of its own, a debug bundle fails just when the plain one does and
with the same errors, and else it is the plain one with one more line, the comment with its map. -/
theorem bundle_debug (options : Options) (h : NoOwnMaps records) :
    let plain := bundle { options with debug := false } records
    let debug := bundle { options with debug := true } records
    (∀ errors, debug = .error errors ↔ plain = .error errors) ∧
    ∀ b, plain = .ok b → b.map = none ∧ (∃ text, b.code = text ++ "\n") ∧
      ∃ map : SourceMap, '\n' ∉ map.comment.toList ∧
        debug = .ok
          { code := b.code ++ map.comment ++ "\n", map := some map, warnings := b.warnings } := by
  intro plain debug
  rcases bundle_fails_or records with ⟨errors, herrors⟩ | ⟨t, modules, ht, hm⟩
  · have hplain : plain = .error errors := herrors _
    have hdebug : debug = .error errors := herrors _
    rw [hplain, hdebug]
    exact ⟨fun _ => Iff.rfl, nofun⟩
  · let l := Linked.ofModules t modules
    let names := LoaderNames.ofModules modules
    have hown : ∀ i ∈ l.order, ownMap? (l.facts i) = none := by
      intro i hi
      have hlt : i < modules.length := length_of_scanModules hm ▸ Linked.mem_order.mp hi
      have hfacts : l.facts i = modules[i] := List.getD_eq_getElem modules default hlt
      rw [hfacts]
      exact h t modules ht hm _ (List.getElem_mem hlt)
    obtain ⟨pieces, hpieces⟩ : ∃ pieces,
        placeModules { options with debug := false } l names = .ok pieces := exists_placeModules names hm
    obtain ⟨pieces', hpieces'⟩ : ∃ pieces,
        placeModules { options with debug := true } l names = .ok pieces := exists_placeModules names hm
    have hplain : plain = .ok (builtBundle { options with debug := false } l pieces) :=
      bundle_of_placed ht hm hpieces
    have hdebug : debug = .ok (builtBundle { options with debug := true } l pieces') :=
      bundle_of_placed ht hm hpieces'
    rw [hplain, hdebug]
    refine ⟨fun errors => ⟨nofun, nofun⟩, fun b hb => ?_⟩
    cases hb
    obtain ⟨map, hmap⟩ := builtBundle_debug (codes_eq hown hpieces hpieces') hpieces rfl
    rw [builtBundle_plain hpieces] at hmap ⊢
    exact ⟨rfl, ⟨_, rfl⟩, map, map.newline_not_mem_comment, congrArg Except.ok hmap⟩

/-- A module with a comment that names the file of its map, and one without a comment. -/
def linkedMap : List Record := [
  { id := .number 1, source := "require('./a');\n//# sourceMappingURL=entry.js.map", entry := true,
    deps := [("./a", some (.number 2))], sourceFile := some "/src/entry.js" },
  { id := .number 2, source := "exports.a = 1;", sourceFile := some "/src/a.js" }]

theorem bundle_debug_linkedMap : NoOwnMaps linkedMap ∧
    ∃ (b d : BuiltBundle) (map : SourceMap), bundle { debug := false } linkedMap = .ok b ∧
      bundle { debug := true } linkedMap = .ok d ∧ d.map = some map ∧
        d.code = b.code ++ map.comment ++ "\n" := by
  let t : Table := ⟨linkedMap⟩
  have ht : Table.ofRecords linkedMap = .ok t := Table.ofRecords_eq_ok_iff.mpr ⟨by decide, rfl⟩
  obtain ⟨modules, hm, hnone⟩ :
      ∃ modules ∈ (scanModules t).toOption, ∀ m ∈ modules, (ownMap? m).isNone := by decide +kernel
  have hm := mem_toOption_scanModules.mp hm
  have hown : NoOwnMaps linkedMap := by
    intro t' modules' ht' hm' m hmem
    cases ht.symm.trans ht'
    cases hm.symm.trans hm'
    exact Option.isNone_iff_eq_none.mp (hnone m hmem)
  obtain ⟨b, hb⟩ : ∃ b, bundle { debug := false } linkedMap = .ok b := exists_bundle ht hm
  obtain ⟨-, -, map, -, hd⟩ := (bundle_debug {} hown).2 b hb
  exact ⟨hown, b, _, map, hb, hd, rfl, rfl⟩

end FlatBundle
