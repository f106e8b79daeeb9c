import FlatBundle.Proofs.Bundle.Lines
import FlatBundle.Proofs.Edit.Tokens
import FlatBundle.Proofs.SourceMap.Compose

/-!
The map of a debug bundle: it tells of each character that a module keeps where it comes from, and has
tokens on the lines of mapped pieces only.
-/

namespace FlatBundle

variable {options : Options} {l : Linked} {names : LoaderNames} {records : List Record} {t : Table}
  {modules : List ModuleFacts} {pieces placed : List Piece} {piece : Piece} {lines : WrapperLines}
  {request : MapRequest} {text : String} {pairs : List (Position × Position)}
  {pair : Position × Position} {place : Position} {s : Segment} {i o : Nat} {c : Char}
  {rest : List Char}

theorem isLatest_pairsMap (h : IsLatest Prod.fst pairs place pair) :
    IsLatest Segment.generated (pairsMap request text pairs).segments place
      (pairSegment request.sourceName pair) := by
  have hmapped : IsLatest Segment.generated (pairs.map (pairSegment request.sourceName)) place
      (pairSegment request.sourceName pair) := h.map fun _ => rfl
  exact hmapped.of_mem_iff fun _ => mem_segments_pairsMap

theorem keepsLines_pairsMap {code : List Char}
    (hpairs : ∀ q ∈ pairs, q.1.Before (Position.advanceBy {} code)) :
    ∀ s ∈ (pairsMap request text pairs).segments, s.generated.line ≤ lineCount code := by
  intro s hs
  obtain ⟨q, hq, rfl⟩ := List.mem_map.mp (mem_segments_pairsMap.mp hs)
  have hline : q.1.line ≤ (Position.advanceBy {} code).line := (hpairs q hq).line_le
  rw [Position.line_advanceBy, Nat.zero_add] at hline
  exact hline

theorem keepsLines_wrapperPiece {name : String} {lines : List String} :
    ∀ p ∈ wrapperPiece options name lines, p.KeepsLines := by
  intro p hp map hmap
  cases lines with
  | nil => cases hp
  | cons line lines =>
    obtain rfl := List.mem_singleton.mp hp
    obtain ⟨-, hmap⟩ := Option.ite_none_right_eq_some.mp hmap
    obtain rfl := Option.some.inj hmap
    exact keepsLines_pairsMap fun q hq => (bounds_of_mem_copiedPairs hq).2

/-- The pairs of positions that the map of a module is made of. -/
def placedPairs (options : Options) (l : Linked) (names : LoaderNames) (i : Nat) :
    List (Position × Position) :=
  stretchPairs (Position.advanceBy {} (moduleFrame l names i).1.toList) {}
    (stretches 0 (effectiveEdits options l i) (l.facts i).record.source.toList)

theorem map_of_placeModule (h : placeModule options l names i = .ok piece) :
    piece.map = (moduleMapRequest options (l.facts i).record).map fun request =>
      let map := pairsMap request (l.facts i).record.source (placedPairs options l names i)
      match if options.debug then ownMap? (l.facts i) else none with
      | some (_, inner) => map.compose inner
      | none => map := by
  have hresolved := resolveEdits_of_placeModule h
  rw [placeModule_eq, EditList.apply, EditList.stretches, hresolved] at h
  obtain rfl := Except.ok.inj h
  dsimp only
  rw [stretchPairs_framed]
  cases moduleMapRequest options (l.facts i).record with
  | none => split <;> rfl
  | some request =>
    generalize (if options.debug then ownMap? (l.facts i) else none) = own
    cases own <;> rfl

theorem code_of_placeModule_eq (h : placeModule options l names i = .ok piece) :
    piece.code.toList = (moduleFrame l names i).1.toList ++
      ((stretches 0 (effectiveEdits options l i) (l.facts i).record.source.toList).flatMap Stretch.output ++
        (moduleFrame l names i).2.toList) := by
  rw [code_eq_placedText h, placedText, editedText]
  simp

theorem keepsLines_placeModule (h : placeModule options l names i = .ok piece) : piece.KeepsLines := by
  intro map hmap s hs
  rw [map_of_placeModule h] at hmap
  obtain ⟨request, -, hmap⟩ := Option.map_eq_some_iff.mp hmap
  have hpairs : ∀ q ∈ placedPairs options l names i,
      q.1.Before (Position.advanceBy {} piece.code.toList) := by
    intro q hq
    rw [code_of_placeModule_eq h, Position.advanceBy_append, Position.advanceBy_append]
    exact (bounds_of_mem_stretchPairs hq).2.trans_le Position.le_advanceBy
  dsimp only at hmap
  split at hmap
  · rw [← hmap] at hs
    obtain ⟨token, htoken, heq⟩ := SourceMap.exists_of_mem_segments_compose hs
    exact heq ▸ keepsLines_pairsMap hpairs token htoken
  · rw [← hmap] at hs
    exact keepsLines_pairsMap hpairs s hs

theorem keepsLines_bundlePieces (h : placeModules options l names = .ok placed) :
    ∀ p ∈ bundlePieces options lines placed, p.KeepsLines := by
  intro p hp
  rcases List.mem_append.mp hp with hp | hp
  · rcases List.mem_append.mp hp with hp | hp
    · exact keepsLines_wrapperPiece p hp
    · obtain ⟨i, -, hplaced⟩ := exists_of_mem_pieces h hp
      exact keepsLines_placeModule hplaced
  · exact keepsLines_wrapperPiece p hp

/-- Where the piece of a module is among those of its bundle. -/
def pieceIndex (options : Options) (l : Linked) (lines : WrapperLines) (i : Nat) : Nat :=
  (wrapperPiece options "_prelude" lines.intro).length + l.order.idxOf i

theorem exists_piece (h : placeModules options l names = .ok placed) (hi : i ∈ l.order) : ∃ piece,
    placeModule options l names i = .ok piece ∧
      (bundlePieces options lines placed)[pieceIndex options l lines i]? = some piece := by
  have hpairs := forall₂_placeModules h
  have hlt : l.order.idxOf i < l.order.length := List.idxOf_lt_length_of_mem hi
  have hlt' : l.order.idxOf i < placed.length := hpairs.length_eq ▸ hlt
  have hplaced := hpairs.get hlt hlt'
  rw [List.get_eq_getElem, List.getElem_idxOf hlt] at hplaced
  refine ⟨placed[l.order.idxOf i], hplaced, ?_⟩
  rw [bundlePieces, pieceIndex, List.append_assoc, List.getElem?_append_right (Nat.le_add_right _ _),
    Nat.add_sub_cancel_left, List.getElem?_append_left hlt', List.getElem?_eq_getElem hlt']

/-- Where in the bundle a place of a module's source is. -/
def emittedOffset (options : Options) (l : Linked) (names : LoaderNames) (pieces : List Piece)
    (lines : WrapperLines) (i o : Nat) : Nat :=
  startOffset pieces (pieceIndex options l lines i) + byteLength (moduleFrame l names i).1.toList +
    movedOffset (effectiveEdits options l i) o

/-- A map tells of a place of a text that it comes from a place of a source: the token found for it is on
its line, is for the line of the origin, and is ahead of both by the same number of columns. -/
def SourceMap.Tells (map : SourceMap) (name : String) (generated origin : Position) : Prop :=
  ∃ token, map.lookup generated = some token ∧ (map.segment token).source = some name ∧
    token.generated.line = generated.line ∧ token.generated.column ≤ generated.column ∧
    token.origin.line = origin.line ∧
    token.origin.column + (generated.column - token.generated.column) = origin.column

/-- A character that a module keeps, in its piece, and the latest token for it. -/
theorem exists_latest_placed (h : placeModule options l names i = .ok piece)
    (hown : ownMap? (l.facts i) = none)
    (hrequest : moduleMapRequest options (l.facts i).record = some request)
    (hchar : RestAt (l.facts i).record.source.toList (c :: rest) o)
    (hfree : Uncovered (effectiveEdits options l i) o) :
    ∃ written following map, piece.code.toList = written ++ c :: following ∧
      byteLength written =
        byteLength (moduleFrame l names i).1.toList + movedOffset (effectiveEdits options l i) o ∧
      piece.map = some map ∧ ∃ pair,
        IsLatest Segment.generated map.segments (Position.advanceBy {} written)
          (pairSegment request.sourceName pair) ∧
        Aligned pair (Position.advanceBy {} written)
          (positionAt (l.facts i).record.source.toList o) := by
  obtain ⟨written, following, hwritten, hbytes, pair, hlatest, haligned⟩ :=
    exists_latest_of_resolveEdits (Position.advanceBy {} (moduleFrame l names i).1.toList)
      (resolveEdits_of_placeModule h) hchar hfree
  rw [← Position.advanceBy_append] at hlatest haligned
  refine ⟨(moduleFrame l names i).1.toList ++ written, following ++ (moduleFrame l names i).2.toList,
    pairsMap request (l.facts i).record.source (placedPairs options l names i), ?_, ?_, ?_, pair,
    isLatest_pairsMap hlatest, haligned⟩
  · rw [code_of_placeModule_eq h, hwritten]
    simp
  · rw [byteLength_append, hbytes]
  · rw [map_of_placeModule h, hrequest, hown]
    simp

theorem exists_bundleMap_eq (options : Options) (lines : WrapperLines) (placed : List Piece) :
    ∃ sources contents, bundleMap options lines placed =
      .ofSegments sources contents (joinedSegments 0 (bundlePieces options lines placed)) :=
  exists_joinedMap_eq _

section Joined

variable {code more : List Char}
  (hcode : code = (joinPieces (bundlePieces options lines placed)).code.toList ++ more)
include hcode

/-- A character that a module keeps is in the bundle, and the map tells where it comes from. -/
theorem tells_of_uncovered (h : placeModules options l names = .ok placed) (hi : i ∈ l.order)
    (hown : ownMap? (l.facts i) = none)
    (hrequest : moduleMapRequest options (l.facts i).record = some request)
    (hchar : RestAt (l.facts i).record.source.toList (c :: rest) o)
    (hfree : Uncovered (effectiveEdits options l i) o) :
    let g := emittedOffset options l names (bundlePieces options lines placed) lines i o
    (∃ following, RestAt code (c :: following) g) ∧
      (bundleMap options lines placed).Tells request.sourceName (positionAt code g)
        (positionAt (l.facts i).record.source.toList o) := by
  intro g
  obtain ⟨piece, hplaced, hk⟩ : ∃ piece, placeModule options l names i = .ok piece ∧
      (bundlePieces options lines placed)[pieceIndex options l lines i]? = some piece := exists_piece h hi
  obtain ⟨written, following, map, hwritten, hbytes, hmap, pair, hlatest, haligned⟩ :=
    exists_latest_placed hplaced hown hrequest hchar hfree
  have hg : g = startOffset (bundlePieces options lines placed) (pieceIndex options l lines i) +
      byteLength written := by
    rw [hbytes, ← Nat.add_assoc]
    rfl
  obtain ⟨⟨below, hbelow⟩, hposition⟩ := positionAt_piece hk hcode hwritten
  have hline : (Position.advanceBy {} written).line ≤ lineCount piece.code.toList := by
    rw [Position.line_advanceBy, hwritten, lineCount, lineCount, List.count_append]
    simp
  have hjoined := isLatest_joinedSegments (keepsLines_bundlePieces h) hk hmap hlatest hline
  have hlookup : ((bundleMap options lines placed).lookup (positionAt code g)).map
      (bundleMap options lines placed).segment =
        some ((pairSegment request.sourceName pair).below
          (firstLine (bundlePieces options lines placed) (pieceIndex options l lines i))) := by
    obtain ⟨sources, contents, hmap⟩ := exists_bundleMap_eq options lines placed
    rw [hg, hposition, hmap]
    exact SourceMap.lookup_ofSegments hjoined
  obtain ⟨token, htoken, hsegment⟩ := Option.map_eq_some_iff.mp hlookup
  have hgenerated : token.generated = pair.1.below _ := congrArg Segment.generated hsegment
  have horigin : token.origin = pair.2 := congrArg Segment.origin hsegment
  obtain ⟨n, hcolumn, horiginColumn⟩ := haligned.columns
  refine ⟨⟨following ++ below, hg ▸ hbelow⟩, token, htoken, congrArg Segment.source hsegment, ?_⟩
  rw [hg, hposition, hgenerated, horigin]
  simp only [Position.below]
  exact ⟨by rw [haligned.line], by omega, haligned.originLine, by omega⟩

/-- A token of the map is on a line of a piece that has a map. -/
theorem exists_onLinesOf (h : placeModules options l names = .ok placed) {token : Mapping}
    (htoken : token ∈ (bundleMap options lines placed).mappings) :
    ∃ k p, (bundlePieces options lines placed)[k]? = some p ∧ p.map.isSome ∧
      OnLinesOf code (bundlePieces options lines placed) k p token.generated.line := by
  obtain ⟨sources, contents, hmaps⟩ := exists_bundleMap_eq options lines placed
  rw [hmaps] at htoken
  obtain ⟨k, p, map, hk, hmap, own, hown, heq⟩ :=
    mem_joinedSegments.mp (SourceMap.mem_segments_ofSegments.mp (List.mem_map_of_mem htoken))
  have hline : token.generated.line =
      own.generated.line + (0 + firstLine (bundlePieces options lines placed) k) :=
    congrArg (fun s => s.generated.line) heq
  have hkeeps := keepsLines_bundlePieces h p (List.mem_of_getElem? hk) map hmap own hown
  refine ⟨k, p, hk, by rw [hmap]; rfl, (onLinesOf_iff hk hcode).mpr ?_⟩
  omega

end Joined

/-- A module that is not to be mapped, or is of no file. -/
theorem map_eq_none (h : placeModule options l names i = .ok piece)
    (hnone : (l.facts i).record.noMap ∨ (l.facts i).record.sourceFile = none) : piece.map = none := by
  have hrequest : moduleMapRequest options (l.facts i).record = none := by
    rcases hnone with hnone | hnone <;> simp [moduleMapRequest, hnone]
  rw [map_of_placeModule h, hrequest]
  rfl

/-- The map of a debug bundle tells of each character that a mapped module keeps where it comes from. Its
tokens are on the lines of mapped pieces, and none of them on those of a module without a map. -/
theorem bundle_mapped (ht : Table.ofRecords records = .ok t) (hm : scanModules t = .ok modules)
    (hdebug : options.debug = true) :
    let l := Linked.ofModules t modules
    let names := LoaderNames.ofModules modules
    let lines := wrapperLines options l names
    ∃ placed b map, placeModules options l names = .ok placed ∧ bundle options records = .ok b ∧
      b.map = some map ∧
      let pieces := bundlePieces options lines placed
      let code := b.code.toList
      (∀ i < t.size, ∀ file, (t.get i).sourceFile = some file → (t.get i).noMap = false →
        ownMap? (l.facts i) = none → ∀ o c rest, RestAt (t.get i).source.toList (c :: rest) o →
          Uncovered (effectiveEdits options l i) o →
            let g := emittedOffset options l names pieces lines i o
            (∃ following, RestAt code (c :: following) g) ∧
              map.Tells (Path.relative file options.basedir) (positionAt code g)
                (positionAt (t.get i).source.toList o)) ∧
      (∀ k p, pieces[k]? = some p →
        ∃ rest, RestAt code (p.code.toList ++ rest) (startOffset pieces k)) ∧
      (∀ token ∈ map.mappings, ∃ k p, pieces[k]? = some p ∧ p.map.isSome ∧
        OnLinesOf code pieces k p token.generated.line) ∧
      ∀ i < t.size, (t.get i).noMap ∨ (t.get i).sourceFile = none →
        ∃ p, placeModule options l names i = .ok p ∧
          pieces[pieceIndex options l lines i]? = some p ∧
          ∀ token ∈ map.mappings,
            ¬OnLinesOf code pieces (pieceIndex options l lines i) p token.generated.line := by
  intro l names lines
  obtain ⟨placed, hplaced⟩ : ∃ placed, placeModules options l names = .ok placed :=
    exists_placeModules names hm
  have hrendered : renderBundle options lines placed = _ := renderBundle_debug hdebug
  have hbundle : bundle options records = .ok (builtBundle options l placed) :=
    bundle_of_placed ht hm hplaced
  have hcode : (builtBundle options l placed).code.toList =
      (joinPieces (bundlePieces options lines placed)).code.toList ++
        ("\n" ++ (bundleMap options lines placed).comment ++ "\n").toList := by
    change (renderBundle options lines placed).code.toList = _
    rw [hrendered]
    simp
  have hmap : (builtBundle options l placed).map = some (bundleMap options lines placed) := by
    change (renderBundle options lines placed).map = _
    rw [hrendered]
  refine ⟨placed, _, _, hplaced, hbundle, hmap, fun i hi file hfile hmapped hown o c rest hchar hfree => ?_,
    fun k p hk => ?_, fun token htoken => exists_onLinesOf hcode hplaced htoken, fun i hi hnone => ?_⟩
  · have hrecord : (l.facts i).record = t.get i := Linked.record_facts hm hi
    have hrequest : moduleMapRequest options (l.facts i).record =
        some { sourceName := Path.relative file options.basedir, includeContent := true } := by
      rw [hrecord, moduleMapRequest, hdebug, hmapped, hfile]
      rfl
    rw [← hrecord] at hchar ⊢
    exact tells_of_uncovered hcode hplaced (Linked.mem_order.mpr hi) hown hrequest hchar hfree
  · exact (positionAt_piece hk hcode (List.nil_append _).symm).1
  · have hrecord : (l.facts i).record = t.get i := Linked.record_facts hm hi
    rw [← hrecord] at hnone
    obtain ⟨p, hpiece, hk⟩ : ∃ p, placeModule options l names i = .ok p ∧
        (bundlePieces options lines placed)[pieceIndex options l lines i]? = some p :=
      exists_piece hplaced (Linked.mem_order.mpr hi)
    refine ⟨p, hpiece, hk, fun token htoken honLines => ?_⟩
    obtain ⟨j, q, hj, hmap, honLines'⟩ := exists_onLinesOf hcode hplaced htoken
    obtain rfl := eq_of_onLinesOf hk hj hcode honLines honLines'
    cases hk.symm.trans hj
    rw [map_eq_none hpiece hnone] at hmap
    cases hmap

/-- A module of a file, with a name that the bundle replaces. -/
def mappedModule : List Record := [
  { id := .number 1, source := "f();\ng(exports);", sourceFile := some "/src/a.js" }]

/-- The parenthesis behind the name. -/
theorem bundle_mapped_mappedModule :
    ∃ b map g, bundle { debug := true, basedir := some "/src" } mappedModule = .ok b ∧ b.map = some map ∧
      (∃ following, RestAt b.code.toList (')' :: following) g) ∧
      map.Tells "a.js" (positionAt b.code.toList g) ⟨1, 9⟩ := by
  let options : Options := { debug := true, basedir := some "/src" }
  let t : Table := ⟨mappedModule⟩
  have ht : Table.ofRecords mappedModule = .ok t := Table.ofRecords_eq_ok_iff.mpr ⟨by decide, rfl⟩
  obtain ⟨modules, hm, hown, e, -, hedits, hfits, hstop⟩ :
      ∃ modules ∈ (scanModules t).toOption, let l := Linked.ofSorted t modules [0]
        ownMap? (l.facts 0) = none ∧
        ∃ e ∈ placedEdits options l 0, placedEdits options l 0 = [e] ∧
          e.fits (l.facts 0).record.source.toList ∧ e.stop = 14 := by decide +kernel
  have hm := mem_toOption_scanModules.mp hm
  have hsorted : t.sorted (Linked.callPlace modules) = [0] := List.perm_singleton.mp t.sorted_perm_range
  rw [← Linked.ofModules_eq_ofSorted hsorted] at hown hedits hfits
  have heffective : effectiveEdits options (Linked.ofModules t modules) 0 = [e] := by
    rw [effectiveEdits, hedits, resolveEdits_singleton hfits]
    rfl
  have hfree : Uncovered (effectiveEdits options (Linked.ofModules t modules) 0) 14 := by
    intro e' he'
    rw [heffective] at he'
    rw [List.mem_singleton.mp he', hstop]
    omega
  have hchar : RestAt (t.get 0).source.toList [')', ';'] 14 :=
    ⟨"f();\ng(exports".toList, by decide, by decide⟩
  obtain ⟨placed, b, map, -, hb, hmap, htells, -⟩ := bundle_mapped ht hm (rfl : options.debug = true)
  obtain ⟨hkept, htells⟩ := htells 0 (by decide) "/src/a.js" rfl rfl hown 14 ')' [';'] hchar hfree
  have hname : Path.relative "/src/a.js" options.basedir = "a.js" := by decide +kernel
  have horigin : positionAt (t.get 0).source.toList 14 = ⟨1, 9⟩ := by decide +kernel
  rw [hname, horigin] at htells
  exact ⟨b, map, _, hb, hmap, hkept, htells⟩

end FlatBundle
