import FlatBundle.Proofs.Bundle.Emission

/-!
The pieces of a bundle: each module in its place, and the lines around all of them.
-/

namespace FlatBundle

variable {options : Options} {l : Linked} {names : LoaderNames} {records : List Record} {t : Table}
  {modules : List ModuleFacts} {pieces : List Piece} {lines : WrapperLines} {i : Nat}

/-- The edits of a module that take effect. -/
def effectiveEdits (options : Options) (l : Linked) (i : Nat) : List Edit :=
  (resolveEdits (l.facts i).record.source.toList (placedEdits options l i)).toOption.getD []

theorem resolveEdits_of_placeModule {piece : Piece} (h : placeModule options l names i = .ok piece) :
    resolveEdits (l.facts i).record.source.toList (placedEdits options l i) =
      .ok (effectiveEdits options l i) := by
  obtain ⟨edits, hresolved, -⟩ := code_of_placeModule h
  rw [effectiveEdits, hresolved]
  rfl

theorem code_eq_placedText {piece : Piece} (h : placeModule options l names i = .ok piece) :
    piece.code = placedText l names i (effectiveEdits options l i) := by
  obtain ⟨edits, hresolved, hcode⟩ := code_of_placeModule h
  rw [resolveEdits_of_placeModule h] at hresolved
  cases hresolved
  exact hcode

/-- The modules in their places, one by one. -/
theorem forall₂_placeModules (h : placeModules options l names = .ok pieces) :
    List.Forall₂ (fun i p => placeModule options l names i = .ok p) l.order pieces := by
  rw [placeModules_eq, allResults_eq_ok_iff] at h
  have hpairs := List.forall₂_eq_eq_eq.symm ▸ h
  rw [List.forall₂_map_left_iff, List.forall₂_map_right_iff] at hpairs
  refine hpairs.imp fun i p hplaced => ?_
  cases hmodule : placeModule options l names i with
  | error error =>
    rw [hmodule] at hplaced
    cases hplaced
  | ok piece =>
    rw [hmodule] at hplaced
    cases hplaced
    rfl

theorem exists_of_mem_pieces (h : placeModules options l names = .ok pieces) {p : Piece}
    (hp : p ∈ pieces) : ∃ i ∈ l.order, placeModule options l names i = .ok p := by
  obtain ⟨k, hk, rfl⟩ := List.getElem_of_mem hp
  have hpairs := forall₂_placeModules h
  have hlt : k < l.order.length := hpairs.length_eq ▸ hk
  exact ⟨l.order[k], List.getElem_mem hlt, hpairs.get hlt hk⟩

theorem codes_of_placeModules (h : placeModules options l names = .ok pieces) :
    pieces.map Piece.code = l.order.map fun i => placedText l names i (effectiveEdits options l i) := by
  have hcodes : List.Forall₂ (· = ·)
      (l.order.map fun i => placedText l names i (effectiveEdits options l i)) (pieces.map Piece.code) := by
    rw [List.forall₂_map_left_iff, List.forall₂_map_right_iff]
    exact (forall₂_placeModules h).imp fun i p hplaced => (code_eq_placedText hplaced).symm
  rw [List.forall₂_eq_eq_eq] at hcodes
  exact hcodes.symm

/-- All pieces of a bundle, from the top down. -/
def bundlePieces (options : Options) (lines : WrapperLines) (pieces : List Piece) : List Piece :=
  wrapperPiece options "_prelude" lines.intro ++ pieces ++ wrapperPiece options "_postlude" lines.outro

theorem map_wrapperPiece (hdebug : options.debug = false) {name : String} {lines : List String} :
    ∀ p ∈ wrapperPiece options name lines, p.map = none := by
  intro p hp
  cases lines with
  | nil => cases hp
  | cons line lines =>
    obtain rfl := List.mem_singleton.mp hp
    simp [hdebug]

theorem renderBundle_eq {joined : Piece} (h : joinPieces (bundlePieces options lines pieces) = joined) :
    renderBundle options lines pieces =
      { code := joined.code ++ (((joined.map <|> if options.debug then some (SourceMap.ofSegments [] [] [])
          else none).map fun m => "\n" ++ m.comment).getD "") ++ "\n"
        map := joined.map <|> if options.debug then some (SourceMap.ofSegments [] [] []) else none } := by
  rw [← h]
  rfl

/-- A bundle of pieces without maps has none. -/
theorem renderBundle_plain (hdebug : options.debug = false) (h : ∀ p ∈ pieces, p.map = none) :
    renderBundle options lines pieces =
      { code := (joinPieces (bundlePieces options lines pieces)).code ++ "\n" } := by
  have hmaps : (bundlePieces options lines pieces).filterMap (·.map) = [] := by
    rw [List.filterMap_eq_nil_iff]
    intro p hp
    rcases List.mem_append.mp hp with hp | hp
    · rcases List.mem_append.mp hp with hp | hp
      · exact map_wrapperPiece hdebug p hp
      · exact h p hp
    · exact map_wrapperPiece hdebug p hp
  have hmap : (joinPieces (bundlePieces options lines pieces)).map = none := by
    rw [joinPieces, hmaps]
    rfl
  rw [renderBundle_eq rfl, hmap, hdebug]
  simp

/-- The map of a debug bundle. -/
def bundleMap (options : Options) (lines : WrapperLines) (pieces : List Piece) : SourceMap :=
  (joinPieces (bundlePieces options lines pieces)).map.getD (.ofSegments [] [] [])

theorem renderBundle_debug (hdebug : options.debug = true) :
    renderBundle options lines pieces =
      { code := (joinPieces (bundlePieces options lines pieces)).code ++ "\n" ++
          (bundleMap options lines pieces).comment ++ "\n"
        map := some (bundleMap options lines pieces) } := by
  unfold bundleMap
  obtain ⟨joined, hjoined⟩ : ∃ joined, joinPieces (bundlePieces options lines pieces) = joined := ⟨_, rfl⟩
  rw [renderBundle_eq hjoined, hjoined, hdebug]
  cases joined.map with
  | none => simp [String.append_assoc]
  | some map => simp [String.append_assoc]

end FlatBundle
