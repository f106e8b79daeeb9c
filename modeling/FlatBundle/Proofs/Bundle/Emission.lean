import FlatBundle.Proofs.Bundle.Capture
import FlatBundle.Proofs.Bundle.Reorder
import FlatBundle.Proofs.Edit.Apply

/-!
The text that a module ends up with: its source with the edits that take effect, in the frame that
declares its variable.
-/

namespace FlatBundle

variable {options : Options} {l : Linked} {names : LoaderNames} {edits : List Edit} {piece : Piece}
  {i : Nat}

/-- A text with resolved edits carried out. -/
def editedText (source : String) (edits : List Edit) : String :=
  String.ofList ((stretches 0 edits source.toList).flatMap Stretch.output)

/-- The text of a module in its place, given the edits that take effect. -/
def placedText (l : Linked) (names : LoaderNames) (i : Nat) (edits : List Edit) : String :=
  (moduleFrame l names i).1 ++ editedText (l.facts i).record.source edits ++ (moduleFrame l names i).2

theorem code_of_apply {el : EditList} {text : String} {request : Option MapRequest}
    (h : el.apply text request = .ok piece) :
    ∃ edits, resolveEdits text.toList el.edits = .ok edits ∧
      piece.code = el.intro ++ editedText text edits ++ el.outro := by
  obtain ⟨edits, hresolved, hcode, -⟩ := el.exists_of_apply h
  refine ⟨edits, hresolved, ?_⟩
  rw [← String.toList_inj, hcode]
  simp [editedText]

theorem code_of_placeModule (h : placeModule options l names i = .ok piece) :
    ∃ edits, resolveEdits (l.facts i).record.source.toList (placedEdits options l i) = .ok edits ∧
      piece.code = placedText l names i edits := by
  rw [placeModule_eq] at h
  cases happly : EditList.apply ⟨placedEdits options l i, (moduleFrame l names i).1,
      (moduleFrame l names i).2⟩ (l.facts i).record.source (moduleMapRequest options (l.facts i).record) with
  | error error =>
    rw [happly] at h
    cases h
  | ok placed =>
    rw [happly] at h
    cases h
    exact code_of_apply happly

/-- The edits of a module in which no name is changed. -/
def plainEdits (l : Linked) (i : Nat) : List Edit :=
  let m := l.facts i
  typeofRequireEdits m ++
    (if l.isOnDemand i then [] else exportsEdits m ++ m.uses.module.map (moduleEdit m)) ++
    requirementEdits l m [] m.requirements

theorem placedEdits_eq_plainEdits {t : Table} {modules : List ModuleFacts}
    (hm : scanModules t = .ok modules) (hi : i < t.size) (hdebug : options.debug = false)
    (htop : (Linked.ofModules t modules).topLevelNames i = []) :
    placedEdits options (.ofModules t modules) i = plainEdits (.ofModules t modules) i := by
  rw [placedEdits, moduleEdits, Linked.renamedBindings_eq_nil hm hi htop, plainEdits]
  simp [hdebug]

/-- Where nothing is mapped, a module is the text that the edits make of it. -/
theorem placeModule_of_resolved (names : LoaderNames) (hdebug : options.debug = false)
    (h : resolveEdits (l.facts i).record.source.toList (placedEdits options l i) = .ok edits) :
    placeModule options l names i = .ok { code := placedText l names i edits } := by
  have hrequest : moduleMapRequest options (l.facts i).record = none := by
    simp [moduleMapRequest, hdebug]
  rw [placeModule_eq, EditList.apply, EditList.stretches, h, hrequest, hdebug]
  simp [Except.map, placedText, editedText, Stretch.output, String.append_assoc]

end FlatBundle
