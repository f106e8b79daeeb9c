import FlatBundle.Proofs.Edit.Resolve

/-!
What a part of a source becomes when edits are carried out, and where it stands then.
-/

namespace FlatBundle

variable {source rest : List Char} {edits resolved : List Edit} {part text : String} {start stop : Nat}

/-- The part of a source between two offsets becomes a text: that of the edit of just this part, or the part
itself if no edit touches it. -/
inductive Becomes (edits : List Edit) (start stop : Nat) (part : String) : String → Prop
  | replaced {text : String} (edit : ⟨start, stop, text⟩ ∈ edits) : Becomes edits start stop part text
  | kept (clear : ∀ e ∈ edits, e.stop ≤ start ∨ stop ≤ e.start) : Becomes edits start stop part part

/-- A part of a source, with what it becomes at the place where the edits moved it. -/
theorem Becomes.restAt (h : Becomes resolved start stop part text)
    (hresolved : resolveEdits source edits = .ok resolved)
    (hstart : RestAt source (part.toList ++ rest) start) (hstop : RestAt source rest stop) (hlt : start < stop) :
    ∃ following, RestAt ((stretches 0 resolved source).flatMap Stretch.output) (text.toList ++ following)
      (movedOffset resolved start) := by
  have hturn := inTurn_of_resolveEdits hresolved
  obtain rfl := (hstart.append part.toList).offset_eq hstop
  cases h with
  | replaced edit =>
    obtain ⟨front, back, rfl⟩ := List.append_of_mem edit
    obtain ⟨passed, stop, before, rest, cut, tail, hkept, hplace, hmore⟩ := hturn.exists_keptUpTo_edit
    have hbehind : ∀ e ∈ (⟨start, start + byteLength part.toList, text⟩ : Edit) :: back, start < e.stop := by
      intro e he
      rcases List.mem_cons.mp he with rfl | he
      · exact hlt
      · exact hmore.lt_stop hlt e he
    rw [movedOffset_append hbehind]
    exact ⟨_, by simpa [hplace, Stretch.output] using hkept.restAt_output⟩
  | kept clear =>
    obtain ⟨front, more, passed, stop, before, following, tail, hkept, rfl, hmore⟩ :=
      hturn.exists_keptUpTo ⟨[], rfl, rfl⟩ hstart (Nat.zero_le start) clear
    rw [hkept.edits_eq, movedOffset_append (hmore.lt_stop hlt), ← hkept.edits_eq]
    exact ⟨_, by simpa using hkept.restAt_output⟩

end FlatBundle
