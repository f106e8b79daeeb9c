import FlatBundle.Edit.Apply
import FlatBundle.Proofs.Text.Position

/-!
What becomes of sorted edits one by one, and that edits which lie one after the other or one inside the
other can be carried out together.
-/

namespace FlatBundle

namespace Edit

/-- One edit after the other, or one inside the other. -/
def Laminar (a b : Edit) : Prop :=
  a.stop ≤ b.start ∨ b.stop ≤ a.start ∨ (a.start ≤ b.start ∧ b.stop ≤ a.stop) ∨
    (b.start ≤ a.start ∧ a.stop ≤ b.stop)

variable {source : List Char} {a b c : Edit}

theorem Laminar.refl : a.Laminar a :=
  .inr (.inr (.inl ⟨Nat.le_refl _, Nat.le_refl _⟩))

theorem Laminar.symm (h : a.Laminar b) : b.Laminar a := by
  unfold Laminar at *
  omega

theorem fits_iff :
    a.fits source ↔ a.start ≤ a.stop ∧ isBoundary source a.start ∧ isBoundary source a.stop := by
  simp [fits, and_assoc]

theorem le_iff : a.le b ↔ a.start < b.start ∨ a.start = b.start ∧ b.stop ≤ a.stop := by
  simp [le]

theorem le_total (a b : Edit) : (a.le b || b.le a) = true := by
  rw [Bool.or_eq_true, le_iff, le_iff]
  omega

theorem le_trans (a b c : Edit) (hab : a.le b) (hbc : b.le c) : a.le c := by
  rw [le_iff] at *
  omega

/-- An edit that starts inside of an earlier one stops there too. -/
theorem Laminar.of_le (h : a.Laminar b) (hle : a.le b) (hlt : b.start < a.stop) :
    b.stop ≤ a.stop := by
  rw [le_iff] at hle
  unfold Laminar at h
  omega

end Edit

/-- Edits of which no two get in each other's way. -/
def AllLaminar (edits : List Edit) : Prop :=
  ∀ a ∈ edits, ∀ b ∈ edits, a.Laminar b

theorem AllLaminar.append {xs ys : List Edit} (hxs : AllLaminar xs) (hys : AllLaminar ys)
    (hcross : ∀ a ∈ xs, ∀ b ∈ ys, a.Laminar b) : AllLaminar (xs ++ ys) := by
  intro a ha b hb
  rcases List.mem_append.mp ha with ha | ha
  · rcases List.mem_append.mp hb with hb | hb
    · exact hxs a ha b hb
    · exact hcross a ha b hb
  · rcases List.mem_append.mp hb with hb | hb
    · exact (hcross b hb a ha).symm
    · exact hys a ha b hb

theorem allLaminar_singleton (e : Edit) : AllLaminar [e] := by
  intro a ha b hb
  rw [List.mem_singleton.mp ha, List.mem_singleton.mp hb]
  exact .refl

variable {source : List Char}

theorem reduceEdits_ok {last : Option Edit} {edits : List Edit}
    (hfits : ∀ e ∈ last.toList ++ edits, e.fits source)
    (hlaminar : ∀ a ∈ last.toList ++ edits, ∀ b ∈ last.toList ++ edits, a.Laminar b)
    (hsorted : (last.toList ++ edits).Pairwise fun a b => a.le b) :
    ∃ reduced, reduceEdits source last edits = .ok reduced := by
  induction edits generalizing last with
  | nil => exact ⟨_, rfl⟩
  | cons e edits ih =>
    have hstep : ∃ reduced, reduceEdits source (some e) edits = .ok reduced := by
      have hsub : (e :: edits).Sublist (last.toList ++ e :: edits) := List.sublist_append_right _ _
      exact ih (fun a ha => hfits a (hsub.subset ha))
        (fun a ha b hb => hlaminar a (hsub.subset ha) b (hsub.subset hb)) (hsorted.sublist hsub)
    have he : e.fits source := hfits e (by simp)
    cases last with
    | none =>
      rw [reduceEdits, if_neg (by simp [he])]
      exact hstep
    | some last =>
      rw [reduceEdits, if_neg (by simp [he])]
      have hle : last.le e := by
        simp only [Option.toList_some, List.singleton_append, List.pairwise_cons] at hsorted
        exact hsorted.1 e (by simp)
      have hpair : last.Laminar e := hlaminar last (by simp) e (by simp)
      split
      · exact hstep
      · split
        · rename_i hlt
          have hinside : e.stop ≤ last.stop := hpair.of_le hle hlt
          rw [if_pos hinside]
          have hsub : (last :: edits).Sublist (last :: e :: edits) := by simp
          exact ih (fun a ha => hfits a (hsub.subset ha))
            (fun a ha b hb => hlaminar a (hsub.subset ha) b (hsub.subset hb)) (hsorted.sublist hsub)
        · obtain ⟨reduced, hreduced⟩ := hstep
          exact ⟨last :: reduced, by rw [hreduced]; rfl⟩

/-- Laminar edits that fit a text can be carried out in whatever order they come. -/
theorem resolveEdits_ok {edits : List Edit} (hfits : ∀ e ∈ edits, e.fits source)
    (hlaminar : AllLaminar edits) : ∃ resolved, resolveEdits source edits = .ok resolved := by
  have hmem {e : Edit} (he : e ∈ edits.mergeSort Edit.le) : e ∈ edits := List.mem_mergeSort.mp he
  refine reduceEdits_ok (fun e he => hfits e (hmem he))
    (fun a ha b hb => hlaminar a (hmem ha) b (hmem hb)) ?_
  exact List.pairwise_mergeSort Edit.le_trans Edit.le_total edits

/-- How sorted edits become those that take effect, given the last one so far. -/
inductive Reduces (source : List Char) : Edit → List Edit → List Edit → Prop
  | done {last : Edit} : Reduces source last [] [last]
  | again {last e : Edit} {edits resolved : List Edit} (hfits : e.fits source)
    (hspan : last.start = e.start ∧ last.stop = e.stop) (hrest : Reduces source e edits resolved) :
    Reduces source last (e :: edits) resolved
  | inside {last e : Edit} {edits resolved : List Edit} (hfits : e.fits source)
    (hspan : ¬(last.start = e.start ∧ last.stop = e.stop)) (hlt : e.start < last.stop)
    (hle : e.stop ≤ last.stop) (hrest : Reduces source last edits resolved) :
    Reduces source last (e :: edits) resolved
  | onward {last e : Edit} {edits resolved : List Edit} (hfits : e.fits source)
    (hspan : ¬(last.start = e.start ∧ last.stop = e.stop)) (hle : last.stop ≤ e.start)
    (hrest : Reduces source e edits resolved) : Reduces source last (e :: edits) (last :: resolved)

theorem reduces_of_reduceEdits {last : Edit} {edits resolved : List Edit}
    (h : reduceEdits source (some last) edits = .ok resolved) : Reduces source last edits resolved := by
  induction edits generalizing last resolved with
  | nil =>
    cases h
    exact .done
  | cons e edits ih =>
    rw [reduceEdits] at h
    split at h
    · cases h
    next hfits =>
      have hfits : e.fits source := by simpa using hfits
      split at h
      next hspan => exact .again hfits (by simpa using hspan) (ih h)
      next hspan =>
        have hspan : ¬(last.start = e.start ∧ last.stop = e.stop) := by simpa using hspan
        split at h
        next hlt =>
          split at h
          next hle => exact .inside hfits hspan hlt hle (ih h)
          next => cases h
        next hle =>
          cases hrest : reduceEdits source (some e) edits with
          | error error =>
            rw [hrest] at h
            cases h
          | ok others =>
            rw [hrest] at h
            cases h
            exact .onward hfits hspan (Nat.le_of_not_lt hle) (ih hrest)

/-- Edits that are carried out are reduced in their order, but for none at all. -/
theorem resolveEdits_cases {edits resolved : List Edit} (h : resolveEdits source edits = .ok resolved) :
    (edits.mergeSort Edit.le = [] ∧ resolved = []) ∨
      ∃ first rest, edits.mergeSort Edit.le = first :: rest ∧
        (first :: rest).Pairwise (fun a b => a.le b) ∧ first.fits source ∧
          Reduces source first rest resolved := by
  have hsorted := List.pairwise_mergeSort Edit.le_trans Edit.le_total edits
  unfold resolveEdits at h
  cases heq : edits.mergeSort Edit.le with
  | nil =>
    rw [heq] at h
    cases h
    exact .inl ⟨rfl, rfl⟩
  | cons first rest =>
    rw [heq] at h hsorted
    rw [reduceEdits] at h
    split at h
    · cases h
    next hfits =>
      exact .inr ⟨first, rest, rfl, hsorted, by simpa using hfits, reduces_of_reduceEdits h⟩

theorem resolveEdits_nil : resolveEdits source [] = .ok [] := by
  simp [resolveEdits, reduceEdits]

/-- A single edit takes effect if it lies in the text. -/
theorem resolveEdits_singleton {e : Edit} (h : e.fits source) : resolveEdits source [e] = .ok [e] := by
  rw [resolveEdits, List.mergeSort_singleton, reduceEdits, h]
  rfl

theorem EditList.apply_ok {e : EditList} {text : String} (request : Option MapRequest)
    (hfits : ∀ a ∈ e.edits, a.fits text.toList) (hlaminar : AllLaminar e.edits) :
    ∃ piece, e.apply text request = .ok piece := by
  obtain ⟨resolved, hresolved⟩ := resolveEdits_ok hfits hlaminar
  rw [EditList.apply, EditList.stretches, hresolved]
  exact ⟨_, rfl⟩

end FlatBundle
