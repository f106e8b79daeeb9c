import FlatBundle.Proofs.Edit.Splicing

/-!
Which edits are refused: those with one that does not lie between characters of the text, and those with
two that take effect and cross. All others are carried out, and each part of the text that is copied is
there to be cut out of it.
-/

namespace FlatBundle

variable {source rest : List Char} {edits front back kept resolved : List Edit} {a e x : Edit}
  {start stop offset k : Nat} {error : EditError}

/-- The other edit starts inside of this one and goes on behind it. -/
def Edit.Crosses (a b : Edit) : Prop :=
  a.start < b.start ∧ b.start < a.stop ∧ a.stop < b.stop

instance (a b : Edit) : Decidable (a.Crosses b) :=
  inferInstanceAs (Decidable (_ ∧ _ ∧ _))

/-- Why an edit is refused that comes after some others. -/
inductive Refused (source : List Char) (kept : List Edit) (e : Edit) : EditError → Prop
  | outside (hfits : ¬e.fits source) :
    Refused source kept e (.outside e.start e.stop (byteLength source))
  | overlap {last : Edit} (hlast : last ∈ kept) (hlt : e.start < last.stop) (hstop : last.stop < e.stop) :
    Refused source kept e (.overlap e.start e.stop last.start last.stop)

theorem Refused.cons (h : Refused source kept e error) : Refused source (x :: kept) e error := by
  cases h with
  | outside hfits => exact .outside hfits
  | overlap hlast hlt hstop => exact .overlap (List.mem_cons_of_mem _ hlast) hlt hstop

/-- Edits are carried out up to the one that is refused. -/
theorem exists_of_reduceEdits_error {last : Edit} (h : reduceEdits source (some last) edits = .error error) :
    ∃ front e back kept, edits = front ++ e :: back ∧
      reduceEdits source (some last) front = .ok kept ∧ Refused source kept e error := by
  induction edits generalizing last with
  | nil => cases h
  | cons e edits ih =>
    have hstep {next : Edit} (h : reduceEdits source (some next) edits = .error error)
        (hsame : ∀ front, reduceEdits source (some last) (e :: front) = reduceEdits source (some next) front) :
        ∃ front e' back kept, e :: edits = front ++ e' :: back ∧
          reduceEdits source (some last) front = .ok kept ∧ Refused source kept e' error := by
      obtain ⟨front, e', back, kept, rfl, hkept, hrefused⟩ := ih h
      exact ⟨e :: front, e', back, kept, rfl, (hsame front).trans hkept, hrefused⟩
    rw [reduceEdits] at h
    split at h
    next hfits =>
      cases h
      exact ⟨[], e, edits, _, rfl, rfl, .outside (by simpa using hfits)⟩
    next hfits =>
      split at h
      next hspan => exact hstep h fun front => by rw [reduceEdits, if_neg hfits, if_pos hspan]
      next hspan =>
        split at h
        next hlt =>
          split at h
          next hle =>
            exact hstep h fun front => by
              rw [reduceEdits, if_neg hfits, if_neg hspan, if_pos hlt, if_pos hle]
          next hle =>
            cases h
            exact ⟨[], e, edits, [last], rfl, rfl,
              .overlap (List.mem_singleton_self last) hlt (Nat.lt_of_not_le hle)⟩
        next hlt =>
          cases hrest : reduceEdits source (some e) edits with
          | ok others =>
            rw [hrest] at h
            cases h
          | error error' =>
            rw [hrest] at h
            cases h
            obtain ⟨front, e', back, kept, rfl, hkept, hrefused⟩ := ih hrest
            refine ⟨e :: front, e', back, last :: kept, rfl, ?_, hrefused.cons⟩
            rw [reduceEdits, if_neg hfits, if_neg hspan, if_neg hlt, hkept]
            rfl

theorem exists_of_resolveEdits_error (h : resolveEdits source edits = .error error) :
    ∃ front e back kept, edits.mergeSort Edit.le = front ++ e :: back ∧
      resolveEdits source front = .ok kept ∧ Refused source kept e error := by
  have hsorted := List.pairwise_mergeSort Edit.le_trans Edit.le_total edits
  unfold resolveEdits at h
  cases heq : edits.mergeSort Edit.le with
  | nil =>
    rw [heq] at h
    cases h
  | cons first rest =>
    rw [heq, reduceEdits] at h
    split at h
    next hfits =>
      cases h
      exact ⟨[], first, rest, [], rfl, resolveEdits_nil, .outside (by simpa using hfits)⟩
    next hfits =>
      obtain ⟨front, e, back, kept, rfl, hkept, hrefused⟩ := exists_of_reduceEdits_error h
      refine ⟨first :: front, e, back, kept, rfl, ?_, hrefused⟩
      rw [heq, ← List.cons_append] at hsorted
      rw [resolveEdits, List.mergeSort_of_pairwise (List.pairwise_append.mp hsorted).1, reduceEdits,
        if_neg hfits, hkept]

/-- What goes around an edit is sorted before it. -/
theorem superseded_front (hsorted : (front ++ e :: back).Pairwise fun a b => a.le b)
    (hx : x ∈ front ++ [e]) (h : Superseded (front ++ e :: back) x.start x.stop) :
    Superseded front x.start x.stop := by
  obtain ⟨a, ha, hdiffer, hstart, hstop, hlt⟩ := h
  rcases List.mem_append.mp ha with ha | ha
  · exact ⟨a, ha, hdiffer, hstart, hstop, hlt⟩
  · obtain ⟨-, hback, hcross⟩ := List.pairwise_append.mp hsorted
    have hle : x = a ∨ x.le a := by
      rcases List.mem_append.mp hx with hx | hx
      · exact .inr (hcross x hx a ha)
      · obtain rfl := List.mem_singleton.mp hx
        exact (List.mem_cons.mp ha).imp Eq.symm ((List.pairwise_cons.mp hback).1 a)
    rcases hle with rfl | hle
    · exact absurd ⟨rfl, rfl⟩ hdiffer
    · rw [Edit.le_iff] at hle
      omega

/-- Edits that are refused because they overlap take effect both. -/
theorem crosses_of_overlap (hsorted : (front ++ e :: back).Pairwise fun a b => a.le b)
    (hkept : resolveEdits source front = .ok kept) (ha : a ∈ kept) (hlt : e.start < a.stop)
    (hstop : a.stop < e.stop) :
    a.Crosses e ∧ ¬Superseded (front ++ e :: back) a.start a.stop ∧
      ¬Superseded (front ++ e :: back) e.start e.stop := by
  obtain ⟨hlast, hfree⟩ := (mem_resolveEdits_iff hkept).mp ha
  have hafront := (mem_of_lastEdit? hlast).1
  have hle := Edit.le_iff.mp ((List.pairwise_append.mp hsorted).2.2 a hafront e List.mem_cons_self)
  refine ⟨⟨by omega, hlt, hstop⟩, fun h => hfree ?_, fun h => ?_⟩
  · exact superseded_front hsorted (List.mem_append_left _ hafront) h
  · -- what goes around the second one is kept, next to the first one
    obtain ⟨b, hb, -, hstart, hend, -⟩ := superseded_front hsorted (by simp) h
    obtain ⟨s, hs, hspan⟩ := (resolveEdits_covers hkept).2 b hb
    unfold Edit.Covers at hspan
    by_cases hsa : s = a
    · subst hsa
      omega
    · have hapart := before_or_before (resolveEdits_before hkept) hs ha hsa
      unfold Edit.Before at hapart
      omega

theorem Reduces.fits {last : Edit} (h : Reduces source last edits resolved) (ha : a ∈ edits) :
    a.fits source := by
  induction h with
  | done => cases ha
  | again hfits _ _ ih => exact (List.mem_cons.mp ha).elim (· ▸ hfits) ih
  | inside hfits _ _ _ _ ih => exact (List.mem_cons.mp ha).elim (· ▸ hfits) ih
  | onward hfits _ _ _ ih => exact (List.mem_cons.mp ha).elim (· ▸ hfits) ih

theorem fits_of_resolveEdits (h : resolveEdits source edits = .ok resolved) (ha : a ∈ edits) :
    a.fits source := by
  have hsorted : a ∈ edits.mergeSort Edit.le := List.mem_mergeSort.mpr ha
  rcases resolveEdits_cases h with ⟨heq, -⟩ | ⟨first, rest, heq, -, hfits, hreduces⟩
  · rw [heq] at hsorted
    cases hsorted
  · rw [heq] at hsorted
    exact (List.mem_cons.mp hsorted).elim (· ▸ hfits) hreduces.fits

/-- Some edit of each span that no other one goes around takes effect. -/
theorem exists_mem_resolved (h : resolveEdits source edits = .ok resolved) (ha : a ∈ edits)
    (hfree : ¬Superseded edits a.start a.stop) : ∃ s ∈ resolved, s.start = a.start ∧ s.stop = a.stop := by
  obtain ⟨s, hs⟩ := Option.isSome_iff_exists.mp (lastEdit?_isSome ha)
  obtain ⟨-, hstart, hstop⟩ := mem_of_lastEdit? hs
  exact ⟨s, (mem_resolveEdits_iff h).mpr ⟨by rw [hstart, hstop, hs], by rwa [hstart, hstop]⟩, hstart, hstop⟩

theorem not_crosses_of_resolveEdits {b : Edit} (h : resolveEdits source edits = .ok resolved)
    (ha : a ∈ edits) (hb : b ∈ edits) (hfree : ¬Superseded edits a.start a.stop)
    (hfree' : ¬Superseded edits b.start b.stop) : ¬a.Crosses b := by
  obtain ⟨s, hs, hsstart, hsstop⟩ := exists_mem_resolved h ha hfree
  obtain ⟨s', hs', hsstart', hsstop'⟩ := exists_mem_resolved h hb hfree'
  intro hcrosses
  unfold Edit.Crosses at hcrosses
  by_cases hsame : s = s'
  · subst hsame
    omega
  · have hapart := before_or_before (resolveEdits_before h) hs hs' hsame
    unfold Edit.Before at hapart
    omega

section Slices

/-- The stretches of a source from a byte offset on, each part sliced out of the whole source; `none` where
there is no such slice. -/
def slicedStretches (source : List Char) (offset : Nat) : List Edit → Option (List Stretch)
  | [] => (sliceBytes source offset (byteLength source)).map fun kept => [.kept kept]
  | e :: edits => do
    let kept ← sliceBytes source offset e.start
    let cut ← sliceBytes source e.start e.stop
    return .kept kept :: .replaced e.text.toList cut :: (← slicedStretches source e.stop edits)

/-- Edits one after the other leave parts of the source that are there to be sliced. -/
theorem InTurn.slicedStretches_eq (hturn : InTurn source offset edits) (hrest : RestAt source rest offset) :
    slicedStretches source offset edits = some (stretches offset edits rest) := by
  induction hturn generalizing rest with
  | nil =>
    obtain ⟨before, rfl, rfl⟩ := hrest
    have hend : RestAt (before ++ rest) (rest ++ []) (byteLength before) := ⟨before, by simp, rfl⟩
    rw [slicedStretches, byteLength_append, hend.sliceBytes]
    rfl
  | @cons offset e edits hle hfits _ ih =>
    obtain ⟨kept, cut, after, rfl, hstart, hstop, hafter, hstretches⟩ :=
      exists_stretches_cons hrest hle hfits
    have hkept := hrest.sliceBytes
    have hcut := (hrest.append kept).sliceBytes
    rw [hstart] at hkept hcut
    rw [hstop] at hcut
    rw [slicedStretches, hkept, hcut, ih hafter, hstretches]
    rfl

end Slices

theorem superseded_mergeSort :
    Superseded (edits.mergeSort Edit.le) start stop ↔ Superseded edits start stop := by
  simp [Superseded]

/-- Edits are refused because of one that does not lie in the text, or of two that cross. -/
theorem exists_refused (h : resolveEdits source edits = .error error) :
    ∃ e ∈ edits, (¬e.fits source ∧ error = .outside e.start e.stop (byteLength source)) ∨
      ∃ a ∈ edits, a.Crosses e ∧ ¬Superseded edits a.start a.stop ∧ ¬Superseded edits e.start e.stop ∧
        error = .overlap e.start e.stop a.start a.stop := by
  obtain ⟨front, e, back, kept, hsplit, hkept, hrefused⟩ := exists_of_resolveEdits_error h
  have hmem {x : Edit} (hx : x ∈ front ++ e :: back) : x ∈ edits :=
    List.mem_mergeSort.mp (hsplit ▸ hx)
  refine ⟨e, hmem (by simp), ?_⟩
  cases hrefused with
  | outside hfits => exact .inl ⟨hfits, rfl⟩
  | @overlap a ha hlt hstop =>
    have hsorted := List.pairwise_mergeSort Edit.le_trans Edit.le_total edits
    rw [hsplit] at hsorted
    obtain ⟨hcrosses, hfree, hfree'⟩ := crosses_of_overlap hsorted hkept ha hlt hstop
    rw [← hsplit, superseded_mergeSort] at hfree hfree'
    have hafront := (mem_of_lastEdit? ((mem_resolveEdits_iff hkept).mp ha).1).1
    exact .inr ⟨a, hmem (List.mem_append_left _ hafront), hcrosses, hfree, hfree', rfl⟩

/-- Edits are refused exactly if one of them does not lie between characters of the text, or if two of them
cross and none goes around either. An error tells of two such edits, never of one inside a larger one. What
is kept of the text can be sliced out of it, and at its line breaks. -/
theorem EditList.refused_iff (e : EditList) (source : String) (request : Option MapRequest) :
    ((∃ error, e.apply source request = .error error) ↔
      (∃ a ∈ e.edits, a.stop < a.start ∨ ¬isBoundary source.toList a.start ∨
        ¬isBoundary source.toList a.stop) ∨
      ∃ a ∈ e.edits, ∃ b ∈ e.edits, ¬Superseded e.edits a.start a.stop ∧
        ¬Superseded e.edits b.start b.stop ∧ a.Crosses b) ∧
    (∀ start stop otherStart otherStop,
      e.apply source request = .error (.overlap start stop otherStart otherStop) →
        ¬Superseded e.edits start stop ∧ ¬Superseded e.edits otherStart otherStop) ∧
    ∀ piece, e.apply source request = .ok piece → ∃ resolved parts,
      resolveEdits source.toList e.edits = .ok resolved ∧
      slicedStretches source.toList 0 resolved = some parts ∧
      (∀ kept, .kept kept ∈ parts → ∀ o ∈ lineStarts 0 kept, isBoundary kept o) ∧
      piece.code.toList = e.intro.toList ++ (parts.flatMap Stretch.output ++ e.outro.toList) := by
  have hmalformed {a : Edit} : ¬a.fits source.toList ↔ a.stop < a.start ∨
      ¬isBoundary source.toList a.start ∨ ¬isBoundary source.toList a.stop := by
    rw [Edit.fits_iff, not_and_or, not_and_or, Nat.not_le]
  simp only [apply_eq_error_iff, ← hmalformed]
  refine ⟨⟨?_, ?_⟩, fun start stop otherStart otherStop h => ?_, fun piece h => ?_⟩
  · rintro ⟨error, h⟩
    obtain ⟨b, hb, ⟨hfits, -⟩ | ⟨a, ha, hcrosses, hfree, hfree', -⟩⟩ := exists_refused h
    · exact .inl ⟨b, hb, hfits⟩
    · exact .inr ⟨a, ha, b, hb, hfree, hfree', hcrosses⟩
  · intro h
    cases hresolved : resolveEdits source.toList e.edits with
    | error error => exact ⟨error, rfl⟩
    | ok resolved =>
      rcases h with ⟨a, ha, hfits⟩ | ⟨a, ha, b, hb, hfree, hfree', hcrosses⟩
      · exact absurd (fits_of_resolveEdits hresolved ha) hfits
      · exact absurd hcrosses (not_crosses_of_resolveEdits hresolved ha hb hfree hfree')
  · obtain ⟨b, -, ⟨-, heq⟩ | ⟨a, -, -, hfree, hfree', heq⟩⟩ := exists_refused h
    · cases heq
    · cases heq
      exact ⟨hfree', hfree⟩
  · obtain ⟨resolved, hresolved, hcode, -⟩ := e.exists_of_apply h
    have hsliced := (inTurn_of_resolveEdits hresolved).slicedStretches_eq ⟨[], rfl, rfl⟩
    exact ⟨resolved, _, hresolved, hsliced, fun _ _ _ => isBoundary_of_mem_lineStarts, hcode⟩

/-- Two spans that cross inside of a third one, and one that starts where that ends. -/
def coveredCrossing : EditList :=
  { edits := [⟨3, 6, "a"⟩, ⟨4, 7, "b"⟩, ⟨2, 8, "c"⟩, ⟨8, 9, "d"⟩] }

/-- They are carried out, but not without the span around two of them. -/
theorem refused_iff_coveredCrossing :
    (∃ piece, coveredCrossing.apply "é12345678" none = .ok piece) ∧
      ∃ error, EditList.apply { edits := coveredCrossing.edits.eraseIdx 2 } "é12345678" none =
        .error error := by
  constructor
  · cases happly : coveredCrossing.apply "é12345678" none with
    | ok piece => exact ⟨piece, rfl⟩
    | error error =>
      exact absurd ((coveredCrossing.refused_iff "é12345678" none).1.mp ⟨error, happly⟩) (by decide)
  · exact (EditList.refused_iff _ "é12345678" none).1.mpr (by decide)

end FlatBundle
