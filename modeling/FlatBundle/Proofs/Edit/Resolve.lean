import FlatBundle.Proofs.Edit.Apply

/-!
Which edits take effect: of the edits of one span the last one, unless a longer edit goes around it.
-/

namespace FlatBundle

variable {source : List Char} {edits more resolved : List Edit} {a e last : Edit} {start stop : Nat}

/-- The last one of the edits between two offsets. -/
def lastEdit? (edits : List Edit) (start stop : Nat) : Option Edit :=
  (edits.filter fun e => e.start == start && e.stop == stop).getLast?

section LastEdit

theorem lastEdit?_append : lastEdit? (edits ++ more) start stop =
    (lastEdit? more start stop).or (lastEdit? edits start stop) := by
  rw [lastEdit?, List.filter_append, List.getLast?_append]
  rfl

theorem lastEdit?_cons : lastEdit? (e :: edits) start stop =
    (lastEdit? edits start stop).or (if e.start = start ∧ e.stop = stop then some e else none) := by
  rw [← List.singleton_append, lastEdit?_append]
  congr 1
  by_cases hspan : e.start = start ∧ e.stop = stop <;> simp [lastEdit?, hspan]

theorem lastEdit?_eq_none_iff :
    lastEdit? edits start stop = none ↔ ∀ e ∈ edits, ¬(e.start = start ∧ e.stop = stop) := by
  simp [lastEdit?]

theorem mem_of_lastEdit? (h : lastEdit? edits start stop = some e) :
    e ∈ edits ∧ e.start = start ∧ e.stop = stop := by
  have hmem := List.mem_of_getLast? h
  simpa using hmem

theorem lastEdit?_isSome (he : e ∈ edits) : (lastEdit? edits e.start e.stop).isSome := by
  rw [Option.isSome_iff_ne_none]
  exact fun hnone => lastEdit?_eq_none_iff.mp hnone e he ⟨rfl, rfl⟩

theorem lastEdit?_eq_some (he : e ∈ edits)
    (h : ∀ e' ∈ edits, e'.start = e.start → e'.stop = e.stop → e' = e) :
    lastEdit? edits e.start e.stop = some e := by
  obtain ⟨e', he'⟩ := Option.isSome_iff_exists.mp (lastEdit?_isSome he)
  obtain ⟨hmem, hstart, hstop⟩ := mem_of_lastEdit? he'
  rw [he', h e' hmem hstart hstop]

/-- Sorting does not change which edit of a span comes last. -/
theorem lastEdit?_mergeSort : lastEdit? (edits.mergeSort Edit.le) start stop = lastEdit? edits start stop := by
  let spans : Edit → Bool := fun e => e.start == start && e.stop == stop
  have hpairwise : (edits.filter spans).Pairwise fun a b => Edit.le a b := by
    refine List.pairwise_of_forall_mem_list fun a ha b hb => ?_
    have ha := (List.mem_filter.mp ha).2
    have hb := (List.mem_filter.mp hb).2
    simp only [spans, Bool.and_eq_true, beq_iff_eq] at ha hb
    rw [Edit.le_iff]
    omega
  have hsub : (edits.filter spans).Sublist ((edits.mergeSort Edit.le).filter spans) := by
    have hsorted := List.sublist_mergeSort Edit.le_trans Edit.le_total hpairwise List.filter_sublist
    simpa using hsorted.filter spans
  have hlength : ((edits.mergeSort Edit.le).filter spans).length = (edits.filter spans).length :=
    ((List.mergeSort_perm edits Edit.le).filter spans).length_eq
  have heq := hsub.eq_of_length_le (Nat.le_of_eq hlength)
  change ((edits.mergeSort Edit.le).filter spans).getLast? = (edits.filter spans).getLast?
  rw [heq]

end LastEdit

/-- An edit takes the place of another one: it is of the same span, or goes around it and does not end
where the other one starts. -/
def Edit.Covers (s a : Edit) : Prop :=
  s.start ≤ a.start ∧ a.stop ≤ s.stop ∧ (a.start < s.stop ∨ s.start = a.start ∧ s.stop = a.stop)

theorem Edit.Covers.refl : a.Covers a :=
  ⟨Nat.le_refl _, Nat.le_refl _, .inr ⟨rfl, rfl⟩⟩

theorem Edit.Covers.trans {b c : Edit} (hab : a.Covers b) (hbc : b.Covers c) : a.Covers c := by
  unfold Edit.Covers at *
  omega

/-- Of sorted edits, those that take effect are the last ones of their spans, and each edit is covered by
one of them. -/
theorem Reduces.spec (h : Reduces source last edits resolved)
    (hsorted : (last :: edits).Pairwise fun a b => a.le b) :
    (∀ s ∈ resolved, lastEdit? (last :: edits) s.start s.stop = some s) ∧
      ∀ a ∈ last :: edits, ∃ s ∈ resolved, s.Covers a := by
  induction h with
  | done => simp [lastEdit?, Edit.Covers.refl]
  | @again last e edits resolved _ hspan _ ih =>
    obtain ⟨hlast, hcover⟩ := ih (List.pairwise_cons.mp hsorted).2
    refine ⟨fun s hs => ?_, fun a ha => ?_⟩
    · rw [lastEdit?_cons, hlast s hs, Option.some_or]
    · rcases List.mem_cons.mp ha with rfl | ha
      · obtain ⟨s, hs, hcovers⟩ := hcover e List.mem_cons_self
        exact ⟨s, hs, hcovers.trans ⟨by omega, by omega, .inr (by omega)⟩⟩
      · exact hcover a ha
  | @inside last e edits resolved _ hdiffer hlt hstop _ ih =>
    have hle := Edit.le_iff.mp ((List.pairwise_cons.mp hsorted).1 e List.mem_cons_self)
    have hsub : (last :: edits).Sublist (last :: e :: edits) := by simp
    obtain ⟨hlast, hcover⟩ := ih (hsorted.sublist hsub)
    refine ⟨fun s hs => ?_, fun a ha => ?_⟩
    · have hs := hlast s hs
      rw [lastEdit?_cons] at hs
      rw [lastEdit?_cons, lastEdit?_cons]
      cases hafter : lastEdit? edits s.start s.stop with
      | some s' =>
        rw [hafter, Option.some_or] at hs
        simp [hs]
      | none =>
        rw [hafter, Option.none_or] at hs
        split at hs
        next hspan => rw [if_neg (by omega), if_pos hspan, hs]; rfl
        next => cases hs
    · obtain ⟨s, hs, hcovers⟩ := hcover last List.mem_cons_self
      rcases List.mem_cons.mp ha with rfl | ha
      · exact ⟨s, hs, hcovers⟩
      · rcases List.mem_cons.mp ha with rfl | ha
        · exact ⟨s, hs, hcovers.trans ⟨by omega, hstop, .inl hlt⟩⟩
        · exact hcover a (List.mem_cons_of_mem _ ha)
  | @onward last e edits resolved hfits hdiffer hafter _ ih =>
    obtain ⟨hbelow, hrest⟩ := List.pairwise_cons.mp hsorted
    obtain ⟨hlast, hcover⟩ := ih hrest
    have hle := Edit.le_iff.mp (hbelow e List.mem_cons_self)
    have hstop := (Edit.fits_iff.mp hfits).1
    refine ⟨fun s hs => ?_, fun a ha => ?_⟩
    · rcases List.mem_cons.mp hs with rfl | hs
      · -- all others start after it
        have hnone : lastEdit? (e :: edits) s.start s.stop = none := by
          refine lastEdit?_eq_none_iff.mpr fun b hb hspan => ?_
          rcases List.mem_cons.mp hb with rfl | hb
          · exact hdiffer ⟨hspan.1.symm, hspan.2.symm⟩
          · have hlater := Edit.le_iff.mp ((List.pairwise_cons.mp hrest).1 b hb)
            omega
        rw [lastEdit?_cons, hnone]
        simp
      · rw [lastEdit?_cons, hlast s hs, Option.some_or]
    · rcases List.mem_cons.mp ha with rfl | ha
      · exact ⟨a, List.mem_cons_self, .refl⟩
      · obtain ⟨s, hs, hcovers⟩ := hcover a ha
        exact ⟨s, List.mem_cons_of_mem _ hs, hcovers⟩

theorem resolveEdits_covers (h : resolveEdits source edits = .ok resolved) :
    (∀ s ∈ resolved, lastEdit? edits s.start s.stop = some s) ∧
      ∀ a ∈ edits, ∃ s ∈ resolved, s.Covers a := by
  have hmem {a : Edit} : a ∈ edits ↔ a ∈ edits.mergeSort Edit.le := List.mem_mergeSort.symm
  simp only [hmem, ← @lastEdit?_mergeSort edits]
  rcases resolveEdits_cases h with ⟨heq, rfl⟩ | ⟨first, rest, heq, hsorted, -, hreduces⟩
  · simp [heq]
  · rw [heq]
    exact hreduces.spec hsorted

theorem resolveEdits_spec (h : resolveEdits source edits = .ok resolved) :
    (∀ s ∈ resolved, lastEdit? edits s.start s.stop = some s) ∧
      ∀ a ∈ edits, ∃ s ∈ resolved, s.start ≤ a.start ∧ a.stop ≤ s.stop := by
  obtain ⟨hlast, hcover⟩ := resolveEdits_covers h
  refine ⟨hlast, fun a ha => ?_⟩
  obtain ⟨s, hs, hstart, hstop, -⟩ := hcover a ha
  exact ⟨s, hs, hstart, hstop⟩

/-- An edit takes effect if all others are clear of it or in it. -/
theorem mem_of_resolveEdits (h : resolveEdits source edits = .ok resolved) (ha : a ∈ edits)
    (hlt : a.start < a.stop)
    (hothers : ∀ e ∈ edits, e = a ∨ e.stop ≤ a.start ∨ a.stop ≤ e.start ∨
      a.start < e.start ∨ e.stop < a.stop) : a ∈ resolved := by
  obtain ⟨hlast, hcover⟩ := resolveEdits_spec h
  obtain ⟨s, hs, hstart, hstop⟩ := hcover a ha
  rcases hothers s (mem_of_lastEdit? (hlast s hs)).1 with rfl | hother
  · exact hs
  · omega

/-- Edits one after the other are all different if they are not empty. -/
theorem InTurn.count_le {offset : Nat} (h : InTurn source offset edits) (hlt : a.start < a.stop) :
    edits.count a ≤ 1 := by
  induction h with
  | nil => simp
  | @cons offset e edits _ _ hrest ih =>
    by_cases he : e = a
    · subst he
      have hnone : e ∉ edits := fun hmem => by
        have hstart := (hrest.le_start hmem).1
        omega
      simp [List.count_eq_zero_of_not_mem hnone]
    · rw [List.count_cons_of_ne (by simpa using he)]
      exact ih

end FlatBundle
