import FlatBundle.Bundle.Placement
import FlatBundle.Proofs.Edit.Laminar
import FlatBundle.Proofs.Script.Layout
import Mathlib.Data.List.GetD

/-!
What is cut out of a declaration when its declarators go one by one. The ends of the declarators are
numbered through: `2 * i` is the start of the declarator `i`, and `2 * i + 1` its stop.
-/

namespace FlatBundle

open Script (Span Node LaidOut SiteIn sitesOf)

/-- The end of a declarator with a number. -/
def edge : List Span → Nat → Nat
  | [], _ => 0
  | d :: _, 0 => d.start
  | d :: _, 1 => d.stop
  | _ :: ds, p + 2 => edge ds p

variable {ds gone gone' : List Span} {d : Span} {e e' : Edit} {p q : Nat} {ok : Nat → Prop}
  {source : List Char} {lo hi : Nat} {m : Node} {ns : List Node}

theorem edge_ends {i : Nat} (hi : i < ds.length) :
    edge ds (2 * i) = (ds.getD i default).start ∧
      edge ds (2 * i + 1) = (ds.getD i default).stop := by
  induction ds generalizing i with
  | nil => cases hi
  | cons d ds ih =>
    cases i with
    | zero => exact ⟨rfl, rfl⟩
    | succ i => exact ih (Nat.lt_of_succ_lt_succ hi)

theorem edge_bounds (h : LaidOut source ok lo hi ns) (hp : p < 2 * ns.length) :
    lo ≤ edge (ns.map Node.span) p ∧ edge (ns.map Node.span) p ≤ hi ∧
      ok (edge (ns.map Node.span) p) := by
  induction h generalizing p with
  | nil => cases hp
  | cons lo_le le_stop stop_le ok_start ok_stop _ _ _ _ ih =>
    rw [List.length_cons] at hp
    match p with
    | 0 => exact ⟨lo_le, Nat.le_trans le_stop stop_le, ok_start⟩
    | 1 => exact ⟨Nat.le_trans lo_le le_stop, stop_le, ok_stop⟩
    | p + 2 =>
      obtain ⟨hlo, hhi, hok⟩ := @ih p (by omega)
      exact ⟨Nat.le_trans lo_le (Nat.le_trans le_stop hlo), hhi, hok⟩

theorem edge_mono (h : LaidOut source ok lo hi ns) (hpq : p ≤ q) (hq : q < 2 * ns.length) :
    edge (ns.map Node.span) p ≤ edge (ns.map Node.span) q := by
  induction h generalizing p q with
  | nil => cases hq
  | cons _ le_stop _ _ _ _ _ after _ ih =>
    rw [List.length_cons] at hq
    match p, q with
    | 0, 0 | 1, 1 => exact Nat.le_refl _
    | 0, 1 => exact le_stop
    | 1, q + 2 => exact (edge_bounds after (by omega)).1
    | 0, q + 2 => exact Nat.le_trans le_stop (edge_bounds after (by omega)).1
    | p + 2, q + 2 => exact @ih p q (by omega) (by omega)

/-- What is inside of a declaration is inside of one declarator. -/
theorem exists_edges_of_siteIn (h : LaidOut source ok lo hi ns) (hm : SiteIn m ns) :
    ∃ k < ns.length, edge (ns.map Node.span) (2 * k) ≤ m.span.start ∧
      m.span.stop ≤ edge (ns.map Node.span) (2 * k + 1) := by
  induction h with
  | nil => cases hm
  | cons lo_le le_stop stop_le ok_start ok_stop inside _ after _ ih =>
    cases hm with
    | here => exact ⟨0, by simp, Nat.le_refl _, Nat.le_refl _⟩
    | inside hm =>
      obtain ⟨-, hstart, hstop⟩ := inside.of_siteIn hm
      exact ⟨0, by simp, hstart, hstop⟩
    | after hm =>
      obtain ⟨k, hk, hstart, hstop⟩ := ih hm
      exact ⟨k + 1, by simpa using hk, hstart, hstop⟩

/-- An edit from one end of a declarator to another one. -/
structure Cut (ds : List Span) (e : Edit) (p q : Nat) : Prop where
  le : p ≤ q
  lt : q < 2 * ds.length
  start : e.start = edge ds p
  stop : e.stop = edge ds q

/-- A cut between declarators that are still there. -/
def CutOpen (gone ds : List Span) (e : Edit) : Prop :=
  ∃ p q, Cut ds e p q ∧ ds.getD (p / 2) default ∉ gone ∧ ds.getD (q / 2) default ∉ gone

/-- A cut that has taken along all declarators that start in it. -/
def CutClosed (gone ds : List Span) (e : Edit) : Prop :=
  ∃ p q, Cut ds e p q ∧ ∀ k, p ≤ 2 * k → 2 * k < q → ds.getD k default ∈ gone

theorem CutOpen.exists_cut (h : CutOpen gone ds e) : ∃ p q, Cut ds e p q := by
  obtain ⟨p, q, h, -⟩ := h
  exact ⟨p, q, h⟩

theorem CutClosed.exists_cut (h : CutClosed gone ds e) : ∃ p q, Cut ds e p q := by
  obtain ⟨p, q, h, -⟩ := h
  exact ⟨p, q, h⟩

theorem CutOpen.mono (h : CutOpen gone' ds e) (hsub : gone ⊆ gone') : CutOpen gone ds e := by
  obtain ⟨p, q, hcut, hp, hq⟩ := h
  exact ⟨p, q, hcut, fun hp' => hp (hsub hp'), fun hq' => hq (hsub hq')⟩

theorem Cut.bounds (h : Cut (ns.map Node.span) e p q) (hlaid : LaidOut source ok lo hi ns) :
    lo ≤ e.start ∧ e.start ≤ e.stop ∧ e.stop ≤ hi ∧ ok e.start ∧ ok e.stop := by
  have hlt : q < 2 * ns.length := List.length_map Node.span ▸ h.lt
  obtain ⟨hlo, -, hokp⟩ := edge_bounds hlaid (Nat.lt_of_le_of_lt h.le hlt)
  obtain ⟨-, hhi, hokq⟩ := edge_bounds hlaid hlt
  rw [h.start, h.stop]
  exact ⟨hlo, edge_mono hlaid h.le hlt, hhi, hokp, hokq⟩

/-- Edits inside of one declarator do not get in the way of a cut. -/
theorem Cut.laminar_inside (h : Cut (ns.map Node.span) e p q) (hlaid : LaidOut source ok lo hi ns)
    (hm : SiteIn m ns) (hstart : m.span.start ≤ e'.start) (hstop : e'.stop ≤ m.span.stop) :
    e.Laminar e' := by
  obtain ⟨k, hk, hks, hke⟩ := exists_edges_of_siteIn hlaid hm
  have hlt : q < 2 * ns.length := List.length_map Node.span ▸ h.lt
  have hp := h.start
  have hq := h.stop
  have hle := h.le
  unfold Edit.Laminar
  by_cases hqk : q ≤ 2 * k
  · have := edge_mono hlaid hqk (by omega)
    omega
  · by_cases hpk : 2 * k + 1 ≤ p
    · have := edge_mono hlaid hpk (by omega)
      omega
    · have := edge_mono hlaid (show p ≤ 2 * k by omega) (by omega)
      have := edge_mono hlaid (show 2 * k + 1 ≤ q by omega) hlt
      omega

/-- Cuts that begin and end at declarators still there go around those that have been made. -/
theorem CutClosed.laminar (h : CutClosed gone (ns.map Node.span) e)
    (h' : CutOpen gone (ns.map Node.span) e') (hlaid : LaidOut source ok lo hi ns) : e.Laminar e' := by
  obtain ⟨p, q, hcut, hclosed⟩ := h
  obtain ⟨p', q', hcut', hp', hq'⟩ := h'
  have hout {r : Nat} (hr : (ns.map Node.span).getD (r / 2) default ∉ gone) : r ≤ p ∨ q ≤ r := by
    have hnot : ¬(p ≤ 2 * (r / 2) ∧ 2 * (r / 2) < q) := fun h => hr (hclosed _ h.1 h.2)
    omega
  have hmono {r t : Nat} (hrt : r ≤ t) (ht : t < 2 * (ns.map Node.span).length) :=
    edge_mono hlaid hrt (List.length_map Node.span ▸ ht)
  have hle' := hcut'.le
  unfold Edit.Laminar
  rw [hcut.start, hcut.stop, hcut'.start, hcut'.stop]
  rcases hout hq' with hq' | hq'
  · exact .inr (.inl (hmono hq' (Nat.lt_of_le_of_lt hcut.le hcut.lt)))
  · rcases hout hp' with hp' | hp'
    · exact .inr (.inr (.inr ⟨hmono hp' (Nat.lt_of_le_of_lt hcut.le hcut.lt), hmono hq' hcut'.lt⟩))
    · exact .inl (hmono hp' (Nat.lt_of_le_of_lt hle' hcut'.lt))

/-- Two declarators that are next to each other once others have gone. -/
theorem exists_neighbours {front back : List Span} {a b : Span}
    (h : ds.filter (!gone.contains ·) = front ++ a :: b :: back) :
    ∃ i j, i < j ∧ j < ds.length ∧ ds.getD i default = a ∧ ds.getD j default = b ∧ a ∉ gone ∧
      b ∉ gone ∧ ∀ k, i < k → k < j → ds.getD k default ∈ gone := by
  obtain ⟨before, after, rfl, -, hafter⟩ := List.filter_eq_append_iff.mp h
  obtain ⟨skipped, after, rfl, -, ha, hafter⟩ := List.filter_eq_cons_iff.mp hafter
  obtain ⟨between, after, rfl, hbetween, hb, -⟩ := List.filter_eq_cons_iff.mp hafter
  rw [← List.append_assoc]
  refine ⟨(before ++ skipped).length, (before ++ skipped).length + (between.length + 1), by omega,
    by simp; omega, ?_, ?_, by simpa using ha, by simpa using hb, fun k hik hkj => ?_⟩
  · rw [List.getD_append_right _ _ _ _ (Nat.le_refl _), Nat.sub_self, List.getD_cons_zero]
  · rw [List.getD_append_right _ _ _ _ (Nat.le_add_right _ _), Nat.add_sub_cancel_left,
      List.getD_cons_succ, List.getD_append_right _ _ _ _ (Nat.le_refl _), Nat.sub_self,
      List.getD_cons_zero]
  · obtain ⟨n, rfl⟩ : ∃ n, k = (before ++ skipped).length + (n + 1) :=
      ⟨k - (before ++ skipped).length - 1, by omega⟩
    have hn : n < between.length := by omega
    rw [List.getD_append_right _ _ _ _ (Nat.le_add_right _ _), Nat.add_sub_cancel_left,
      List.getD_cons_succ, List.getD_append _ _ _ _ hn, List.getD_eq_getElem _ _ hn]
    simpa using hbetween _ (List.getElem_mem hn)

theorem cut_to_next {front back : List Span} {next : Span}
    (h : ds.filter (!gone.contains ·) = front ++ d :: next :: back) :
    CutOpen gone ds ⟨d.start, next.start, ""⟩ ∧
      CutClosed (d :: gone) ds ⟨d.start, next.start, ""⟩ := by
  obtain ⟨i, j, hij, hj, hi, hnext, hd, hnextGone, hbetween⟩ := exists_neighbours h
  have hcut : Cut ds ⟨d.start, next.start, ""⟩ (2 * i) (2 * j) :=
    ⟨by omega, by omega, by rw [(edge_ends (by omega)).1, hi], by rw [(edge_ends hj).1, hnext]⟩
  refine ⟨⟨_, _, hcut, ?_, ?_⟩, _, _, hcut, fun k hik hkj => ?_⟩
  · rwa [Nat.mul_div_cancel_left _ (by decide), hi]
  · rwa [Nat.mul_div_cancel_left _ (by decide), hnext]
  · rcases Nat.eq_or_lt_of_le (Nat.le_of_mul_le_mul_left hik (by decide)) with rfl | hlt
    · exact hi ▸ List.mem_cons_self ..
    · exact List.mem_cons_of_mem _ (hbetween k hlt (by omega))

theorem cut_from_previous {front back : List Span} {previous : Span}
    (h : ds.filter (!gone.contains ·) = front ++ previous :: d :: back) :
    CutOpen gone ds ⟨previous.stop, d.stop, ""⟩ ∧
      CutClosed (d :: gone) ds ⟨previous.stop, d.stop, ""⟩ := by
  obtain ⟨i, j, hij, hj, hprevious, hd, hi, hdGone, hbetween⟩ := exists_neighbours h
  have hcut : Cut ds ⟨previous.stop, d.stop, ""⟩ (2 * i + 1) (2 * j + 1) :=
    ⟨by omega, by omega, by rw [(edge_ends (by omega)).2, hprevious], by rw [(edge_ends hj).2, hd]⟩
  have hhalf (n : Nat) : (2 * n + 1) / 2 = n := by omega
  refine ⟨⟨_, _, hcut, ?_, ?_⟩, _, _, hcut, fun k hik hkj => ?_⟩
  · rwa [hhalf, hprevious]
  · rwa [hhalf, hd]
  · rcases Nat.lt_or_eq_of_le (show k ≤ j by omega) with hlt | rfl
    · exact List.mem_cons_of_mem _ (hbetween k (by omega) hlt)
    · exact hd ▸ List.mem_cons_self ..

theorem eq_take_append_drop {i : Nat} (hi : i + 1 < ds.length) :
    ds = ds.take i ++ ds.getD i default :: ds.getD (i + 1) default :: ds.drop (i + 2) := by
  rw [List.getD_eq_getElem _ _ (Nat.lt_of_succ_lt hi), List.getD_eq_getElem _ _ hi,
    List.getElem_cons_drop, List.getElem_cons_drop, List.take_append_drop]

/-- Taking a declarator out takes out the whole declaration, or goes on from the declarator before it, or up
to the one behind it. -/
theorem declaratorEdit?_cases {source : String} {r : RequireDeclarator}
    (h : declaratorEdit? source gone r = some e) :
    (e.start = r.declaration.start ∧ e.stop = r.declaration.stop) ∨
    (∃ front previous back, r.declarators.filter (!gone.contains ·) = front ++ previous :: r.span :: back ∧
      e = ⟨previous.stop, r.span.stop, ""⟩) ∨
    ∃ front next back, r.declarators.filter (!gone.contains ·) = front ++ r.span :: next :: back ∧
      e = ⟨r.span.start, next.start, ""⟩ := by
  unfold declaratorEdit? at h
  dsimp only at h
  split at h
  · cases h
  · rename_i index hindex
    obtain ⟨hlt, hspan, -⟩ := List.findIdx?_eq_some_iff_getElem.mp hindex
    have hspan := eq_of_beq hspan
    rw [← List.getD_eq_getElem _ default hlt] at hspan
    split at h
    · cases h
      exact .inl ⟨rfl, rfl⟩
    · split at h
      · cases h
        obtain ⟨i, rfl⟩ : ∃ i, index = i + 1 := ⟨index - 1, by omega⟩
        have hparts := eq_take_append_drop hlt
        rw [hspan] at hparts
        exact .inr (.inl ⟨_, _, _, hparts, rfl⟩)
      · cases h
        have hparts := @eq_take_append_drop (r.declarators.filter (!gone.contains ·)) index
          (by omega)
        rw [hspan] at hparts
        exact .inr (.inr ⟨_, _, _, hparts, rfl⟩)

theorem cut_of_declaratorEdit? {source : String} {r : RequireDeclarator}
    (h : declaratorEdit? source gone r = some e) :
    (e.start = r.declaration.start ∧ e.stop = r.declaration.stop) ∨
      CutOpen gone r.declarators e ∧ CutClosed (r.span :: gone) r.declarators e := by
  rcases declaratorEdit?_cases h with hwhole | ⟨_, _, _, hparts, rfl⟩ | ⟨_, _, _, hparts, rfl⟩
  · exact .inl hwhole
  · exact .inr (cut_from_previous hparts)
  · exact .inr (cut_to_next hparts)

theorem pairwise_span (h : LaidOut source ok lo hi ns) :
    (ns.map Node.span).Pairwise fun d d' => d.stop ≤ d'.start := by
  induction h with
  | nil => exact .nil
  | cons _ _ _ _ _ _ _ after _ ih =>
    refine List.pairwise_cons.mpr ⟨fun d hd => ?_, ih⟩
    obtain ⟨n, hn, rfl⟩ := List.mem_map.mp hd
    exact (after.of_siteIn (.of_mem hn)).2.1

/-- The declarator is in what is taken out for it. -/
theorem covers_of_declaratorEdit? {source : String} {r : RequireDeclarator}
    (hordered : r.declarators.Pairwise fun d d' => d.stop ≤ d'.start)
    (h : declaratorEdit? source gone r = some e) :
    (e.start = r.declaration.start ∧ e.stop = r.declaration.stop) ∨
      e.start ≤ r.span.start ∧ r.span.stop ≤ e.stop := by
  have hremaining := hordered.filter (!gone.contains ·)
  rcases declaratorEdit?_cases h with hwhole | ⟨_, _, _, hparts, rfl⟩ | ⟨_, _, _, hparts, rfl⟩
  · exact .inl hwhole
  · rw [hparts] at hremaining
    have hnext := (List.pairwise_cons.mp (List.pairwise_append.mp hremaining).2.1).1
    exact .inr ⟨hnext _ List.mem_cons_self, Nat.le_refl _⟩
  · rw [hparts] at hremaining
    have hnext := (List.pairwise_cons.mp (List.pairwise_append.mp hremaining).2.1).1
    exact .inr ⟨Nat.le_refl _, hnext _ List.mem_cons_self⟩

end FlatBundle
