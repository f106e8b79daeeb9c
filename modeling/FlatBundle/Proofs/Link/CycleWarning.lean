import FlatBundle.Link.Cycles
import Mathlib.Data.List.Basic

/-!
What a cycle is reported as: ids with arrows between them, from which the path can be told again if the
ids allow it.
-/

namespace FlatBundle

/-- The first `>` tells what stands before it from what stands after it. -/
theorem append_arrowhead_inj {a b x y : List Char} (ha : '>' ∉ a) (hb : '>' ∉ b)
    (h : a ++ '>' :: x = b ++ '>' :: y) : a = b ∧ x = y := by
  have hfront {s : List Char} (hs : '>' ∉ s) (rest : List Char) :
      (s ++ '>' :: rest).takeWhile (· ≠ '>') = s := by
    have hpass : ∀ c ∈ s, decide (c ≠ '>') = true := fun c hc => by
      simpa using fun hcs : c = '>' => hs (hcs ▸ hc)
    rw [List.takeWhile_append_of_pos hpass]
    simp
  obtain rfl : a = b := by rw [← hfront ha x, h, hfront hb y]
  exact ⟨rfl, (List.cons.inj (List.append_cancel_left h)).2⟩

theorem arrow_toList : " -> ".toList = [' ', '-', '>', ' '] :=
  rfl

theorem arrowhead_mem_intercalate {a b : String} {texts : List String} :
    '>' ∈ (" -> ".intercalate (a :: b :: texts)).toList := by
  simp [String.intercalate_cons_cons, arrow_toList]

/-- Texts without a `>` can be told from what they are put together to. -/
theorem intercalate_arrow_inj {texts texts' : List String} (hne : texts ≠ []) (hne' : texts' ≠ [])
    (hfree : ∀ s ∈ texts, '>' ∉ s.toList) (hfree' : ∀ s ∈ texts', '>' ∉ s.toList)
    (h : " -> ".intercalate texts = " -> ".intercalate texts') : texts = texts' := by
  induction texts generalizing texts' with
  | nil => exact absurd rfl hne
  | cons a rest ih =>
    obtain ⟨b, rest', rfl⟩ := List.exists_cons_of_ne_nil hne'
    obtain ⟨ha, hfree⟩ := List.forall_mem_cons.mp hfree
    obtain ⟨hb, hfree'⟩ := List.forall_mem_cons.mp hfree'
    match rest, rest' with
    | [], [] => simpa using h
    | [], _ :: _ =>
      rw [String.intercalate_singleton] at h
      exact absurd (h ▸ arrowhead_mem_intercalate) ha
    | _ :: _, [] =>
      rw [String.intercalate_singleton] at h
      exact absurd (h ▸ arrowhead_mem_intercalate) hb
    | a' :: rest, b' :: rest' =>
      have hchars : (a.toList ++ [' ', '-']) ++ '>' :: ' ' :: (" -> ".intercalate (a' :: rest)).toList =
          (b.toList ++ [' ', '-']) ++ '>' :: ' ' :: (" -> ".intercalate (b' :: rest')).toList := by
        simpa [arrow_toList] using congrArg String.toList h
      obtain ⟨hab, hrest⟩ := append_arrowhead_inj (by simpa using ha) (by simpa using hb) hchars
      obtain rfl : a = b := String.toList_inj.mp (List.append_cancel_right hab)
      have hlater := ih (List.cons_ne_nil a' rest) (List.cons_ne_nil b' rest') hfree hfree'
        (String.toList_inj.mp (List.cons.inj hrest).2)
      rw [hlater]

namespace Table

variable {t : Table} {path path' : List Nat}

/-- No two ids look alike, and each one can be told from the arrows around it. -/
structure ReadableIds (t : Table) : Prop where
  distinct : ∀ i < t.size, ∀ j < t.size, (t.get i).id.text = (t.get j).id.text → i = j
  arrowless : ∀ i < t.size, '>' ∉ (t.get i).id.text.toList

theorem ReadableIds.eq_of_map_text_eq (h : t.ReadableIds) (hin : ∀ i ∈ path, i < t.size)
    (hin' : ∀ i ∈ path', i < t.size)
    (htexts : path.map (fun i => (t.get i).id.text) = path'.map fun i => (t.get i).id.text) :
    path = path' := by
  induction path generalizing path' with
  | nil => simpa using htexts.symm
  | cons i rest ih =>
    obtain ⟨j, rest', rfl⟩ : ∃ j rest', path' = j :: rest' :=
      List.exists_cons_of_ne_nil fun hnil => by simp [hnil] at htexts
    obtain ⟨hi, hin⟩ := List.forall_mem_cons.mp hin
    obtain ⟨hj, hin'⟩ := List.forall_mem_cons.mp hin'
    obtain ⟨hfirst, hlater⟩ := List.cons.inj htexts
    have hij : i = j := h.distinct i hi j hj hfirst
    rw [hij, ih hin hin' hlater]

theorem cycleWarning_inj_iff : t.cycleWarning path = t.cycleWarning path' ↔
    " -> ".intercalate (path.map fun i => (t.get i).id.text) =
      " -> ".intercalate (path'.map fun i => (t.get i).id.text) :=
  (String.append_left_inj ".").trans (String.append_right_inj "Circular dependency: ")

theorem ReadableIds.cycleWarning_inj (h : t.ReadableIds) (hne : path ≠ []) (hne' : path' ≠ [])
    (hin : ∀ i ∈ path, i < t.size) (hin' : ∀ i ∈ path', i < t.size)
    (hwarning : t.cycleWarning path = t.cycleWarning path') : path = path' := by
  have hfree {path : List Nat} (hin : ∀ i ∈ path, i < t.size) :
      ∀ s ∈ path.map fun i => (t.get i).id.text, '>' ∉ s.toList :=
    List.forall_mem_map.mpr fun i hi => h.arrowless i (hin i hi)
  have hmap {path : List Nat} (hne : path ≠ []) : path.map (fun i => (t.get i).id.text) ≠ [] := by
    simpa using hne
  exact h.eq_of_map_text_eq hin hin'
    (intercalate_arrow_inj (hmap hne) (hmap hne') (hfree hin) (hfree hin')
      (cycleWarning_inj_iff.mp hwarning))

end Table

end FlatBundle
