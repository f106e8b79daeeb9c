import FlatBundle.Distinct
import Mathlib.Data.List.Basic
import Mathlib.Data.List.Induction

/-!
The distinct elements of a list.
-/

namespace FlatBundle

variable {α : Type} [BEq α] [LawfulBEq α] {xs ys : List α} {x : α}

theorem mem_foldl_firstOccurrences {seen xs : List α} {a : α} :
    a ∈ xs.foldl (fun seen x => if seen.contains x then seen else seen ++ [x]) seen ↔
      a ∈ seen ∨ a ∈ xs := by
  induction xs generalizing seen with
  | nil => simp
  | cons x xs ih =>
    rw [List.foldl_cons, ih]
    by_cases hx : x ∈ seen
    · rw [if_pos (List.contains_iff_mem.mpr hx)]
      constructor
      · rintro (h | h) <;> simp [h]
      · rintro (h | h)
        · exact .inl h
        · rcases List.mem_cons.mp h with rfl | h
          · exact .inl hx
          · exact .inr h
    · rw [if_neg (by simpa using hx)]
      simp [or_assoc]

@[simp]
theorem mem_firstOccurrences {xs : List α} {a : α} : a ∈ firstOccurrences xs ↔ a ∈ xs := by
  rw [firstOccurrences, mem_foldl_firstOccurrences]
  simp

theorem firstOccurrences_concat : firstOccurrences (xs ++ [x]) =
    if xs.contains x then firstOccurrences xs else firstOccurrences xs ++ [x] := by
  have hseen : (firstOccurrences xs).contains x = xs.contains x := by
    rw [Bool.eq_iff_iff, List.contains_iff_mem, List.contains_iff_mem, mem_firstOccurrences]
  rw [firstOccurrences, List.foldl_append, ← hseen]
  rfl

/-- What occurs already adds nothing. -/
theorem firstOccurrences_append (h : ys ⊆ xs) : firstOccurrences (xs ++ ys) = firstOccurrences xs := by
  induction ys using List.reverseRecOn with
  | nil => rw [List.append_nil]
  | append_singleton ys y ih =>
    have hy : y ∈ xs ++ ys := List.mem_append_left _ (h (by simp))
    rw [← List.append_assoc, firstOccurrences_concat, if_pos (List.contains_iff_mem.mpr hy)]
    exact ih fun a ha => h (List.mem_append_left _ ha)

/-- The elements come in the order in which they occur first. -/
theorem pairwise_firstOccurrences (xs : List α) :
    (firstOccurrences xs).Pairwise fun a b => xs.idxOf a < xs.idxOf b := by
  induction xs using List.reverseRecOn with
  | nil => exact .nil
  | append_singleton xs x ih =>
    have hbefore : (firstOccurrences xs).Pairwise fun a b => (xs ++ [x]).idxOf a < (xs ++ [x]).idxOf b := by
      refine ih.imp_of_mem fun ha hb hab => ?_
      rwa [List.idxOf_append_of_mem (mem_firstOccurrences.mp ha),
        List.idxOf_append_of_mem (mem_firstOccurrences.mp hb)]
    rw [firstOccurrences_concat]
    split
    · exact hbefore
    next hx =>
      refine List.pairwise_append.mpr ⟨hbefore, List.pairwise_singleton _ _, fun a ha b hb => ?_⟩
      obtain rfl := List.mem_singleton.mp hb
      have ha := mem_firstOccurrences.mp ha
      have hb : b ∉ xs := by simpa using hx
      rw [List.idxOf_append_of_mem ha, List.idxOf_append_of_notMem hb]
      exact Nat.lt_add_right _ (List.idxOf_lt_length_iff.mpr ha)

/-- Where keys are distinct, looking one up finds what is listed. -/
theorem lookup_eq_some_iff_mem {β : Type} {entries : List (α × β)} {value : β} (h : (entries.map Prod.fst).Nodup) :
    entries.lookup x = some value ↔ (x, value) ∈ entries := by
  rw [List.lookup_eq_some_iff]
  constructor
  · rintro ⟨front, back, rfl, -⟩
    simp
  · intro hmem
    obtain ⟨front, back, rfl⟩ := List.append_of_mem hmem
    refine ⟨front, back, rfl, fun e he => ?_⟩
    rw [List.map_append, List.map_cons, List.nodup_append] at h
    have hne := h.2.2 e.1 (List.mem_map_of_mem he) x List.mem_cons_self
    simpa using Ne.symm hne

end FlatBundle
