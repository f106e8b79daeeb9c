import FlatBundle.Proofs.Link.Order

/-!
The sort as a recursive depth-first search. The walk that carries out tasks lists the same modules in
the same order.
-/

namespace FlatBundle

variable {deps : Nat → List Nat} {seen seen' fresh ds listed : List Nat} {size : Nat}

/-- The recursive search through some modules in turn, from the modules seen before to what it lists
and what is seen in the end: modules seen before are skipped, and each other one is listed after the
search through its dependencies. -/
inductive DepthFirst (deps : Nat → List Nat) : List Nat → List Nat → List Nat → List Nat → Prop
  | nil {seen : List Nat} : DepthFirst deps seen [] [] seen
  | skip {seen seen' ds listed : List Nat} {d : Nat} (hd : d ∈ seen)
    (h : DepthFirst deps seen ds listed seen') : DepthFirst deps seen (d :: ds) listed seen'
  | visit {seen seen' seen'' ds inner listed : List Nat} {d : Nat} (hd : d ∉ seen)
    (hin : DepthFirst deps (d :: seen) (deps d) inner seen')
    (h : DepthFirst deps seen' ds listed seen'') :
    DepthFirst deps seen (d :: ds) (inner ++ d :: listed) seen''

theorem DepthFirst.unique {listed' seen'' : List Nat} (h : DepthFirst deps seen ds listed seen')
    (h' : DepthFirst deps seen ds listed' seen'') : listed' = listed ∧ seen'' = seen' := by
  induction h generalizing listed' seen'' with
  | nil =>
    cases h'
    exact ⟨rfl, rfl⟩
  | skip hd _ ih =>
    cases h' with
    | skip _ h' => exact ih h'
    | visit hnd _ _ => exact absurd hd hnd
  | visit hnd _ _ ihin ih =>
    cases h' with
    | skip hd _ => exact absurd hd hnd
    | visit _ hin' h' =>
      obtain ⟨rfl, rfl⟩ := ihin hin'
      obtain ⟨rfl, rfl⟩ := ih h'
      exact ⟨rfl, rfl⟩

/-- Below `size`, the modules seen are those that are not fresh. -/
def Unseen (size : Nat) (seen fresh : List Nat) : Prop :=
  ∀ k < size, k ∈ seen ↔ k ∉ fresh

theorem Unseen.enter (h : Unseen size seen fresh) (hn : fresh.Nodup) (d : Nat) :
    Unseen size (d :: seen) (fresh.erase d) := by
  intro k hk
  rw [List.mem_cons, not_mem_erase_iff hn, h k hk, or_comm]

/-- The walk lists what the recursive search lists, and leaves fresh what that has not seen. -/
theorem exists_depthFirst_walk (hw : Within size deps) (hn : fresh.Nodup) (hds : ∀ d ∈ ds, d < size)
    (hseen : Unseen size seen fresh) :
    ∃ seen', DepthFirst deps seen ds (walk deps fresh ds) seen' ∧
      Unseen size seen' (fresh.filter (· ∉ walk deps fresh ds)) := by
  revert hn hds seen
  refine walk_induction deps
    (motive := fun fresh ds => ∀ {seen}, fresh.Nodup → (∀ d ∈ ds, d < size) →
      Unseen size seen fresh → ∃ seen', DepthFirst deps seen ds (walk deps fresh ds) seen' ∧
        Unseen size seen' (fresh.filter (· ∉ walk deps fresh ds))) ?_ ?_ ?_ fresh ds
  · intro fresh seen _ _ hseen
    have hall : fresh.filter (· ∉ ([] : List Nat)) = fresh := List.filter_eq_self.mpr (by simp)
    rw [walk_nil, hall]
    exact ⟨seen, .nil, hseen⟩
  · intro fresh d ds hd ih seen hn hds hseen
    obtain ⟨hsize, hds⟩ := List.forall_mem_cons.mp hds
    obtain ⟨seen', h, hseen'⟩ := ih hn hds hseen
    rw [walk_cons_of_not_mem hd]
    exact ⟨seen', .skip ((hseen d hsize).mpr hd) h, hseen'⟩
  · intro fresh d ds hd ihd ihds seen hn hds hseen
    obtain ⟨hsize, hds⟩ := List.forall_mem_cons.mp hds
    have hnd : d ∉ seen := fun hmem => (hseen d hsize).mp hmem hd
    obtain ⟨seen', hin, hseen'⟩ := ihd (hn.erase d) (hw d) (hseen.enter hn d)
    obtain ⟨seen'', h, hseen''⟩ := ihds (nodup_unentered hn) hds hseen'
    rw [walk_cons_of_mem hn hd]
    refine ⟨seen'', .visit hnd hin h, fun k hk => ?_⟩
    rw [hseen'' k hk]
    simp only [List.mem_filter, mem_unentered, hn.mem_erase_iff, List.mem_append, List.mem_cons,
      decide_eq_true_eq]
    grind

namespace Table

variable {t : Table} {place : Nat → Nat → Option Nat}

/-- The sort lists what the recursive search through the modules lists that begins with none seen. -/
theorem exists_depthFirst_iff : (∃ seen, DepthFirst (t.visitDeps place) [] t.ranked listed seen) ↔
    listed = t.sorted place := by
  have hseen : Unseen t.size [] (List.range t.size) := fun k hk => by simp [hk]
  obtain ⟨seen, h, -⟩ := exists_depthFirst_walk within_visitDeps List.nodup_range
    (fun _ => mem_ranked.mp) hseen
  rw [← sorted_eq_walk] at h
  constructor
  · rintro ⟨_, h'⟩
    exact (h.unique h').1
  · rintro rfl
    exact ⟨seen, h⟩

end Table

end FlatBundle
