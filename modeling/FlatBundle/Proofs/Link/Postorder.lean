import FlatBundle.Link.Order
import FlatBundle.Proofs.Link.Dependency

/-!
The depth-first walk that sorts modules: which modules it lists, and which of two it lists first.
-/

namespace FlatBundle

variable {deps : Nat → List Nat} {fresh ds f : List Nat} {d i j : Nat}

/-- One element of a list before another one. -/
def Precedes (xs : List Nat) (i j : Nat) : Prop :=
  [i, j].Sublist xs

theorem Precedes.mem_left {xs : List Nat} (h : Precedes xs i j) : i ∈ xs :=
  h.subset List.mem_cons_self

theorem Precedes.mem_right {xs : List Nat} (h : Precedes xs i j) : j ∈ xs :=
  h.subset (by simp)

theorem precedes_append {xs ys : List Nat} (hi : i ∈ xs) (hj : j ∈ ys) : Precedes (xs ++ ys) i j :=
  (List.singleton_sublist.mpr hi).append (List.singleton_sublist.mpr hj)

theorem precedes_append_iff_left {xs ys : List Nat} (hj : j ∉ ys) :
    Precedes (xs ++ ys) i j ↔ Precedes xs i j := by
  constructor
  · intro h
    obtain ⟨_, before, hsplit, hx, hy⟩ := List.sublist_append_iff.mp h
    rcases List.eq_nil_or_concat before with rfl | ⟨before, k, rfl⟩
    · simpa [Precedes, hsplit] using hx
    · have hk : j = k := by
        have := congrArg List.getLast? hsplit
        simpa using this
      exact absurd (hy.subset (by simp [hk])) hj
  · exact fun h => h.trans (List.sublist_append_left xs ys)

theorem precedes_append_iff_right {xs ys : List Nat} (hi : i ∉ xs) :
    Precedes (xs ++ ys) i j ↔ Precedes ys i j := by
  constructor
  · intro h
    obtain ⟨front, _, hsplit, hx, hy⟩ := List.sublist_append_iff.mp h
    cases front with
    | nil => simpa [Precedes, hsplit] using hy
    | cons k front =>
      obtain ⟨rfl, -⟩ := List.cons.inj hsplit
      exact absurd (hx.subset List.mem_cons_self) hi
  · exact fun h => h.trans (List.sublist_append_right xs ys)

theorem Precedes.not_symm {xs : List Nat} (hn : xs.Nodup) (h : Precedes xs i j) :
    ¬Precedes xs j i := by
  intro h'
  induction xs with
  | nil => exact absurd h.mem_left List.not_mem_nil
  | cons k xs ih =>
    obtain ⟨hk, hn⟩ := List.nodup_cons.mp hn
    rcases List.sublist_cons_iff.mp h with hxs | ⟨_, hcons, hj⟩
    · rcases List.sublist_cons_iff.mp h' with h' | ⟨_, hcons', _⟩
      · exact ih hn hxs h'
      · obtain ⟨rfl, -⟩ := List.cons.inj hcons'
        exact hk (Precedes.mem_right hxs)
    · obtain ⟨rfl, rfl⟩ := List.cons.inj hcons
      rcases List.sublist_cons_iff.mp h' with h' | ⟨_, hcons', _⟩
      · exact hk (Precedes.mem_right h')
      · obtain ⟨rfl, -⟩ := List.cons.inj hcons'
        exact hk (List.singleton_sublist.mp hj)

theorem precedes_iff_mem {xs ys : List Nat} (hn : (xs ++ j :: ys).Nodup) :
    Precedes (xs ++ j :: ys) i j ↔ i ∈ xs := by
  have hj : j ∉ ys := (List.nodup_cons.mp (List.nodup_append.mp hn).2.1).1
  constructor
  · intro h
    refine Decidable.byContradiction fun hi => ?_
    rcases List.sublist_cons_iff.mp ((precedes_append_iff_right hi).mp h) with h | ⟨_, hcons, h⟩
    · exact hj (Precedes.mem_right h)
    · obtain ⟨rfl, rfl⟩ := List.cons.inj hcons
      exact hj (List.singleton_sublist.mp h)
  · exact fun hi => precedes_append hi List.mem_cons_self

theorem precedes_or_precedes {xs : List Nat} (hi : i ∈ xs) (hj : j ∈ xs) (hij : i ≠ j) :
    Precedes xs i j ∨ Precedes xs j i := by
  obtain ⟨front, back, rfl⟩ := List.append_of_mem hi
  rcases List.mem_append.mp hj with hj | hj
  · exact .inr (precedes_append hj List.mem_cons_self)
  · have hj : j ∈ back := (List.mem_cons.mp hj).resolve_left hij.symm
    exact .inl (((List.singleton_sublist.mpr hj).cons_cons i).trans (List.sublist_append_right _ _))

/-- What is found first among distinct elements is what nothing like it precedes. -/
theorem find?_eq_some_iff_precedes {xs : List Nat} {p : Nat → Bool} (hn : xs.Nodup) (hi : i ∈ xs) :
    xs.find? p = some i ↔ p i ∧ ∀ j, Precedes xs j i → p j = false := by
  rw [List.find?_eq_some_iff_append]
  refine and_congr_right fun _ => ⟨?_, fun h => ?_⟩
  · rintro ⟨front, back, rfl, hfront⟩ j hj
    simpa using hfront j ((precedes_iff_mem hn).mp hj)
  · obtain ⟨front, back, rfl⟩ := List.append_of_mem hi
    refine ⟨front, back, rfl, fun j hj => ?_⟩
    rw [h j ((precedes_iff_mem hn).mpr hj)]
    rfl

/-- All modules that the walk from some modules lists. -/
def walk (deps : Nat → List Nat) (fresh ds : List Nat) : List Nat :=
  postorder deps fresh (ds.map .enter)

/-- The modules that are fresh after the walk from a fresh one. -/
def unentered (deps : Nat → List Nat) (fresh : List Nat) (d : Nat) : List Nat :=
  (fresh.erase d).filter (· ∉ walk deps (fresh.erase d) (deps d))

theorem postorder_enter (h : d ∈ fresh) {tasks : List Visiting} :
    postorder deps fresh (.enter d :: tasks) =
      postorder deps (fresh.erase d) ((deps d).map .enter ++ .leave d :: tasks) := by
  rw [postorder, dif_pos h]

theorem mem_postorder_of_leave {tasks : List Visiting} (h : .leave i ∈ tasks) :
    i ∈ postorder deps fresh tasks := by
  induction fresh, tasks using postorder.induct deps with
  | case1 fresh => simp at h
  | case2 fresh j tasks ih =>
    rw [postorder]
    rcases List.mem_cons.mp h with h | h
    · cases h
      exact List.mem_cons_self
    · exact List.mem_cons_of_mem j (ih h)
  | case3 fresh j tasks hj ih =>
    rw [postorder_enter hj]
    have h := (List.mem_cons.mp h).resolve_left nofun
    exact ih (List.mem_append_right _ (List.mem_cons_of_mem _ h))
  | case4 fresh j tasks hj ih =>
    rw [postorder, dif_neg hj]
    exact ih (by simpa using h)

/-- Tasks are carried out one part after the other. -/
theorem postorder_append {tasks rest : List Visiting} (hn : fresh.Nodup)
    (hl : ∀ i, .leave i ∈ tasks → i ∉ fresh) :
    postorder deps fresh (tasks ++ rest) = postorder deps fresh tasks ++
      postorder deps (fresh.filter (· ∉ postorder deps fresh tasks)) rest := by
  induction fresh, tasks using postorder.induct deps with
  | case1 fresh =>
    have hf : fresh.filter (· ∉ postorder deps fresh []) = fresh :=
      List.filter_eq_self.mpr (by simp [postorder])
    rw [hf, postorder, List.nil_append, List.nil_append]
  | case2 fresh j tasks ih =>
    have hj : j ∉ fresh := hl j List.mem_cons_self
    have hl : ∀ i, .leave i ∈ tasks → i ∉ fresh := fun i hi => hl i (List.mem_cons_of_mem _ hi)
    rw [List.cons_append, postorder, postorder, ih hn hl, List.cons_append]
    congr 3
    refine List.filter_congr fun k hk => ?_
    have hkj : k ≠ j := fun h => hj (h ▸ hk)
    simp [hkj]
  | case3 fresh j tasks hj ih =>
    have hl' : ∀ i, .leave i ∈ (deps j).map .enter ++ .leave j :: tasks → i ∉ fresh.erase j := by
      intro i hi
      rcases List.mem_append.mp hi with hi | hi
      · simp at hi
      · rcases List.mem_cons.mp hi with hi | hi
        · cases hi
          exact fun h => absurd rfl (hn.mem_erase_iff.mp h).1
        · exact fun h => hl i (List.mem_cons_of_mem _ hi) (List.mem_of_mem_erase h)
    rw [List.cons_append, postorder_enter hj, postorder_enter hj, ← List.cons_append,
      ← List.append_assoc, ih (hn.erase j) hl']
    congr 2
    rw [hn.erase_eq_filter, List.filter_filter]
    refine List.filter_congr fun k _ => ?_
    by_cases hk : k = j
    · have hmem : j ∈ postorder deps (fresh.filter (· != j))
          ((deps j).map .enter ++ .leave j :: tasks) := mem_postorder_of_leave (by simp)
      simp [hk, hmem]
    · simp [hk]
  | case4 fresh j tasks hj ih =>
    have hl : ∀ i, .leave i ∈ tasks → i ∉ fresh := fun i hi => hl i (List.mem_cons_of_mem _ hi)
    rw [List.cons_append, postorder, dif_neg hj, postorder, dif_neg hj, ih hn hl]

@[simp]
theorem walk_nil : walk deps fresh [] = [] := by
  rw [walk, List.map_nil, postorder]

theorem walk_cons_of_not_mem (h : d ∉ fresh) : walk deps fresh (d :: ds) = walk deps fresh ds := by
  rw [walk, List.map_cons, postorder, dif_neg h, walk]

theorem walk_cons_of_mem (hn : fresh.Nodup) (h : d ∈ fresh) :
    walk deps fresh (d :: ds) =
      walk deps (fresh.erase d) (deps d) ++ d :: walk deps (unentered deps fresh d) ds := by
  rw [walk, List.map_cons, postorder_enter h, postorder_append (hn.erase d) (by simp), postorder]
  rfl

theorem mem_unentered :
    i ∈ unentered deps fresh d ↔ i ∈ fresh.erase d ∧ i ∉ walk deps (fresh.erase d) (deps d) := by
  simp [unentered]

theorem nodup_unentered (hn : fresh.Nodup) : (unentered deps fresh d).Nodup :=
  (hn.erase d).filter _

/-- The cases of a walk: modules that are not fresh are passed over, others are listed after the walk
from their dependencies. -/
theorem walk_induction (deps : Nat → List Nat) {motive : List Nat → List Nat → Prop}
    (nil : ∀ fresh, motive fresh [])
    (skip : ∀ fresh d ds, d ∉ fresh → motive fresh ds → motive fresh (d :: ds))
    (enter : ∀ fresh d ds, d ∈ fresh → motive (fresh.erase d) (deps d) →
      motive (unentered deps fresh d) ds → motive fresh (d :: ds))
    (fresh ds : List Nat) : motive fresh ds := by
  match ds with
  | [] => exact nil fresh
  | d :: ds =>
    by_cases h : d ∈ fresh
    · exact enter fresh d ds h (walk_induction deps nil skip enter (fresh.erase d) (deps d))
        (walk_induction deps nil skip enter (unentered deps fresh d) ds)
    · exact skip fresh d ds h (walk_induction deps nil skip enter fresh ds)
termination_by (fresh.length, ds.length)
decreasing_by
  · have := List.length_erase_of_mem h
    have := List.length_pos_of_mem h
    exact Prod.Lex.left _ _ (by omega)
  · have := List.length_erase_of_mem h
    have := List.length_pos_of_mem h
    have := List.length_filter_le (· ∉ walk deps (fresh.erase d) (deps d)) (fresh.erase d)
    exact Prod.Lex.left _ _ (by rw [unentered]; omega)
  · exact Prod.Lex.right _ (Nat.lt_succ_self _)

/-- Some of the modules, or ones that they lead to over fresh modules alone. -/
def Reach (deps : Nat → List Nat) (fresh ds : List Nat) (j : Nat) : Prop :=
  ∃ d ∈ ds, d ∈ fresh ∧ LeadsClear deps (· ∉ fresh) d j

theorem not_mem_erase_iff (hn : fresh.Nodup) : i ∉ fresh.erase d ↔ i ∉ fresh ∨ i = d := by
  rw [hn.mem_erase_iff]
  grind

theorem Reach.mono {fewer : List Nat} (hs : fewer ⊆ fresh) (h : Reach deps fewer ds j) :
    Reach deps fresh ds j := by
  obtain ⟨d, hd, hf, hl⟩ := h
  exact ⟨d, hd, hs hf, hl.mono fun k hk hm => hk (hs hm)⟩

/-- What a module leads to is the module and what its dependencies lead to without it. -/
theorem leadsClear_iff_reach (hn : fresh.Nodup) (hd : d ∈ fresh) :
    LeadsClear deps (· ∉ fresh) d j ↔ j = d ∨ Reach deps (fresh.erase d) (deps d) j := by
  constructor
  · intro h
    refine h.cases_first.imp_right fun ⟨e, he, hed, hl⟩ => ⟨e, he, ?_, hl.mono fun k hk => ?_⟩
    · exact Decidable.not_not.mp fun hm => hed ((not_mem_erase_iff hn).mp hm)
    · exact (not_mem_erase_iff hn).mp hk
  · rintro (rfl | ⟨e, he, hf, hl⟩)
    · exact .refl
    · have he' : e ∈ fresh := List.mem_of_mem_erase hf
      exact .head ⟨he, not_not_intro he'⟩ (hl.mono fun k hk hm => hk (List.mem_of_mem_erase hm))

/-- A way to a module that `d` does not lead to keeps clear of all that `d` leads to. -/
theorem LeadsClear.of_not_leadsClear {left : List Nat}
    (hleft : ∀ k, k ∈ left ↔ k ∈ fresh ∧ ¬LeadsClear deps (· ∉ fresh) d k)
    (hj : ¬LeadsClear deps (· ∉ fresh) d j) (h : LeadsClear deps (· ∉ fresh) i j) :
    LeadsClear deps (· ∉ left) i j := by
  induction h using Relation.ReflTransGen.head_induction_on with
  | refl => exact .refl
  | @head i k hd hrest ih =>
    have hk : k ∈ left := (hleft k).mpr ⟨Decidable.not_not.mp hd.2, fun hl => hj (hl.trans hrest)⟩
    exact .head ⟨hd.1, not_not_intro hk⟩ ih

theorem mem_unentered_of_mem_walk (hn : fresh.Nodup) (hd : d ∈ fresh)
    (hwalk : i ∈ walk deps (fresh.erase d) (deps d) ↔ Reach deps (fresh.erase d) (deps d) i) :
    i ∈ unentered deps fresh d ↔ i ∈ fresh ∧ ¬LeadsClear deps (· ∉ fresh) d i := by
  rw [mem_unentered, hwalk, leadsClear_iff_reach hn hd, hn.mem_erase_iff]
  grind

theorem mem_walk (hn : fresh.Nodup) : j ∈ walk deps fresh ds ↔ Reach deps fresh ds j := by
  revert hn j
  refine walk_induction deps
    (motive := fun fresh ds => ∀ {j}, fresh.Nodup →
      (j ∈ walk deps fresh ds ↔ Reach deps fresh ds j)) ?_ ?_ ?_ fresh ds
  · simp [Reach]
  · intro fresh d ds hd ih j hn
    rw [walk_cons_of_not_mem hd, ih hn]
    constructor
    · rintro ⟨e, he, hr⟩
      exact ⟨e, List.mem_cons_of_mem d he, hr⟩
    · rintro ⟨e, he, hf, hl⟩
      exact ⟨e, (List.mem_cons.mp he).resolve_left fun h => hd (h ▸ hf), hf, hl⟩
  · intro fresh d ds hd ihd ihds j hn
    have hleft : ∀ k, k ∈ unentered deps fresh d ↔
        k ∈ fresh ∧ ¬LeadsClear deps (· ∉ fresh) d k := fun k =>
      mem_unentered_of_mem_walk hn hd (ihd (hn.erase d))
    have hsub : unentered deps fresh d ⊆ fresh := fun k hk => ((hleft k).mp hk).1
    rw [walk_cons_of_mem hn hd, List.mem_append, List.mem_cons, ihd (hn.erase d),
      ihds (nodup_unentered hn), ← or_assoc, or_comm (b := j = d), ← leadsClear_iff_reach hn hd]
    constructor
    · rintro (hl | hr)
      · exact ⟨d, List.mem_cons_self, hd, hl⟩
      · obtain ⟨e, he, hr⟩ := hr.mono hsub
        exact ⟨e, List.mem_cons_of_mem d he, hr⟩
    · rintro ⟨e, he, hf, hl⟩
      by_cases hj : LeadsClear deps (· ∉ fresh) d j
      · exact .inl hj
      · have he : e ∈ ds := (List.mem_cons.mp he).resolve_left fun h => hj (h ▸ hl)
        have hef : e ∈ unentered deps fresh d := (hleft e).mpr ⟨hf, fun h => hj (h.trans hl)⟩
        exact .inr ⟨e, he, hef, hl.of_not_leadsClear hleft hj⟩

theorem mem_unentered_iff (hn : fresh.Nodup) (hd : d ∈ fresh) :
    i ∈ unentered deps fresh d ↔ i ∈ fresh ∧ ¬LeadsClear deps (· ∉ fresh) d i :=
  mem_unentered_of_mem_walk hn hd (mem_walk (hn.erase d))

theorem Reach.mem (h : Reach deps fresh ds j) : j ∈ fresh := by
  obtain ⟨d, _, hf, hl⟩ := h
  rcases hl.cases_tail with rfl | ⟨k, _, hk⟩
  · exact hf
  · exact Decidable.not_not.mp hk.2

theorem nodup_walk (hn : fresh.Nodup) : (walk deps fresh ds).Nodup := by
  revert hn
  refine walk_induction deps
    (motive := fun fresh ds => fresh.Nodup → (walk deps fresh ds).Nodup) ?_ ?_ ?_ fresh ds
  · simp
  · intro fresh d ds hd ih hn
    rw [walk_cons_of_not_mem hd]
    exact ih hn
  · intro fresh d ds hd ihd ihds hn
    rw [walk_cons_of_mem hn hd, List.nodup_append]
    have hsub : ∀ k ∈ walk deps (unentered deps fresh d) ds, k ∈ unentered deps fresh d :=
      fun k hk => ((mem_walk (nodup_unentered hn)).mp hk).mem
    have hdd : d ∉ unentered deps fresh d := fun h =>
      ((mem_unentered_iff hn hd).mp h).2 .refl
    have hlater : (d :: walk deps (unentered deps fresh d) ds).Nodup :=
      List.nodup_cons.mpr ⟨fun h => hdd (hsub d h), ihds (nodup_unentered hn)⟩
    refine ⟨ihd (hn.erase d), hlater, fun k hk m hm hkm => ?_⟩
    subst hkm
    rcases List.mem_cons.mp hm with rfl | hm
    · exact (hn.mem_erase_iff.mp ((mem_walk (hn.erase k)).mp hk).mem).1 rfl
    · exact (mem_unentered.mp (hsub k hm)).2 hk

/-- The walk enters a module when the modules `f` are fresh. -/
inductive Enters (deps : Nat → List Nat) : List Nat → List Nat → Nat → List Nat → Prop
  | here {fresh ds : List Nat} {d : Nat} (hd : d ∈ fresh) : Enters deps fresh (d :: ds) d fresh
  | skip {fresh ds f : List Nat} {d i : Nat} (hd : d ∉ fresh) (h : Enters deps fresh ds i f) :
    Enters deps fresh (d :: ds) i f
  | inside {fresh ds f : List Nat} {d i : Nat} (hd : d ∈ fresh)
    (h : Enters deps (fresh.erase d) (deps d) i f) : Enters deps fresh (d :: ds) i f
  | later {fresh ds f : List Nat} {d i : Nat} (hd : d ∈ fresh)
    (h : Enters deps (unentered deps fresh d) ds i f) : Enters deps fresh (d :: ds) i f

theorem exists_enters (hn : fresh.Nodup) (h : i ∈ walk deps fresh ds) :
    ∃ f, Enters deps fresh ds i f := by
  revert hn h
  refine walk_induction deps
    (motive := fun fresh ds => fresh.Nodup → i ∈ walk deps fresh ds → ∃ f, Enters deps fresh ds i f)
    ?_ ?_ ?_ fresh ds
  · simp
  · intro fresh d ds hd ih hn h
    rw [walk_cons_of_not_mem hd] at h
    obtain ⟨f, h⟩ := ih hn h
    exact ⟨f, h.skip hd⟩
  · intro fresh d ds hd ihd ihds hn h
    rw [walk_cons_of_mem hn hd, List.mem_append, List.mem_cons] at h
    rcases h with h | rfl | h
    · obtain ⟨f, h⟩ := ihd (hn.erase d) h
      exact ⟨f, h.inside hd⟩
    · exact ⟨fresh, .here hd⟩
    · obtain ⟨f, h⟩ := ihds (nodup_unentered hn) h
      exact ⟨f, h.later hd⟩

namespace Enters

theorem mem_walk (hn : fresh.Nodup) (h : Enters deps fresh ds i f) : i ∈ walk deps fresh ds := by
  induction h with
  | here hd => simp [walk_cons_of_mem hn hd]
  | skip hd _ ih => simp [walk_cons_of_not_mem hd, ih hn]
  | inside hd _ ih => simp [walk_cons_of_mem hn hd, ih (hn.erase _)]
  | later hd _ ih => simp [walk_cons_of_mem hn hd, ih (nodup_unentered hn)]

theorem subset (hn : fresh.Nodup) (h : Enters deps fresh ds i f) : f ⊆ fresh := by
  induction h with
  | here _ => exact fun _ => id
  | skip _ _ ih => exact ih hn
  | inside _ _ ih => exact fun k hk => List.mem_of_mem_erase (ih (hn.erase _) hk)
  | later hd _ ih => exact fun k hk => ((mem_unentered_iff hn hd).mp (ih (nodup_unentered hn) hk)).1

/-- The module is listed in the walk from a dependency of `d`, before `d` itself. -/
theorem precedes_inside (hn : fresh.Nodup) (hd : d ∈ fresh)
    (h : Enters deps (fresh.erase d) (deps d) i f) :
    Precedes (walk deps fresh (d :: ds)) j i ↔
      Precedes (walk deps (fresh.erase d) (deps d)) j i := by
  have hnw : (walk deps fresh (d :: ds)).Nodup := nodup_walk hn
  rw [walk_cons_of_mem hn hd] at hnw ⊢
  exact precedes_append_iff_left fun hi => (List.nodup_append.mp hnw).2.2 i (h.mem_walk (hn.erase d))
    i hi rfl

theorem precedes_later (hn : fresh.Nodup) (hd : d ∈ fresh) (hj : j ∈ unentered deps fresh d) :
    Precedes (walk deps fresh (d :: ds)) j i ↔
      Precedes (walk deps (unentered deps fresh d) ds) j i := by
  have hjd : j ≠ d := fun h => ((mem_unentered_iff hn hd).mp (h ▸ hj)).2 .refl
  rw [walk_cons_of_mem hn hd, List.append_cons]
  exact precedes_append_iff_right (by simp [(mem_unentered.mp hj).2, hjd])

/-- A module that is fresh when another one is entered is listed first just when it is led to over
fresh modules. -/
theorem precedes_iff (hn : fresh.Nodup) (h : Enters deps fresh ds i f) (hj : j ∈ f) (hij : j ≠ i) :
    Precedes (walk deps fresh ds) j i ↔ LeadsClear deps (· ∉ f) i j := by
  induction h with
  | @here fresh ds d hd =>
    have hnw : (walk deps fresh (d :: ds)).Nodup := nodup_walk hn
    rw [walk_cons_of_mem hn hd] at hnw ⊢
    rw [precedes_iff_mem hnw, FlatBundle.mem_walk (hn.erase d), leadsClear_iff_reach hn hd,
      or_iff_right hij]
  | skip hd _ ih =>
    rw [walk_cons_of_not_mem hd]
    exact ih hn hj hij
  | inside hd h ih => exact (precedes_inside hn hd h).trans (ih (hn.erase _) hj hij)
  | @later fresh ds _ d i hd h ih =>
    have hn' : (unentered deps fresh d).Nodup := nodup_unentered hn
    exact (precedes_later hn hd (h.subset hn' hj)).trans (ih hn' hj hij)

theorem leads (h : Enters deps fresh ds i f) : i ∈ ds ∨ ∃ d ∈ ds, Leads deps d i := by
  induction h with
  | here _ => exact .inl List.mem_cons_self
  | @skip _ ds _ d _ _ _ ih | @later _ ds _ d _ _ _ ih =>
    rcases ih with ih | ⟨e, he, ih⟩
    · exact .inl (List.mem_cons_of_mem d ih)
    · exact .inr ⟨e, List.mem_cons_of_mem d he, ih⟩
  | @inside _ ds _ d _ _ _ ih =>
    refine .inr ⟨d, List.mem_cons_self, ?_⟩
    rcases ih with ih | ⟨e, he, ih⟩
    · exact .single ih
    · exact .head he ih

/-- What is entered on the way from the dependencies of a module is led to by it. -/
theorem leads_of_inside (h : Enters deps fresh (deps d) i f) : Leads deps d i := by
  rcases h.leads with hi | ⟨e, he, hi⟩
  · exact .single hi
  · exact .head he hi

/-- What is entered before another module and does not lead to it is listed first. -/
theorem precedes_of_not_mem (hn : fresh.Nodup) (h : Enters deps fresh ds i f) (hj : j ∈ fresh)
    (hf : j ∉ f) (hji : ¬Leads deps j i) : Precedes (walk deps fresh ds) j i := by
  induction h with
  | here _ => exact absurd hj hf
  | skip hd _ ih =>
    rw [walk_cons_of_not_mem hd]
    exact ih hn hj hf hji
  | @inside fresh ds _ d i hd h ih =>
    have hjd : j ≠ d := fun hjd => hji (hjd ▸ h.leads_of_inside)
    exact (precedes_inside hn hd h).mpr (ih (hn.erase d) ((List.mem_erase_of_ne hjd).mpr hj) hf hji)
  | @later fresh ds _ d i hd h ih =>
    have hn' : (unentered deps fresh d).Nodup := nodup_unentered hn
    by_cases hj' : j ∈ unentered deps fresh d
    · exact (precedes_later hn hd hj').mpr (ih hn' hj' hf hji)
    · have hmem : j ∈ walk deps (fresh.erase d) (deps d) ++ [d] := by
        rw [mem_unentered_iff hn hd, leadsClear_iff_reach hn hd] at hj'
        rw [List.mem_append, FlatBundle.mem_walk (hn.erase d), List.mem_singleton]
        grind
      rw [walk_cons_of_mem hn hd, List.append_cons]
      exact precedes_append hmem (h.mem_walk hn')

/-- What a module leads to over modules that do not lead back is led to over fresh modules, as far as
it is fresh itself: a module that is left has left nothing behind it, and one that is entered and not
left leads back. -/
theorem leadsClear_of_leadsAway (hn : fresh.Nodup) (h : Enters deps fresh ds i f)
    (hleft : ∀ k, k ∉ fresh → ¬Leads deps k i → ∀ m ∈ deps k, m ∉ fresh)
    (hij : LeadsAway deps i j) (hj : j ∈ f) : LeadsClear deps (· ∉ f) i j := by
  induction h with
  | @here fresh ds d hd =>
    induction hij with
    | refl => exact .refl
    | @tail k m hk hm ih =>
      have hkf : k ∈ fresh := by
        rcases hk.cases_tail with rfl | ⟨_, _, hback⟩
        · exact hd
        · exact Decidable.byContradiction fun hkf => hleft k hkf hback.2 m hm.1 hj
      exact (ih hkf).tail ⟨hm.1, not_not_intro hj⟩
  | skip _ _ ih => exact ih hn hleft hij hj
  | @inside fresh ds _ d i hd h ih =>
    refine ih (hn.erase d) (fun k hk hback m hm => ?_) hij hj
    rcases (not_mem_erase_iff hn).mp hk with hk | rfl
    · exact fun hmf => hleft k hk hback m hm (List.mem_of_mem_erase hmf)
    · exact absurd h.leads_of_inside hback
  | @later fresh ds _ d i hd h ih =>
    refine ih (nodup_unentered hn) (fun k hk hback m hm hmf => ?_) hij hj
    obtain ⟨hmf, hdm⟩ := (mem_unentered_iff hn hd).mp hmf
    by_cases hkf : k ∈ fresh
    · have hdk : LeadsClear deps (· ∉ fresh) d k :=
        Classical.byContradiction fun hdk => hk ((mem_unentered_iff hn hd).mpr ⟨hkf, hdk⟩)
      exact hdm (hdk.tail ⟨hm, not_not_intro hmf⟩)
    · exact hleft k hkf hback m hm hmf

end Enters

end FlatBundle
