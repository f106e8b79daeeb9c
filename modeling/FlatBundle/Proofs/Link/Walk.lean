import FlatBundle.Link.Cycles
import FlatBundle.Proofs.Distinct
import FlatBundle.Proofs.Link.Dependency

/-!
The walk that finds cycles: what one step along a chain adds to the cycles found so far.
-/

namespace FlatBundle.Cycles

variable {deps : Nat → List Nat} {fresh chain ds : List Nat} {i j d size : Nat} {c c' : Cycles}

/-- Follows one chain on to each of some modules. -/
def followAll (deps : Nat → List Nat) (fresh chain ds : List Nat) (c : Cycles) : Cycles :=
  ds.foldl (fun c d => follow deps fresh chain d c) c

@[simp]
theorem followAll_nil : followAll deps fresh chain [] c = c :=
  rfl

@[simp]
theorem followAll_cons :
    followAll deps fresh chain (d :: ds) c =
      followAll deps fresh chain ds (follow deps fresh chain d c) :=
  rfl

theorem followAll_append {ds' : List Nat} :
    followAll deps fresh chain (ds ++ ds') c =
      followAll deps fresh chain ds' (followAll deps fresh chain ds c) :=
  List.foldl_append

theorem follow_of_mem (h : i ∈ chain) :
    follow deps fresh chain i c = c.close i (chain.dropWhile (· ≠ i)) := by
  rw [follow, if_pos (List.contains_iff_mem.mpr h)]

theorem follow_of_head (h : i ∉ chain) (hh : i ∈ c.heads) : follow deps fresh chain i c = c := by
  rw [follow, if_neg (by simpa using h), if_pos (List.contains_iff_mem.mpr hh)]

theorem follow_of_fresh (h : i ∉ chain) (hh : i ∉ c.heads) (hf : i ∈ fresh) :
    follow deps fresh chain i c =
      followAll deps (fresh.erase i) (chain ++ [i]) (deps i) c := by
  rw [follow, if_neg (by simpa using h), if_neg (by simpa using hh), dif_pos hf, followAll]

theorem follow_of_gone (h : i ∉ chain) (hh : i ∉ c.heads) (hf : i ∉ fresh) :
    follow deps fresh chain i c = c := by
  rw [follow, if_neg (by simpa using h), if_neg (by simpa using hh), dif_neg hf]

/-- The cases of one step, with all modules that it goes on to. -/
theorem follow_induction {motive : List Nat → List Nat → Nat → Cycles → Cycles → Prop}
    (close : ∀ fresh chain i c, i ∈ chain →
      motive fresh chain i c (c.close i (chain.dropWhile (· ≠ i))))
    (head : ∀ fresh chain i c, i ∉ chain → i ∈ c.heads → motive fresh chain i c c)
    (enter : ∀ fresh chain i c, i ∉ chain → i ∉ c.heads → i ∈ fresh →
      (∀ c d, motive (fresh.erase i) (chain ++ [i]) d c
        (follow deps (fresh.erase i) (chain ++ [i]) d c)) →
      motive fresh chain i c (followAll deps (fresh.erase i) (chain ++ [i]) (deps i) c))
    (gone : ∀ fresh chain i c, i ∉ chain → i ∉ c.heads → i ∉ fresh → motive fresh chain i c c)
    (fresh chain : List Nat) (i : Nat) (c : Cycles) :
    motive fresh chain i c (follow deps fresh chain i c) := by
  induction fresh, chain, i, c using follow.induct with
  | case1 fresh chain i c h =>
    have h := List.contains_iff_mem.mp h
    exact follow_of_mem h ▸ close fresh chain i c h
  | case2 fresh chain i c h hh =>
    have h : i ∉ chain := by simpa using h
    have hh := List.contains_iff_mem.mp hh
    exact (follow_of_head h hh).symm ▸ head fresh chain i c h hh
  | case3 fresh chain i c h hh hf ih =>
    have h : i ∉ chain := by simpa using h
    have hh : i ∉ c.heads := by simpa using hh
    exact follow_of_fresh h hh hf ▸ enter fresh chain i c h hh hf ih
  | case4 fresh chain i c h hh hf =>
    have h : i ∉ chain := by simpa using h
    have hh : i ∉ c.heads := by simpa using hh
    exact (follow_of_gone h hh hf).symm ▸ gone fresh chain i c h hh hf

/-- `c'` holds all cycles of `c`. -/
structure Extends (c c' : Cycles) : Prop where
  members : c.members ⊆ c'.members
  heads : c.heads ⊆ c'.heads

theorem Extends.refl : Extends c c :=
  ⟨fun _ => id, fun _ => id⟩

theorem Extends.trans {c'' : Cycles} (h : Extends c c') (h' : Extends c' c'') : Extends c c'' :=
  ⟨fun _ hi => h'.members (h.members hi), fun _ hi => h'.heads (h.heads hi)⟩

theorem mem_members_close {loop : List Nat} :
    j ∈ (c.close i loop).members ↔ j ∈ c.members ∨ j ∈ loop := by
  simp [close]

theorem extends_close {loop : List Nat} : Extends c (c.close i loop) :=
  ⟨fun _ h => mem_members_close.mpr (.inl h), fun _ h => List.mem_cons_of_mem i h⟩

/-- What holds of the steps along a list of modules one by one holds of them together. -/
theorem followAll_extends_of (h : ∀ c d, Extends c (follow deps fresh chain d c)) :
    Extends c (followAll deps fresh chain ds c) := by
  induction ds generalizing c with
  | nil => exact .refl
  | cons d ds ih => exact (h c d).trans ih

theorem extends_follow : Extends c (follow deps fresh chain i c) := by
  refine follow_induction (motive := fun _ _ _ c c' => Extends c c') ?_ ?_ ?_ ?_ fresh chain i c
  · exact fun _ _ _ _ _ => extends_close
  · exact fun _ _ _ _ _ _ => .refl
  · exact fun _ _ _ _ _ _ _ ih => followAll_extends_of ih
  · exact fun _ _ _ _ _ _ _ => .refl

theorem extends_followAll : Extends c (followAll deps fresh chain ds c) :=
  followAll_extends_of fun _ _ => extends_follow

theorem exists_dropWhile_ne (h : i ∈ chain) : ∃ rest, chain.dropWhile (· ≠ i) = i :: rest := by
  induction chain with
  | nil => simp at h
  | cons b chain ih =>
    by_cases hb : b = i
    · exact ⟨chain, by simp [hb]⟩
    · obtain ⟨rest, hrest⟩ := ih (by simpa [Ne.symm hb] using h)
      exact ⟨rest, by simpa [hb] using hrest⟩

/-- A chain is closed at a module of its own. -/
theorem heads_subset_members_follow (hc : c.heads ⊆ c.members) :
    (follow deps fresh chain i c).heads ⊆ (follow deps fresh chain i c).members := by
  revert hc
  refine follow_induction
    (motive := fun _ _ _ c c' => c.heads ⊆ c.members → c'.heads ⊆ c'.members)
    ?_ ?_ ?_ ?_ fresh chain i c
  · intro fresh chain i c hi hc j hj
    obtain ⟨rest, hrest⟩ := exists_dropWhile_ne hi
    rw [mem_members_close]
    rcases List.mem_cons.mp hj with rfl | hj
    · exact .inr (hrest ▸ List.mem_cons_self)
    · exact .inl (hc hj)
  · exact fun _ _ _ _ _ _ => id
  · intro fresh chain i c _ hh _ ih hc
    clear hh
    generalize deps i = ds
    induction ds generalizing c with
    | nil => exact hc
    | cons d ds ihds => exact ihds _ (ih c d hc)
  · exact fun _ _ _ _ _ _ _ => id

/-- The modules that a chain is not followed beyond. -/
def Shut (c : Cycles) (chain : List Nat) (j : Nat) : Prop :=
  j ∈ c.heads ∨ j ∈ chain

theorem Shut.mono (hc : Extends c c') (h : Shut c chain j) : Shut c' chain j :=
  h.imp_left fun h => hc.heads h

theorem shut_append_singleton : Shut c (chain ++ [i]) j ↔ Shut c chain j ∨ j = i := by
  simp [Shut, or_assoc]

/-- Where a chain may be closed anew: at one of its own modules, or at one that it can be followed
on to. -/
def MayHead (deps : Nat → List Nat) (c : Cycles) (chain : List Nat) (i j : Nat) : Prop :=
  j ∈ chain ∨ ¬Shut c chain i ∧ LeadsClear deps (Shut c chain) i j

theorem mem_heads_followAll_of (hc : Extends c c')
    (h : ∀ c d, j ∈ (follow deps fresh chain d c).heads → j ∈ c.heads ∨ MayHead deps c chain d j)
    (hj : j ∈ (followAll deps fresh chain ds c').heads) :
    j ∈ c'.heads ∨ ∃ d ∈ ds, MayHead deps c chain d j := by
  induction ds generalizing c' with
  | nil => exact .inl hj
  | cons d ds ih =>
    rcases ih (hc.trans extends_follow) hj with hj | ⟨d', hd', hj⟩
    · refine (h c' d hj).imp id fun hm => ⟨d, List.mem_cons_self, hm.imp id ?_⟩
      exact fun ⟨hb, hl⟩ => ⟨fun hm => hb (hm.mono hc), hl.mono fun _ => Shut.mono hc⟩
    · exact .inr ⟨d', List.mem_cons_of_mem d hd', hj⟩

theorem mem_heads_follow (hj : j ∈ (follow deps fresh chain i c).heads) :
    j ∈ c.heads ∨ MayHead deps c chain i j := by
  revert hj
  refine follow_induction
    (motive := fun _ chain i c c' => j ∈ c'.heads → j ∈ c.heads ∨ MayHead deps c chain i j)
    ?_ ?_ ?_ ?_ fresh chain i c
  · intro fresh chain i c hi hj
    rcases List.mem_cons.mp hj with rfl | hj
    · exact .inr (.inl hi)
    · exact .inl hj
  · exact fun _ _ _ _ _ _ hj => .inl hj
  · intro fresh chain i c hi hh hf ih hj
    have hb : ¬Shut c chain i := by simp [Shut, hi, hh]
    rcases mem_heads_followAll_of .refl ih hj with hj | ⟨d, hd, hj | ⟨hdb, hl⟩⟩
    · exact .inl hj
    · rcases List.mem_append.mp hj with hj | hj
      · exact .inr (.inl hj)
      · obtain rfl := List.mem_singleton.mp hj
        exact .inr (.inr ⟨hb, .refl⟩)
    · have hs : ∀ k, Shut c chain k → Shut c (chain ++ [i]) k := fun _ hk =>
        shut_append_singleton.mpr (.inl hk)
      exact .inr (.inr ⟨hb, .head ⟨hd, fun hm => hdb (hs d hm)⟩ (hl.mono hs)⟩)
  · exact fun _ _ _ _ _ _ _ hj => .inl hj

/-- The chain and the fresh modules are all modules there are. -/
def Covers (size : Nat) (fresh chain : List Nat) : Prop :=
  ∀ i < size, i ∈ chain ∨ i ∈ fresh

theorem Covers.enter (h : Covers size fresh chain) (i : Nat) :
    Covers size (fresh.erase i) (chain ++ [i]) := by
  intro j hj
  by_cases hi : j = i
  · exact .inl (by simp [hi])
  · exact (h j hj).imp (fun hc => by simp [hc]) (List.mem_erase_of_ne hi).mpr

/-- A module of the chain is found when the chain can be closed at or before it. The modules that
earlier steps close anew do not return there, so that they block no way that does. -/
theorem mem_members_followAll_of {targets : List Nat}
    (step : ∀ c, ∀ d ∈ ds, Closes deps (Shut c chain) targets d →
      j ∈ (follow deps fresh chain d c).members)
    (hd : d ∈ ds) (h : Closes deps (Shut c chain) targets d) :
    j ∈ (followAll deps fresh chain ds c).members := by
  induction ds generalizing c with
  | nil => simp at hd
  | cons e ds ih =>
    rw [followAll_cons]
    by_cases hce : Closes deps (Shut c chain) targets e
    · exact extends_followAll.members (step c e List.mem_cons_self hce)
    · have hd : d ∈ ds := (List.mem_cons.mp hd).resolve_left fun hde => hce (hde ▸ h)
      refine ih (fun c d hd => step c d (List.mem_cons_of_mem e hd)) hd (h.of_not_returns ?_)
      intro k hk
      by_cases hkc : k ∈ chain
      · exact .inl (.inr hkc)
      · rcases mem_heads_follow (hk.resolve_right hkc) with hkh | hkh | ⟨heb, hl⟩
        · exact .inl (.inl hkh)
        · exact absurd hkh hkc
        · exact .inr fun hr => hce (.inr ⟨heb, .of_leadsClear hl hr⟩)

theorem mem_dropWhile_ne {before after : List Nat} (h : i ∈ before ++ [j]) :
    j ∈ (before ++ j :: after).dropWhile (· ≠ i) := by
  induction before with
  | nil =>
    have : i = j := by simpa using h
    simp [this]
  | cons b before ih =>
    by_cases hb : b = i
    · simp [hb]
    · have h : i ∈ before ++ [j] := by simpa [Ne.symm hb] using h
      simpa [hb] using ih h

theorem not_mem_targets {before after : List Nat} (hi : i ∉ chain)
    (hc : chain = before ++ j :: after) : i ∉ before ++ [j] := fun h =>
  hi (hc ▸ List.append_cons before j after ▸ List.mem_append_left after h)

theorem mem_members_follow (hw : Within size deps) (hcov : Covers size fresh chain) (hi : i < size)
    {before after : List Nat} (hc : chain = before ++ j :: after)
    (h : Closes deps (Shut c chain) (before ++ [j]) i) :
    j ∈ (follow deps fresh chain i c).members := by
  revert after
  refine follow_induction
    (motive := fun fresh chain i c c' => Covers size fresh chain → i < size →
      Closes deps (Shut c chain) (before ++ [j]) i →
      ∀ {after : List Nat}, chain = before ++ j :: after → j ∈ c'.members)
    ?_ ?_ ?_ ?_ fresh chain i c hcov hi h
  · intro fresh chain i c hi _ _ h after hc
    have ht := h.resolve_right fun hb => hb.1 (.inr hi)
    exact mem_members_close.mpr (.inr (hc ▸ mem_dropWhile_ne ht))
  · intro fresh chain i c hi hh _ _ h after hc
    exact absurd (.inl hh) (h.resolve_left (not_mem_targets hi hc)).1
  · intro fresh chain i c hi hh hf ih hcov _ h after hc
    have hr : ReturnsTo deps (Shut c chain) i (before ++ [j]) :=
      (h.resolve_left (not_mem_targets hi hc)).2
    obtain ⟨d, hd, hcd⟩ := hr.exists_closes
    have hcd := hcd.mono fun k => shut_append_singleton.mp
    refine mem_members_followAll_of (fun c d hd hcd => ?_) hd hcd
    exact ih c d (hcov.enter i) (hw i d hd) hcd
      (show chain ++ [i] = before ++ j :: (after ++ [i]) by simp [hc])
  · intro fresh chain i c hi _ hf hcov hsize
    exact absurd (hcov i hsize) (by simp [hi, hf])

end FlatBundle.Cycles
