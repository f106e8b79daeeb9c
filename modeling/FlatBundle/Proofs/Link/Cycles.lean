import FlatBundle.Proofs.Link.Walk
import FlatBundle.Proofs.Record.Table

/-!
Which modules the walk finds on cycles: exactly those that lead back to the chain when the walk
enters them, with no module on the way that a chain has come back to before. Every module it finds
is on a cycle; a module on a cycle is missed when all its ways back are cut by then.
-/

namespace FlatBundle.Cycles

variable {deps : Nat → List Nat} {fresh chain : List Nat} {i j size : Nat} {c : Cycles}

/-- The cycles found before the walk starts at a root. -/
def foundBefore (size : Nat) (deps : Nat → List Nat) (root : Nat) : Cycles :=
  followAll deps (List.range size) [] (List.range root) {}

/-- The steps of the walk: modules not in the chain, the chain, the module that it is followed on to,
and the cycles found so far. -/
inductive Step (size : Nat) (deps : Nat → List Nat) : List Nat → List Nat → Nat → Cycles → Prop
  | root {i : Nat} (hi : i < size) :
    Step size deps (List.range size) [] i (foundBefore size deps i)
  | onward {fresh chain before after : List Nat} {i d : Nat} {c : Cycles}
    (h : Step size deps fresh chain i c) (hi : i ∉ chain) (hh : i ∉ c.heads) (hf : i ∈ fresh)
    (hd : deps i = before ++ d :: after) :
    Step size deps (fresh.erase i) (chain ++ [i]) d
      (followAll deps (fresh.erase i) (chain ++ [i]) before c)

/-- At some time when the walk enters a module, it leads back to the chain or to itself, with no
head on the way. -/
def ReturnsOnEntry (size : Nat) (deps : Nat → List Nat) (i : Nat) : Prop :=
  ∃ fresh chain c, Step size deps fresh chain i c ∧ i ∉ chain ∧ i ∉ c.heads ∧
    ReturnsTo deps (· ∈ c.heads) i (chain ++ [i])

theorem foundBefore_succ {root : Nat} :
    foundBefore size deps (root + 1) =
      follow deps (List.range size) [] root (foundBefore size deps root) := by
  simp [foundBefore, List.range_succ, followAll_append]

theorem extends_foundBefore {root : Nat} (h : i ≤ root) :
    Extends (foundBefore size deps i) (foundBefore size deps root) := by
  induction h with
  | refl => exact .refl
  | step _ ih => exact foundBefore_succ ▸ ih.trans extends_follow

theorem Step.covers (h : Step size deps fresh chain i c) : Covers size fresh chain := by
  induction h with
  | root _ => exact fun i hi => .inr (List.mem_range.mpr hi)
  | @onward _ _ _ _ i _ _ _ _ _ _ _ ih => exact ih.enter i

theorem Step.lt (h : Step size deps fresh chain i c) (hw : Within size deps) : i < size := by
  cases h with
  | root hi => exact hi
  | @onward _ _ _ _ j _ _ _ _ _ _ hd => exact hw j i (by simp [hd])

theorem Step.leads (h : Step size deps fresh chain i c) (hj : j ∈ chain) : Leads deps j i := by
  induction h with
  | root _ => simp at hj
  | @onward _ chain _ _ i d _ _ _ _ _ hd ih =>
    have hid : DependsOn deps i d := by simp [DependsOn, hd]
    rcases List.mem_append.mp hj with hj | hj
    · exact (ih hj).tail hid
    · obtain rfl := List.mem_singleton.mp hj
      exact .single hid

/-- Nothing that a step finds is lost. -/
theorem Step.extends_find (h : Step size deps fresh chain i c) :
    Extends (follow deps fresh chain i c) (find size deps) := by
  induction h with
  | root hi => exact foundBefore_succ ▸ extends_foundBefore hi
  | @onward fresh chain before after i d c _ hi hh hf hd ih =>
    rw [follow_of_fresh hi hh hf, hd, followAll_append, followAll_cons] at ih
    exact extends_followAll.trans ih

theorem ReturnsOnEntry.mem_members (hw : Within size deps) (h : ReturnsOnEntry size deps i) :
    i ∈ (find size deps).members := by
  obtain ⟨fresh, chain, c, hstep, hi, hh, hr⟩ := h
  have hf : i ∈ fresh := (hstep.covers i (hstep.lt hw)).resolve_left hi
  have hr : ReturnsTo deps (Shut c chain) i (chain ++ [i]) :=
    (ReturnsTo.or_mem_iff (by simp)).mpr hr
  obtain ⟨d, hd, hcd⟩ := hr.exists_closes
  have hcd := hcd.mono fun k => shut_append_singleton.mp
  refine hstep.extends_find.members ?_
  rw [follow_of_fresh hi hh hf]
  refine mem_members_followAll_of (fun c d hd hcd => ?_) hd hcd
  exact mem_members_follow hw (hstep.covers.enter i) (hw i d hd)
    (show chain ++ [i] = chain ++ i :: [] from rfl) hcd

theorem ReturnsOnEntry.onCycle (h : ReturnsOnEntry size deps i) : OnCycle deps i := by
  obtain ⟨fresh, chain, c, hstep, _, _, hr⟩ := h
  obtain ⟨k, hk, hik⟩ := hr.leads
  rcases List.mem_append.mp hk with hk | hk
  · exact hik.trans (hstep.leads hk)
  · obtain rfl := List.mem_singleton.mp hk
    exact hik

/-- A way to find `j` in the chain: the next step may close it at or before `j`. -/
def ClosesUpTo (deps : Nat → List Nat) (c : Cycles) (chain : List Nat) (j i : Nat) : Prop :=
  ∃ before after, chain = before ++ j :: after ∧ Closes deps (Shut c chain) (before ++ [j]) i

/-- What an entered module passes on from one of its dependencies, at a later time. -/
theorem ClosesUpTo.of_onward {c' : Cycles} {d : Nat} (hc : Extends c c') (hd : d ∈ deps i)
    (hi : i ∉ chain) (hh : i ∉ c.heads) (h : ClosesUpTo deps c' (chain ++ [i]) j d) :
    ClosesUpTo deps c chain j i ∨ j = i ∧ ReturnsTo deps (· ∈ c.heads) i (chain ++ [i]) := by
  obtain ⟨before, after, hsplit, hclose⟩ := h
  have hs : ∀ k, Shut c chain k → Shut c' (chain ++ [i]) k := fun _ hk =>
    shut_append_singleton.mpr (.inl (hk.mono hc))
  have hr : ReturnsTo deps (Shut c chain) i (before ++ [j]) := (hclose.mono hs).returnsTo hd
  rcases List.eq_nil_or_concat after with rfl | ⟨after, k, rfl⟩
  · obtain ⟨rfl, hij⟩ := List.append_inj' hsplit rfl
    obtain rfl : i = j := by simpa using hij
    exact .inr ⟨rfl, hr.mono fun _ => .inl⟩
  · have hsplit : chain ++ [i] = (before ++ j :: after) ++ [k] := by simpa using hsplit
    have hb : ¬Shut c chain i := by simp [Shut, hi, hh]
    exact .inl ⟨before, after, (List.append_inj' hsplit rfl).1, .inr ⟨hb, hr⟩⟩

theorem mem_members_followAll_cases {done ds : List Nat} (hstep : Step size deps fresh chain i c)
    (hi : i ∉ chain) (hh : i ∉ c.heads) (hf : i ∈ fresh) (hdeps : deps i = done ++ ds)
    (ih : ∀ c d, Step size deps (fresh.erase i) (chain ++ [i]) d c →
      j ∈ (follow deps (fresh.erase i) (chain ++ [i]) d c).members →
      j ∈ c.members ∨ ClosesUpTo deps c (chain ++ [i]) j d ∨ ReturnsOnEntry size deps j)
    (hj : j ∈ (followAll deps (fresh.erase i) (chain ++ [i]) ds
      (followAll deps (fresh.erase i) (chain ++ [i]) done c)).members) :
    j ∈ (followAll deps (fresh.erase i) (chain ++ [i]) done c).members ∨
      ClosesUpTo deps c chain j i ∨ ReturnsOnEntry size deps j := by
  induction ds generalizing done with
  | nil => exact .inl hj
  | cons d ds ihds =>
    have hnext := hstep.onward hi hh hf hdeps
    have hdone : followAll deps (fresh.erase i) (chain ++ [i]) (done ++ [d]) c =
        follow deps (fresh.erase i) (chain ++ [i]) d
          (followAll deps (fresh.erase i) (chain ++ [i]) done c) := by
      simp [followAll_append]
    rw [followAll_cons, ← hdone] at hj
    rcases ihds (by simp [hdeps]) hj with hj | hj | hj
    · rw [hdone] at hj
      rcases ih _ d hnext hj with hj | hj | hj
      · exact .inl hj
      · rcases hj.of_onward extends_followAll (by simp [hdeps]) hi hh with hj | ⟨rfl, hr⟩
        · exact .inr (.inl hj)
        · exact .inr (.inr ⟨fresh, chain, c, hstep, hi, hh, hr⟩)
      · exact .inr (.inr hj)
    · exact .inr (.inl hj)
    · exact .inr (.inr hj)

theorem mem_members_follow_cases (hstep : Step size deps fresh chain i c)
    (hj : j ∈ (follow deps fresh chain i c).members) :
    j ∈ c.members ∨ ClosesUpTo deps c chain j i ∨ ReturnsOnEntry size deps j := by
  revert hstep hj
  refine follow_induction
    (motive := fun fresh chain i c c' => Step size deps fresh chain i c → j ∈ c'.members →
      j ∈ c.members ∨ ClosesUpTo deps c chain j i ∨ ReturnsOnEntry size deps j)
    ?_ ?_ ?_ ?_ fresh chain i c
  · intro fresh chain i c hi _ hj
    refine (mem_members_close.mp hj).imp id fun hj => .inl ?_
    obtain ⟨before, after, hloop⟩ := List.append_of_mem hj
    refine ⟨chain.takeWhile (· ≠ i) ++ before, after, ?_, .inl ?_⟩
    · rw [List.append_assoc, ← hloop, List.takeWhile_append_dropWhile]
    · obtain ⟨rest, hrest⟩ := exists_dropWhile_ne hi
      cases before with
      | nil => simp_all
      | cons b before => simp_all
  · exact fun _ _ _ _ _ _ _ hj => .inl hj
  · intro fresh chain i c hi hh hf ih hstep hj
    exact mem_members_followAll_cases hstep hi hh hf (show deps i = [] ++ deps i from rfl) ih hj
  · exact fun _ _ _ _ _ _ _ _ hj => .inl hj

theorem mem_members_foundBefore_cases {root : Nat} (hroot : root ≤ size)
    (hj : j ∈ (foundBefore size deps root).members) : ReturnsOnEntry size deps j := by
  induction root with
  | zero => simp [foundBefore] at hj
  | succ root ih =>
    rw [foundBefore_succ] at hj
    rcases mem_members_follow_cases (.root hroot) hj with hj | ⟨before, after, hnil, _⟩ | hj
    · exact ih (by omega) hj
    · simp at hnil
    · exact hj

theorem mem_members_iff_returnsOnEntry (hw : Within size deps) :
    i ∈ (find size deps).members ↔ ReturnsOnEntry size deps i :=
  ⟨mem_members_foundBefore_cases (Nat.le_refl size), ReturnsOnEntry.mem_members hw⟩

theorem heads_subset_members_foundBefore {root : Nat} :
    (foundBefore size deps root).heads ⊆ (foundBefore size deps root).members := by
  induction root with
  | zero => exact List.nil_subset _
  | succ root ih => exact foundBefore_succ ▸ heads_subset_members_follow ih

/-- A module that is missed comes back to itself only through modules that a chain has come back
to. -/
theorem mem_members_of_returnsTo (hw : Within size deps)
    (h : ReturnsTo deps (· ∈ (find size deps).heads) i [i]) : i ∈ (find size deps).members := by
  have hi : i < size := by
    obtain ⟨k, hk, hik⟩ := h.leads
    obtain rfl := List.mem_singleton.mp hk
    exact hik.lt hw
  have he : Extends (foundBefore size deps i) (find size deps) :=
    extends_foundBefore (Nat.le_of_lt hi)
  by_cases hh : i ∈ (foundBefore size deps i).heads
  · exact he.members (heads_subset_members_foundBefore hh)
  · have hr := h.mono fun _ hk => he.heads hk
    exact ReturnsOnEntry.mem_members hw ⟨_, [], _, .root hi, by simp, hh, hr⟩

/-- The modules found on cycles are all on cycles. They are all there are just when each module on a
cycle returns at a time when the walk enters it; one that is missed comes back to itself only through
modules that a chain has come back to. -/
theorem members_complete_iff (t : Table) :
    (∀ i ∈ t.cycles.members, OnCycle t.internalDeps i) ∧
      (∀ i, i ∈ t.cycles.members ↔ ReturnsOnEntry t.size t.internalDeps i) ∧
      (∀ i, i ∉ t.cycles.members → ¬ReturnsTo t.internalDeps (· ∈ t.cycles.heads) i [i]) ∧
      ((∀ i, i ∈ t.cycles.members ↔ OnCycle t.internalDeps i) ↔
        ∀ i, OnCycle t.internalDeps i → ReturnsOnEntry t.size t.internalDeps i) := by
  have hmem : ∀ i, i ∈ t.cycles.members ↔ ReturnsOnEntry t.size t.internalDeps i := fun i =>
    mem_members_iff_returnsOnEntry t.within_internalDeps
  have hcycle : ∀ i ∈ t.cycles.members, OnCycle t.internalDeps i := fun i hi =>
    ((hmem i).mp hi).onCycle
  refine ⟨hcycle, hmem, fun i hi hr => hi ?_, fun h i hi => ?_, fun h i => ?_⟩
  · exact mem_members_of_returnsTo t.within_internalDeps hr
  · exact (hmem i).mp ((h i).mpr hi)
  · exact ⟨hcycle i, fun hi => (hmem i).mpr (h i hi)⟩

/-- Two cycles through one module. The walk comes back to `2` before it enters `3`, whose only way
back leads through `2`. -/
def crossingCycles : List Record := [
  { id := .number 1, source := "", deps := [("./a", some (.number 2)), ("./x", some (.number 3))] },
  { id := .number 2, source := "", deps := [("./a", some (.number 2)), ("./b", some (.number 1))] },
  { id := .number 3, source := "", deps := [("./a", some (.number 2))] }]

theorem not_members_complete :
    ¬∀ (t : Table) (i : Nat), i ∈ t.cycles.members ↔ OnCycle t.internalDeps i := by
  intro h
  have hcycle : OnCycle (Table.internalDeps ⟨crossingCycles⟩) 2 :=
    .head (show DependsOn _ 2 1 by unfold DependsOn; decide +kernel)
      (.head (show DependsOn _ 1 0 by unfold DependsOn; decide +kernel)
        (.single (show DependsOn _ 0 2 by unfold DependsOn; decide +kernel)))
  have hmissed : 2 ∉ (Table.cycles ⟨crossingCycles⟩).members := by decide +kernel
  exact hmissed ((h ⟨crossingCycles⟩ 2).mpr hcycle)

end FlatBundle.Cycles
