import Mathlib.Logic.Relation

/-!
Chains of dependencies: what a module leads to, cycles, and chains that keep clear of some modules.
-/

namespace FlatBundle

def DependsOn (deps : Nat → List Nat) (i j : Nat) : Prop :=
  j ∈ deps i

/-- Over one or more dependencies. -/
def Leads (deps : Nat → List Nat) : Nat → Nat → Prop :=
  Relation.TransGen (DependsOn deps)

def OnCycle (deps : Nat → List Nat) (i : Nat) : Prop :=
  Leads deps i i

/-- All dependencies are numbers below `size`. -/
def Within (size : Nat) (deps : Nat → List Nat) : Prop :=
  ∀ i, ∀ j ∈ deps i, j < size

/-- Over any number of dependencies, none of them to a blocked module. -/
def LeadsClear (deps : Nat → List Nat) (blocked : Nat → Prop) : Nat → Nat → Prop :=
  Relation.ReflTransGen fun i j => j ∈ deps i ∧ ¬blocked j

/-- Over any number of dependencies, none of them to a module that leads back. -/
def LeadsAway (deps : Nat → List Nat) (i : Nat) : Nat → Prop :=
  LeadsClear deps (fun k => Leads deps k i) i

/-- Over one or more dependencies to one of `targets`, with no blocked module on the way. -/
def ReturnsTo (deps : Nat → List Nat) (blocked : Nat → Prop) (i : Nat) (targets : List Nat) :
    Prop :=
  ∃ j, LeadsClear deps blocked i j ∧ ∃ k ∈ targets, k ∈ deps j

/-- A dependency that is one of `targets` already, or that may be entered and returns to one. -/
def Closes (deps : Nat → List Nat) (blocked : Nat → Prop) (targets : List Nat) (i : Nat) : Prop :=
  i ∈ targets ∨ ¬blocked i ∧ ReturnsTo deps blocked i targets

variable {deps : Nat → List Nat} {blocked fewer : Nat → Prop} {targets : List Nat} {i j k size : Nat}

theorem Leads.lt (hw : Within size deps) (h : Leads deps i j) : j < size := by
  cases h with
  | single hd => exact hw i j hd
  | tail _ hd => exact hw _ j hd

theorem Leads.leadsAway (h : Leads deps i j) (hi : ¬OnCycle deps i) : LeadsAway deps i j := by
  induction h with
  | single hd => exact .single ⟨hd, fun hback => hi (.head hd hback)⟩
  | tail hk hd ih => exact ih.tail ⟨hd, fun hback => hi ((hk.tail hd).trans hback)⟩

theorem LeadsClear.mono (hs : ∀ k, fewer k → blocked k) (h : LeadsClear deps blocked i j) :
    LeadsClear deps fewer i j :=
  Relation.ReflTransGen.mono (fun _ k hd => ⟨hd.1, fun hm => hd.2 (hs k hm)⟩) _ _ h

theorem LeadsClear.leads (h : LeadsClear deps blocked i j) (hk : k ∈ deps j) : Leads deps i k := by
  induction h generalizing k with
  | refl => exact .single hk
  | tail _ hd ih => exact (ih hd.1).tail hk

/-- A chain that comes to one of `extra` first returns there. -/
theorem LeadsClear.or_returnsTo (extra : List Nat) (h : LeadsClear deps blocked i j) :
    LeadsClear deps (fun k => blocked k ∨ k ∈ extra) i j ∨
      ReturnsTo deps (fun k => blocked k ∨ k ∈ extra) i extra := by
  induction h with
  | refl => exact .inl .refl
  | @tail b c _ hd ih =>
    rcases ih with ih | ih
    · by_cases hc : c ∈ extra
      · exact .inr ⟨b, ih, c, hc, hd.1⟩
      · exact .inl (ih.tail ⟨hd.1, by simp [hd.2, hc]⟩)
    · exact .inr ih

/-- A chain may be cut before it comes to `s`, or else begun anew from there. -/
theorem LeadsClear.split_at (s : Nat) (h : LeadsClear deps blocked i j) :
    LeadsClear deps (fun k => blocked k ∨ k = s) i j ∨ j = s ∨
      ∃ d ∈ deps s, ¬(blocked d ∨ d = s) ∧ LeadsClear deps (fun k => blocked k ∨ k = s) d j := by
  induction h with
  | refl => exact .inl .refl
  | @tail b c _ hd ih =>
    by_cases hc : c = s
    · exact .inr (.inl hc)
    have hcb : ¬(blocked c ∨ c = s) := by simp [hd.2, hc]
    rcases ih with ih | rfl | ⟨d, hds, hdb, ih⟩
    · exact .inl (ih.tail ⟨hd.1, hcb⟩)
    · exact .inr (.inr ⟨c, hd.1, hcb, .refl⟩)
    · exact .inr (.inr ⟨d, hds, hdb, ih.tail ⟨hd.1, hcb⟩⟩)

/-- The first step; the module that a chain starts at need not be passed again. -/
theorem LeadsClear.cases_first (h : LeadsClear deps blocked i j) :
    j = i ∨ ∃ d ∈ deps i, ¬(blocked d ∨ d = i) ∧
      LeadsClear deps (fun k => blocked k ∨ k = i) d j := by
  rcases h.split_at i with h | h | h
  · rcases h.cases_head with rfl | ⟨d, hd, h⟩
    · exact .inl rfl
    · exact .inr ⟨d, hd.1, hd.2, h⟩
  · exact .inl h
  · exact .inr h

theorem ReturnsTo.leads (h : ReturnsTo deps blocked i targets) : ∃ k ∈ targets, Leads deps i k := by
  obtain ⟨j, hj, k, hk, hd⟩ := h
  exact ⟨k, hk, hj.leads hd⟩

theorem ReturnsTo.mono (hs : ∀ k, fewer k → blocked k) (h : ReturnsTo deps blocked i targets) :
    ReturnsTo deps fewer i targets := by
  obtain ⟨j, hj, hk⟩ := h
  exact ⟨j, hj.mono hs, hk⟩

theorem ReturnsTo.of_leadsClear (h : LeadsClear deps blocked i j)
    (hr : ReturnsTo deps blocked j targets) : ReturnsTo deps blocked i targets := by
  obtain ⟨k, hk, htargets⟩ := hr
  exact ⟨k, h.trans hk, htargets⟩

/-- A return stays open when only modules get blocked that do not return themselves. -/
theorem ReturnsTo.of_not_returns {more : Nat → Prop} (h : ReturnsTo deps blocked i targets)
    (hm : ∀ k, more k → blocked k ∨ ¬ReturnsTo deps blocked k targets) :
    ReturnsTo deps more i targets := by
  obtain ⟨j, hj, htargets⟩ := h
  refine ⟨j, ?_, htargets⟩
  induction hj using Relation.ReflTransGen.head_induction_on with
  | refl => exact .refl
  | head hd hrest ih =>
    refine .head ⟨hd.1, fun hk => ?_⟩ ih
    rcases hm _ hk with hb | hn
    · exact hd.2 hb
    · exact hn ⟨j, hrest, htargets⟩

/-- Targets need no blocking: a chain may be cut where it first comes to one. -/
theorem ReturnsTo.or_mem_iff {extra : List Nat} (hs : extra ⊆ targets) :
    ReturnsTo deps (fun k => blocked k ∨ k ∈ extra) i targets ↔
      ReturnsTo deps blocked i targets := by
  constructor
  · exact ReturnsTo.mono fun k => .inl
  · rintro ⟨j, hj, hk⟩
    rcases hj.or_returnsTo extra with hj | ⟨j, hj, k, hk, hd⟩
    · exact ⟨j, hj, hk⟩
    · exact ⟨j, hj, k, hs hk, hd⟩

theorem ReturnsTo.exists_closes (h : ReturnsTo deps blocked i targets) :
    ∃ d ∈ deps i, Closes deps (fun k => blocked k ∨ k = i) targets d := by
  obtain ⟨j, hj, k, hk, hd⟩ := h
  rcases hj.cases_first with rfl | ⟨d, hdi, hdb, hj⟩
  · exact ⟨k, hd, .inl hk⟩
  · exact ⟨d, hdi, .inr ⟨hdb, j, hj, k, hk, hd⟩⟩

theorem Closes.returnsTo (h : Closes deps blocked targets j) (hd : j ∈ deps i) :
    ReturnsTo deps blocked i targets := by
  rcases h with h | ⟨hb, k, hk, ht⟩
  · exact ⟨i, .refl, j, h, hd⟩
  · exact ⟨k, .head ⟨hd, hb⟩ hk, ht⟩

theorem Closes.mono (hs : ∀ k, fewer k → blocked k) (h : Closes deps blocked targets i) :
    Closes deps fewer targets i :=
  h.imp_right fun ⟨hb, hr⟩ => ⟨fun hm => hb (hs i hm), hr.mono hs⟩

theorem Closes.of_not_returns {more : Nat → Prop} (h : Closes deps blocked targets i)
    (hm : ∀ k, more k → blocked k ∨ ¬ReturnsTo deps blocked k targets) :
    Closes deps more targets i := by
  refine h.imp_right fun ⟨hb, hr⟩ => ⟨fun hi => ?_, hr.of_not_returns hm⟩
  rcases hm i hi with hb' | hn
  · exact hb hb'
  · exact hn hr

end FlatBundle
