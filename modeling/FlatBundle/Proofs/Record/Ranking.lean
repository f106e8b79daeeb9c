import FlatBundle.Link.Order

/-!
The order of ids and the wish for a place put records with distinct ids in a single order.
-/

namespace FlatBundle

namespace ModuleId

variable {a b c : ModuleId}

theorem le_trans (hab : a.le b) (hbc : b.le c) : a.le c := by
  cases a <;> cases b <;> cases c <;> simp only [le, decide_eq_true_eq] at * <;>
    first
    | exact Nat.le_trans hab hbc
    | exact String.le_trans hab hbc
    | trivial

theorem le_total (a b : ModuleId) : a.le b ∨ b.le a := by
  cases a <;> cases b <;> simp only [le, decide_eq_true_eq]
  · exact Nat.le_total _ _
  · exact .inl trivial
  · exact .inr trivial
  · exact String.le_total _ _

theorem le_antisymm (hab : a.le b) (hba : b.le a) : a = b := by
  cases a <;> cases b <;> simp only [le, decide_eq_true_eq] at *
  · exact congrArg number (Nat.le_antisymm hab hba)
  · cases hba
  · cases hab
  · exact congrArg name (String.le_antisymm hab hba)

end ModuleId

namespace Record

variable {a b c : Record}

/-- The order among entries, and among the other modules. -/
def PlaceLe (a b : Record) : Prop :=
  match a.order, b.order with
  | some x, some y => x.key < y.key ∨ x.key = y.key ∧ a.id.le b.id
  | some _, none => True
  | none, some _ => False
  | none, none => a.id.le b.id

theorem le_iff : a.le b ↔ a.entry ∧ ¬b.entry ∨ a.entry = b.entry ∧ a.PlaceLe b := by
  have hplace : a.entry = b.entry → (a.le b ↔ a.PlaceLe b) := by
    intro h
    unfold Record.le PlaceLe
    rw [if_neg (by simp [h])]
    cases a.order <;> cases b.order <;> simp
  by_cases h : a.entry = b.entry
  · simp [hplace h, h]
  · have hle : a.le b = a.entry := by
      unfold Record.le
      rw [if_pos (by simpa using h)]
    cases hb : b.entry <;> simp_all

theorem PlaceLe.trans (hab : a.PlaceLe b) (hbc : b.PlaceLe c) : a.PlaceLe c := by
  unfold PlaceLe at *
  cases ha : a.order <;> cases hb : b.order <;> cases hc : c.order <;>
    simp only [ha, hb, hc] at hab hbc ⊢
  · exact ModuleId.le_trans hab hbc
  · rcases hab with hab | ⟨hab, hida⟩ <;> rcases hbc with hbc | ⟨hbc, hidb⟩
    · exact .inl (Int.lt_trans hab hbc)
    · exact .inl (hbc ▸ hab)
    · exact .inl (hab ▸ hbc)
    · exact .inr ⟨hab.trans hbc, ModuleId.le_trans hida hidb⟩

theorem placeLe_total (a b : Record) : a.PlaceLe b ∨ b.PlaceLe a := by
  unfold PlaceLe
  cases a.order <;> cases b.order <;> simp only
  · exact ModuleId.le_total _ _
  · exact .inr trivial
  · exact .inl trivial
  · rename_i x y
    rcases Int.lt_trichotomy x.key y.key with h | h | h
    · exact .inl (.inl h)
    · exact (ModuleId.le_total a.id b.id).imp (fun hid => .inr ⟨h, hid⟩)
        fun hid => .inr ⟨h.symm, hid⟩
    · exact .inr (.inl h)

theorem PlaceLe.id_eq (hab : a.PlaceLe b) (hba : b.PlaceLe a) : a.id = b.id := by
  unfold PlaceLe at *
  cases ha : a.order <;> cases hb : b.order <;> simp only [ha, hb] at hab hba
  · exact ModuleId.le_antisymm hab hba
  · rcases hab with hab | ⟨hab, hida⟩ <;> rcases hba with hba | ⟨hba, hidb⟩
    · omega
    · omega
    · omega
    · exact ModuleId.le_antisymm hida hidb

theorem le_trans (a b c : Record) (hab : a.le b) (hbc : b.le c) : a.le c := by
  rw [le_iff] at *
  rcases hab with ⟨ha, hb⟩ | ⟨hab, hplace⟩
  · rcases hbc with ⟨hb', -⟩ | ⟨hbc, -⟩
    · exact absurd hb' hb
    · exact .inl ⟨ha, hbc ▸ hb⟩
  · rcases hbc with ⟨hb, hc⟩ | ⟨hbc, hplace'⟩
    · exact .inl ⟨hab ▸ hb, hc⟩
    · exact .inr ⟨hab.trans hbc, hplace.trans hplace'⟩

theorem le_total (a b : Record) : (a.le b || b.le a) = true := by
  rw [Bool.or_eq_true, le_iff, le_iff]
  by_cases h : a.entry = b.entry
  · exact (placeLe_total a b).imp (fun hab => .inr ⟨h, hab⟩) fun hba => .inr ⟨h.symm, hba⟩
  · cases ha : a.entry <;> cases hb : b.entry <;> simp_all

/-- Only records with one id can each go before the other. -/
theorem id_eq_of_le (hab : a.le b) (hba : b.le a) : a.id = b.id := by
  rw [le_iff] at *
  rcases hab with ⟨ha, hb⟩ | ⟨heq, hab⟩
  · rcases hba with ⟨hb', -⟩ | ⟨heq, -⟩
    · exact absurd hb' hb
    · exact absurd (heq ▸ ha) hb
  · rcases hba with ⟨hb, ha⟩ | ⟨-, hba⟩
    · exact absurd (heq ▸ hb) ha
    · exact hab.id_eq hba

end Record

end FlatBundle
