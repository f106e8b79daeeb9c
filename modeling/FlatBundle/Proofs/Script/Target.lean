import FlatBundle.Proofs.Script.Layout
import FlatBundle.Script.Target

/-!
What an expression and the target that it is taken as have in common.
-/

namespace FlatBundle.Script

/-- The kinds of nodes that literals are made of, and the targets that literals are taken as. -/
def Kind.groups : Kind → Bool
  | .array | .object | .member _ | .memberDefault | .spread | .hole | .assignment _ => true
  | .arrayTarget | .objectTarget | .targetMember | .targetShorthand | .targetDefault | .targetRest => true
  | _ => false

theorem Kind.not_isSite_of_groups {kind : Kind} (h : kind.groups) : kind.isSite = false := by
  cases kind <;> first | rfl | cases h

/-- A relation of lists of nodes that goes through nodes one by one, and through groups to what is in
them. -/
structure GoesThrough (R : List Node → List Node → Prop) : Prop where
  refl : ∀ ns, R ns ns
  drop : ∀ ns, R ns []
  cons : ∀ {n n' ns ns'}, R [n] [n'] → R ns ns' → R (n :: ns) (n' :: ns')
  node : ∀ {kind kind' : Kind} {span : Span} {ns ns' : List Node}, kind.groups → kind'.groups →
    R ns ns' → R [.mk kind span ns] [.mk kind' span ns']

variable {R : List Node → List Node → Prop}

/-- Taken as a target, an expression is related to what it was. -/
theorem GoesThrough.targets (hR : GoesThrough R) :
    (∀ n n' taken, asTarget? n = some (n', taken) → R [n] [n']) ∧
      (∀ ns ns' taken, memberTargets? ns = some (ns', taken) → R ns ns') ∧
      (∀ n n' taken, asElement? n = some (n', taken) → R [n] [n']) ∧
      ∀ ns ns' taken, itemTargets? ns = some (ns', taken) → R ns ns' := by
  refine asTarget?.mutual_induct _ _ _ _ ?_ ?_ ?_ ?_ ?_ ?_ ?_ ?_ ?_ ?_ ?_ ?_ ?_ ?_ ?_ ?_ ?_ ?_ ?_
  · intro span items ih n' taken h
    rw [asTarget?] at h
    obtain ⟨⟨_, _⟩, hitems, h⟩ := Option.bind_eq_some_iff.mp h
    cases h
    exact hR.node rfl rfl (ih _ _ hitems)
  · intro span members ih n' taken h
    rw [asTarget?] at h
    obtain ⟨⟨_, _⟩, hmembers, h⟩ := Option.bind_eq_some_iff.mp h
    cases h
    exact hR.node rfl rfl (ih _ _ hmembers)
  · intro kind span children harray hobject hsimple n' taken h
    rw [asTarget?.eq_3 kind span children harray hobject, if_pos hsimple] at h
    cases h
    exact hR.refl _
  · intro kind span children harray hobject hsimple n' taken h
    rw [asTarget?.eq_3 kind span children harray hobject, if_neg hsimple] at h
    cases h
  · intro ns' taken h
    rw [memberTargets?] at h
    cases h
    exact hR.refl _
  · intro span name members ih ns' taken h
    rw [memberTargets?] at h
    obtain ⟨⟨_, _⟩, hmembers, h⟩ := Option.bind_eq_some_iff.mp h
    cases h
    exact hR.cons (hR.node rfl rfl (hR.refl _)) (ih _ _ hmembers)
  · intro span name value members ih ns' taken h
    rw [memberTargets?] at h
    obtain ⟨⟨_, _⟩, hmembers, h⟩ := Option.bind_eq_some_iff.mp h
    cases h
    exact hR.cons (hR.node rfl rfl (hR.refl _)) (ih _ _ hmembers)
  · intro span value members ihvalue ih ns' taken h
    rw [memberTargets?] at h
    obtain ⟨⟨_, _⟩, hvalue, h⟩ := Option.bind_eq_some_iff.mp h
    obtain ⟨⟨_, _⟩, hmembers, h⟩ := Option.bind_eq_some_iff.mp h
    cases h
    exact hR.cons (hR.node rfl rfl (hR.cons (ihvalue _ _ hvalue) (hR.refl _))) (ih _ _ hmembers)
  · intro span key value members ihvalue ih ns' taken h
    rw [memberTargets?] at h
    obtain ⟨⟨_, _⟩, hvalue, h⟩ := Option.bind_eq_some_iff.mp h
    obtain ⟨⟨_, _⟩, hmembers, h⟩ := Option.bind_eq_some_iff.mp h
    cases h
    exact hR.cons (hR.node rfl rfl (hR.cons (hR.refl _) (hR.cons (ihvalue _ _ hvalue) (hR.refl _)))) (ih _ _ hmembers)
  · intro span n members hlast ns' taken h
    rw [memberTargets?, if_pos hlast] at h
    cases h
  · intro span n members hlast ns' taken h
    rw [memberTargets?, if_neg hlast] at h
    cases h
    exact hR.cons (hR.node rfl rfl (hR.refl _)) (hR.drop _)
  · intro ns hnil hshort hdefault hvalue hkey hspread ns' taken h
    rw [memberTargets?.eq_7 ns hnil hshort hdefault hvalue hkey hspread] at h
    cases h
  · intro span target value n' taken h
    rw [asElement?] at h
    cases h
    exact hR.node rfl rfl (hR.refl _)
  · intro n hn ih n' taken h
    rw [asElement?.eq_2 n hn] at h
    exact ih _ _ h
  · intro ns' taken h
    rw [itemTargets?] at h
    cases h
    exact hR.refl _
  · intro span children items ih ns' taken h
    rw [itemTargets?] at h
    obtain ⟨⟨_, _⟩, hitems, h⟩ := Option.bind_eq_some_iff.mp h
    cases h
    exact hR.cons (hR.node rfl rfl (hR.drop _)) (ih _ _ hitems)
  · intro span n items hlast ns' taken h
    rw [itemTargets?, if_pos hlast] at h
    cases h
  · intro span n items hlast ih ns' taken h
    rw [itemTargets?, if_neg hlast] at h
    obtain ⟨⟨_, _⟩, htarget, h⟩ := Option.bind_eq_some_iff.mp h
    cases h
    exact hR.cons (hR.node rfl rfl (hR.cons (ih _ _ htarget) (hR.refl _))) (hR.drop _)
  · intro n items hhole hspread ihn ih ns' taken h
    rw [itemTargets?.eq_4 n items hhole hspread] at h
    obtain ⟨⟨_, _⟩, htarget, h⟩ := Option.bind_eq_some_iff.mp h
    obtain ⟨⟨_, _⟩, hitems, h⟩ := Option.bind_eq_some_iff.mp h
    cases h
    exact hR.cons (ihn _ _ htarget) (ih _ _ hitems)

end FlatBundle.Script
