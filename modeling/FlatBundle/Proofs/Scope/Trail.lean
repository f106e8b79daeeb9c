import FlatBundle.Proofs.Scope.BothWays

/-!
The scope that each visit on the way through a script happens in.
-/

namespace FlatBundle

/-- The open scopes from the inside out, and the scope that opens next. -/
structure Trail where
  stack : List Nat
  next : Nat

namespace Trail

def start : Trail :=
  ⟨[ScopeTree.wrapperScope], ScopeTree.programScope⟩

def current (tr : Trail) : Nat :=
  tr.stack.headD ScopeTree.wrapperScope

def step (tr : Trail) : Visit → Trail
  | .enter _ => ⟨tr.next :: tr.stack, tr.next + 1⟩
  | .leave => { tr with stack := tr.stack.tail }
  | .declare _ _ _ _ | .refer _ _ _ _ | .call _ => tr

def after (tr : Trail) (vs : List Visit) : Trail :=
  vs.foldl step tr

/-- Visits with the scope that each of them happens in. -/
def locate (tr : Trail) : List Visit → List (Nat × Visit)
  | [] => []
  | v :: vs => (tr.current, v) :: (tr.step v).locate vs

variable {tr : Trail} {vs ws : List Visit} {v : Visit}

theorem after_append : tr.after (vs ++ ws) = (tr.after vs).after ws :=
  List.foldl_append ..

theorem locate_append : tr.locate (vs ++ ws) = tr.locate vs ++ (tr.after vs).locate ws := by
  induction vs generalizing tr with
  | nil => rfl
  | cons v vs ih =>
    rw [List.cons_append, locate, locate, ih]
    rfl

theorem mem_of_mem_locate {at_ : Nat} (h : (at_, v) ∈ tr.locate vs) : v ∈ vs := by
  induction vs generalizing tr with
  | nil => cases h
  | cons w vs ih =>
    rw [locate] at h
    rcases List.mem_cons.mp h with heq | h
    · exact (Prod.mk.inj heq).2 ▸ List.mem_cons_self ..
    · exact List.mem_cons_of_mem _ (ih h)

/-- Only scopes that have been opened are open. -/
def Opened (tr : Trail) : Prop :=
  0 < tr.next ∧ ∀ s ∈ tr.stack, s < tr.next

theorem opened_start : start.Opened := by
  simp [Opened, start, ScopeTree.wrapperScope, ScopeTree.programScope]

theorem Opened.current_lt (h : tr.Opened) : tr.current < tr.next := by
  obtain ⟨hpos, hstack⟩ := h
  unfold current
  cases hs : tr.stack with
  | nil => exact hpos
  | cons s stack => exact hstack s (hs ▸ List.mem_cons_self ..)

theorem Opened.step (h : tr.Opened) : (tr.step v).Opened := by
  obtain ⟨hpos, hstack⟩ := h
  cases v with
  | enter kind =>
    refine ⟨Nat.succ_pos _, fun s hs => ?_⟩
    rcases List.mem_cons.mp hs with rfl | hs
    · exact Nat.lt_succ_self _
    · exact Nat.lt_succ_of_lt (hstack s hs)
  | leave => exact ⟨hpos, fun s hs => hstack s (List.mem_of_mem_tail hs)⟩
  | declare | refer | call => exact ⟨hpos, hstack⟩

end Trail

/-- Visits that neither open nor close scopes. -/
def Flat (vs : List Visit) : Prop :=
  ∀ v ∈ vs, ∀ tr : Trail, tr.step v = tr

theorem Flat.single {v : Visit} (h : ∀ tr : Trail, tr.step v = tr) : Flat [v] :=
  List.forall_mem_singleton.mpr h

theorem Flat.locate {vs : List Visit} (h : Flat vs) (tr : Trail) :
    tr.after vs = tr ∧ ∀ e ∈ tr.locate vs, e.1 = tr.current := by
  induction vs with
  | nil => exact ⟨rfl, nofun⟩
  | cons v vs ih =>
    obtain ⟨hv, hvs⟩ := List.forall_mem_cons.mp h
    obtain ⟨hafter, hplaces⟩ := ih hvs
    have hstep : tr.after (v :: vs) = tr.after vs := congrArg (·.after vs) (hv tr)
    refine ⟨hstep.trans hafter, fun e he => ?_⟩
    rw [Trail.locate, hv tr] at he
    rcases List.mem_cons.mp he with rfl | he
    · rfl
    · exact hplaces e he

/-- Visits that close the scopes they open and no others. -/
def Balanced (vs : List Visit) : Prop :=
  ∀ tr : Trail, (tr.after vs).stack = tr.stack ∧ tr.next ≤ (tr.after vs).next ∧
    ∀ e ∈ tr.locate vs, e.1 = tr.current ∨ tr.next ≤ e.1

namespace Balanced

variable {vs ws : List Visit} {v : Visit} {kind : ScopeKind}

theorem nil : Balanced [] :=
  fun _ => ⟨rfl, Nat.le_refl _, nofun⟩

theorem append (h : Balanced vs) (h' : Balanced ws) : Balanced (vs ++ ws) := by
  intro tr
  obtain ⟨hstack, hnext, hplaces⟩ := h tr
  obtain ⟨hstack', hnext', hplaces'⟩ := h' (tr.after vs)
  have hcurrent : (tr.after vs).current = tr.current := by
    rw [Trail.current, hstack, Trail.current]
  rw [Trail.after_append, Trail.locate_append]
  refine ⟨hstack'.trans hstack, Nat.le_trans hnext hnext', fun e he => ?_⟩
  rcases List.mem_append.mp he with he | he
  · exact hplaces e he
  · rcases hplaces' e he with hat | hat
    · exact .inl (hat.trans hcurrent)
    · exact .inr (Nat.le_trans hnext hat)

theorem of_flat (h : Flat vs) : Balanced vs := by
  intro tr
  obtain ⟨hafter, hplaces⟩ := h.locate tr
  rw [hafter]
  exact ⟨rfl, Nat.le_refl _, fun e he => .inl (hplaces e he)⟩

theorem around (h : Balanced vs) : Balanced (.enter kind :: (vs ++ [.leave])) := by
  intro tr
  obtain ⟨hstack, hnext, hplaces⟩ := h (tr.step (.enter kind))
  have hafter : tr.after (.enter kind :: (vs ++ [.leave])) =
      ((tr.step (.enter kind)).after vs).step .leave := by
    rw [Trail.after, List.foldl_cons, List.foldl_append]
    rfl
  have hlast : ((tr.step (.enter kind)).after vs).current = tr.next := by
    rw [Trail.current, hstack]
    rfl
  refine ⟨?_, ?_, fun e he => ?_⟩
  · rw [hafter]
    change ((tr.step (.enter kind)).after vs).stack.tail = tr.stack
    rw [hstack]
    rfl
  · rw [hafter]
    exact Nat.le_of_succ_le hnext
  · rw [Trail.locate, Trail.locate_append] at he
    rcases List.mem_cons.mp he with rfl | he
    · exact .inl rfl
    · rcases List.mem_append.mp he with he | he
      · rcases hplaces e he with hat | hat
        · exact .inr (Nat.le_of_eq hat.symm)
        · exact .inr (Nat.le_of_succ_le hat)
      · obtain rfl := List.mem_singleton.mp he
        exact .inr (Nat.le_of_eq hlast.symm)

end Balanced

theorem flat_ownNameVisits {place : DeclarationPlace} {n : Script.Node} :
    Flat (ownNameVisits place n) := by
  unfold ownNameVisits
  split
  · exact .single fun _ => rfl
  · exact nofun

/-- A node that opens a scope may declare its own name before or after that. -/
theorem entering_cases (path : Path) (n : Script.Node) :
    scopeKind? n.kind = none ∧ Flat (entering path n) ∨
      ∃ kind front back, scopeKind? n.kind = some kind ∧ Flat front ∧ Flat back ∧
        entering path n = front ++ .enter kind :: back := by
  have hown {place : DeclarationPlace} : Flat (ownNameVisits place n) := flat_ownNameVisits
  unfold entering
  split
  case h_1 hk => exact .inr ⟨.function, _, [], by rw [hk]; rfl, hown, nofun, rfl⟩
  case h_2 hk => exact .inr ⟨.function, [], _, by rw [hk]; rfl, nofun, hown, rfl⟩
  case h_3 hk => exact .inr ⟨.classBody, _, [], by rw [hk]; rfl, hown, nofun, rfl⟩
  case h_4 hk => exact .inr ⟨.classBody, [], _, by rw [hk]; rfl, nofun, hown, rfl⟩
  case h_5 hk =>
    refine .inl ⟨by rw [hk]; rfl, ?_⟩
    split
    · exact nofun
    · exact .single fun _ => rfl
  case h_6 hk => exact .inl ⟨by rw [hk]; rfl, .single fun _ => rfl⟩
  case h_7 hk =>
    refine .inl ⟨by rw [hk]; rfl, ?_⟩
    cases callSite? path n with
    | none => exact nofun
    | some site => exact .single fun _ => rfl
  case h_8 =>
    cases hkind : scopeKind? n.kind with
    | none => exact .inl ⟨rfl, nofun⟩
    | some kind => exact .inr ⟨kind, [], [], rfl, nofun, nofun, rfl⟩

/-- What happens on the way through the children of a node stands between what happens on entering and
on leaving it. -/
theorem Balanced.within {path : Path} {n : Script.Node} {vs : List Visit} (h : Balanced vs) :
    Balanced (entering path n ++ vs ++ leaving n) := by
  rcases entering_cases path n with ⟨hnone, hentering⟩ | ⟨kind, front, back, hsome, hfront, hback, heq⟩
  · have hleaving : leaving n = [] := by rw [leaving, hnone]; rfl
    rw [hleaving, List.append_nil]
    exact (Balanced.of_flat hentering).append h
  · have hleaving : leaving n = [.leave] := by rw [leaving, hsome]; rfl
    have hinner : Balanced (.enter kind :: (back ++ vs ++ [.leave])) :=
      ((Balanced.of_flat hback).append h).around
    have hall := (Balanced.of_flat hfront).append hinner
    rw [heq, hleaving]
    simpa using hall

mutual

theorem balanced_visits (path : Path) : (n : Script.Node) → Balanced (visits path n)
  | .mk kind span children => by
    rw [visits]
    exact (balanced_childVisits path (.mk kind span children) 0 children).within

theorem balanced_childVisits (path : Path) (parent : Script.Node) (position : Nat) :
    (ns : List Script.Node) → Balanced (childVisits path parent position ns)
  | [] => .nil
  | n :: rest => by
    rw [childVisits]
    exact (balanced_visits _ n).append (balanced_childVisits path parent (position + 1) rest)

end

/-- What happens on the way through a script, and in which scopes. -/
def Script.Program.visited (p : Script.Program) : List (Nat × Visit) :=
  Trail.start.locate (visits [] p.tree)

/-- A script happens in the scope of its program, but for its opening. -/
theorem Script.Program.exists_visits {p : Script.Program} (h : p.tree.kind = .program) :
    ∃ vs, visits [] p.tree = .enter .program :: vs ∧
      ∀ e ∈ (Trail.start.step (.enter .program)).locate vs, ScopeTree.programScope ≤ e.1 := by
  obtain ⟨⟨kind, span, children⟩, lineComments⟩ := p
  obtain rfl : kind = .program := h
  let tr := Trail.start.step (.enter .program)
  let vs := childVisits [] (.mk .program span children) 0 children
  have heq : visits [] (.mk .program span children) = .enter .program :: (vs ++ [.leave]) := by
    rw [visits]
    rfl
  obtain ⟨hstack, -, hplaces⟩ : _ ∧ _ ∧ ∀ e ∈ tr.locate vs, e.1 = tr.current ∨ tr.next ≤ e.1 :=
    balanced_childVisits [] (.mk .program span children) 0 children tr
  refine ⟨vs ++ [.leave], heq, fun e he => ?_⟩
  rw [Trail.locate_append] at he
  rcases List.mem_append.mp he with he | he
  · rcases hplaces e he with hat | hat
    · exact Nat.le_of_eq hat.symm
    · exact Nat.le_of_succ_le hat
  · obtain rfl := List.mem_singleton.mp he
    have hcurrent : (tr.after vs).current = ScopeTree.programScope := by
      rw [Trail.current, hstack]
      rfl
    exact Nat.le_of_eq hcurrent.symm

end FlatBundle
