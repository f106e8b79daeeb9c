import FlatBundle.Proofs.Scope.Spots

/-!
The way that looks names up only counts the scopes it comes by. It counts them as the way that declares names made them.
-/

namespace FlatBundle

open Script (Node)

variable {root n : Node} {path : Path} {onEntering : Path → Node → List Visit} {keep : Visit → Bool} {tr : Trail}
  {vs : List Visit}

/-- What happens on a way through a script before it comes to the node that a path leads to. -/
def visitsBefore (onEntering : Path → Node → List Visit) : Path → List Visit
  | [] => []
  | ⟨parent, k⟩ :: outer =>
    visitsBefore onEntering outer ++ onEntering outer parent ++
      childVisitsBy onEntering outer parent 0 (parent.children.take k)

theorem childVisitsBy_append (path : Path) (parent : Node) (position : Nat) (ns ms : List Node) :
    childVisitsBy onEntering path parent position (ns ++ ms) =
      childVisitsBy onEntering path parent position ns ++
        childVisitsBy onEntering path parent (position + ns.length) ms := by
  induction ns generalizing position with
  | nil => rw [childVisitsBy]; rfl
  | cons n ns ih =>
    rw [List.cons_append, childVisitsBy, childVisitsBy, ih, List.append_assoc, List.length_cons, Nat.add_assoc,
      Nat.add_comm 1]

/-- A way comes to each node after what happens before it. -/
theorem PathTo.exists_visitsBy (h : PathTo root path n) :
    ∃ rest, visitsBy onEntering [] root = visitsBefore onEntering path ++ visitsBy onEntering path n ++ rest := by
  induction h with
  | root => exact ⟨[], (List.append_nil _).symm⟩
  | @child path parent n k _ hk ih =>
    obtain ⟨rest, hrest⟩ := ih
    obtain ⟨kind, span, children⟩ := parent
    have hk : children[k]? = some n := hk
    obtain ⟨hlt, hget⟩ := List.getElem?_eq_some_iff.mp hk
    have hsplit : children = children.take k ++ n :: children.drop (k + 1) := by
      rw [← hget, List.getElem_cons_drop, List.take_append_drop]
    have hlength : (children.take k).length = k := List.length_take_of_le hlt.le
    have hchildren := @childVisitsBy_append onEntering path (.mk kind span children) 0
      (children.take k) (n :: children.drop (k + 1))
    rw [← hsplit, hlength, Nat.zero_add, childVisitsBy] at hchildren
    rw [hrest, visitsBy, hchildren, visitsBefore]
    exact ⟨childVisitsBy onEntering path (.mk kind span children) (k + 1) (children.drop (k + 1)) ++
      leaving (.mk kind span children) ++ rest, by simp [Node.children]⟩

theorem PathTo.exists_onEntering (h : PathTo root path n) :
    ∃ rest, visitsBy onEntering [] root = visitsBefore onEntering path ++ onEntering path n ++ rest := by
  obtain ⟨rest, hrest⟩ := @exists_visitsBy root n path onEntering h
  obtain ⟨kind, span, children⟩ := n
  rw [visitsBy] at hrest
  exact ⟨_, by rw [hrest, List.append_assoc, List.append_assoc, List.append_assoc, List.append_assoc]⟩

/-- A way that takes notice of the scopes. -/
structure SeesScopes (onEntering : Path → Node → List Visit) (keep : Visit → Bool) : Prop where
  entering : ∀ path n, onEntering path n = (entering path n).filter keep
  leave : keep .leave
  unnoticed : ∀ v, keep v = false → ∀ tr : Trail, tr.step v = tr

theorem seesScopes_declaredOnEntering : SeesScopes declaredOnEntering (!·.isUse) where
  entering := declaredOnEntering_eq
  leave := rfl
  unnoticed v hv tr := by cases v <;> first | rfl | cases hv

theorem seesScopes_usedOnEntering : SeesScopes usedOnEntering (!·.isDeclaration) where
  entering := usedOnEntering_eq
  leave := rfl
  unnoticed v hv tr := by cases v <;> first | rfl | cases hv

namespace SeesScopes

theorem after_filter (h : SeesScopes onEntering keep) : tr.after (vs.filter keep) = tr.after vs :=
  foldl_filter_of_unnoticed (fun tr v hv => h.unnoticed v hv tr) tr vs

/-- On entering a node the scope of its kind opens, if there is one. -/
theorem after_onEntering (h : SeesScopes onEntering keep) (path : Path) (n : Node) :
    tr.after (onEntering path n) = ⟨(scopeKind? n.kind).toList.map (fun _ => tr.next) ++ tr.stack,
      tr.next + (scopeKind? n.kind).toList.length⟩ := by
  rw [h.entering, h.after_filter, after_entering]

theorem after_visitsBy (h : SeesScopes onEntering keep) (path : Path) (n : Node) :
    tr.after (visitsBy onEntering path n) = ⟨tr.stack, tr.next + scopeCount n⟩ := by
  rw [visitsBy_eq_filter h.entering h.leave, h.after_filter, after_visits]

theorem after_childVisitsBy (h : SeesScopes onEntering keep) (path : Path) (parent : Node) (position : Nat)
    (ns : List Node) :
    tr.after (childVisitsBy onEntering path parent position ns) = ⟨tr.stack, tr.next + scopeCounts ns⟩ := by
  rw [childVisitsBy_eq_filter h.entering h.leave, h.after_filter, after_childVisits]

/-- Ways that take notice of the scopes come to each node with the same ones open. -/
theorem after_visitsBefore {onEntering' : Path → Node → List Visit} {keep' : Visit → Bool}
    (h : SeesScopes onEntering keep) (h' : SeesScopes onEntering' keep') (path : Path) :
    tr.after (visitsBefore onEntering path) = tr.after (visitsBefore onEntering' path) := by
  induction path with
  | nil => rfl
  | cons f outer ih =>
    rw [visitsBefore, visitsBefore, Trail.after_append, Trail.after_append, Trail.after_append, Trail.after_append,
      ih, h.after_onEntering, h'.after_onEntering, h.after_childVisitsBy, h'.after_childVisitsBy]

/-- The scope that opens on entering a node is one of its kind in the tree. -/
theorem opened_of_opens {t : ScopeTree} {kind : ScopeKind} (h : SeesScopes onEntering keep)
    (hopens : t.Opens tr (onEntering path n)) (hk : scopeKind? n.kind = some kind) :
    (t.scope tr.next).parent = some tr.current ∧ (t.scope tr.next).kind = kind := by
  rcases entering_cases path n with ⟨hnone, -⟩ | ⟨kind', front, back, hsome, hfront, -, heq⟩
  · cases hnone.symm.trans hk
  · obtain rfl : kind' = kind := Option.some.inj (hsome.symm.trans hk)
    have hkeep : keep (.enter kind') = true := by
      by_contra hkeep
      have hnext := congrArg Trail.next (h.unnoticed _ (Bool.eq_false_of_not_eq_true hkeep) tr)
      exact Nat.succ_ne_self _ hnext
    have hflat : Flat (front.filter keep) := fun v hv => hfront v (List.mem_of_mem_filter hv)
    rw [h.entering, heq, List.filter_append, List.filter_cons_of_pos hkeep, ScopeTree.opens_append,
      (hflat.locate tr).1] at hopens
    exact hopens.2.1 kind' rfl

end SeesScopes

/-- The way that declares names, after some visits. -/
def declaringAfter (vs : List Visit) : Declaring :=
  vs.foldl Declaring.step ⟨ScopeTree.initial, [ScopeTree.wrapperScope]⟩

theorem follows_declaringAfter : (declaringAfter vs).Follows (Trail.start.after vs) :=
  Declaring.Follows.start.foldl

theorem same_resolveAll (vs ws : List Visit) : (declareAll vs).SameNames (resolveAll (declareAll vs) ws).tree :=
  (resolvedBy_resolveAll (declaredBy_declareAll vs).sound).same

/-- The way that looks names up comes to a node with the scopes that the way that declares them has open there. -/
theorem follows_usedBefore {tree : ScopeTree} (path : Path) :
    (resolveAll tree (visitsBefore usedOnEntering path)).Follows
      (Trail.start.after (visitsBefore declaredOnEntering path)) :=
  seesScopes_usedOnEntering.after_visitsBefore seesScopes_declaredOnEntering path ▸ follows_resolveAll

theorem follows_usedEntered {tree : ScopeTree} (path : Path) (n : Node) :
    (resolveAll tree (visitsBefore usedOnEntering path ++ usedOnEntering path n)).Follows
      (Trail.start.after (visitsBefore declaredOnEntering path ++ declaredOnEntering path n)) := by
  have hentered : Trail.start.after (visitsBefore usedOnEntering path ++ usedOnEntering path n) =
      Trail.start.after (visitsBefore declaredOnEntering path ++ declaredOnEntering path n) := by
    rw [Trail.after_append, Trail.after_append, seesScopes_usedOnEntering.after_onEntering,
      seesScopes_declaredOnEntering.after_onEntering,
      seesScopes_usedOnEntering.after_visitsBefore seesScopes_declaredOnEntering]
  exact hentered ▸ follows_resolveAll

/-- The finished tree has the scope that opens at a node. -/
theorem PathTo.opens_declaredOnEntering (h : PathTo root path n) :
    (declareAll (visitsBy declaredOnEntering [] root)).Opens
      (Trail.start.after (visitsBefore declaredOnEntering path)) (declaredOnEntering path n) := by
  obtain ⟨rest, hrest⟩ := @PathTo.exists_onEntering root n path declaredOnEntering h
  have hall := opens_declareAll (visitsBy declaredOnEntering [] root)
  generalize declareAll (visitsBy declaredOnEntering [] root) = tree at hall ⊢
  rw [hrest, ScopeTree.opens_append, ScopeTree.opens_append] at hall
  exact hall.1.2

/-- At each node of a script, before it is entered and after that, the same scopes are open on the way that looks names
up as on the one that declares them. What it takes for the scope of the node is one that was made for a node of its
kind, inside of the scope that is open there, and in the end it has come by all scopes that there are. -/
theorem scopes_replayed (p : Script.Program) :
    let declared := visitsBy declaredOnEntering [] p.tree
    let used := visitsBy usedOnEntering [] p.tree
    let tree := declareAll declared
    (∀ path n, PathTo p.tree path n →
      let before := visitsBefore declaredOnEntering path
      let before' := visitsBefore usedOnEntering path
      let entered := before ++ declaredOnEntering path n
      let entered' := before' ++ usedOnEntering path n
      let r := resolveAll tree before'
      let r' := resolveAll tree entered'
      (∃ rest, declared = entered ++ rest) ∧ (∃ rest, used = entered' ++ rest) ∧
      r.stack = (declaringAfter before).stack ∧ r'.stack = (declaringAfter entered).stack ∧
      r.next = (declaringAfter before).tree.scopes.size ∧ r'.next = (declaringAfter entered).tree.scopes.size ∧
      match scopeKind? n.kind with
      | some kind => r'.stack = r.next :: r.stack ∧ (r'.tree.scope r.next).kind = kind ∧
        (r'.tree.scope r.next).parent = some r.current
      | none => r'.stack = r.stack) ∧
    (resolveAll tree used).stack = [ScopeTree.wrapperScope] ∧
    (resolveAll tree used).next = (resolveAll tree used).tree.scopes.size := by
  intro declared used tree
  have hdeclared := seesScopes_declaredOnEntering
  have hend : Trail.start.after used = Trail.start.after declared := by
    rw [seesScopes_usedOnEntering.after_visitsBy, hdeclared.after_visitsBy]
  refine ⟨fun path n hn => ?_, ?_, ?_⟩
  · intro before before' entered entered' r r'
    have hr : r.Follows (Trail.start.after before) := follows_usedBefore path
    have hr' : r'.Follows (Trail.start.after entered) := follows_usedEntered path n
    have hd := @follows_declaringAfter before
    have hd' := @follows_declaringAfter entered
    refine ⟨hn.exists_onEntering, hn.exists_onEntering, hr.stack.trans hd.stack.symm, hr'.stack.trans hd'.stack.symm,
      hr.next.trans hd.size.symm, hr'.next.trans hd'.size.symm, ?_⟩
    have hstack : r'.stack = (scopeKind? n.kind).toList.map (fun _ => r.next) ++ r.stack := by
      rw [hr'.stack, hr.stack, hr.next, Trail.after_append, hdeclared.after_onEntering]
    cases hk : scopeKind? n.kind with
    | none =>
      rw [hk] at hstack
      exact hstack
    | some kind =>
      rw [hk] at hstack
      obtain ⟨hparent, hkind⟩ := hdeclared.opened_of_opens hn.opens_declaredOnEntering hk
      have hsame := same_resolveAll declared entered'
      refine ⟨hstack, ?_, ?_⟩
      · rw [hsame.kind, hr.next, hkind]
      · rw [hsame.parent, hr.next, hparent, hr.current]
  · rw [follows_resolveAll.stack, hend, hdeclared.after_visitsBy]
    rfl
  · rw [(same_resolveAll declared used).size, follows_resolveAll.next, hend]
    exact follows_declaringAfter.size.symm

end FlatBundle
