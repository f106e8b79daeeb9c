import FlatBundle.Proofs.Scope.Path
import FlatBundle.Proofs.Script.Formed

/-!
The spots of a tree: its nodes in the order in which they are entered, with the scopes that are open
around them.
-/

namespace FlatBundle

open Script (Span Node Kind LaidOut SiteIn sitesOf)

/-- A node with the path to it. The open scopes come from the inside out, and are numbered as they open. -/
structure Spot where
  path : Path
  node : Node
  scopes : List (Nat × ScopeKind)
  /-- The scope that opens next. -/
  next : Nat

/-- The scopes that are open in a node of a kind. -/
def scopesIn (scopes : List (Nat × ScopeKind)) (next : Nat) (kind : Kind) : List (Nat × ScopeKind) :=
  (scopeKind? kind).toList.map (next, ·) ++ scopes

mutual

def scopeCount : Node → Nat
  | .mk kind _ children => (scopeKind? kind).toList.length + scopeCounts children

def scopeCounts : List Node → Nat
  | [] => 0
  | n :: rest => scopeCount n + scopeCounts rest

end

mutual

/-- The spots in a node, itself first. -/
def spotsIn (scopes : List (Nat × ScopeKind)) (next : Nat) (path : Path) : Node → List Spot
  | .mk kind span children =>
    let n := Node.mk kind span children
    ⟨path, n, scopes, next⟩ :: childSpots (scopesIn scopes next kind)
      (next + (scopeKind? kind).toList.length) path n 0 children

def childSpots (scopes : List (Nat × ScopeKind)) (next : Nat) (path : Path) (parent : Node)
    (position : Nat) : List Node → List Spot
  | [] => []
  | n :: rest =>
    spotsIn scopes next (⟨parent, position⟩ :: path) n ++
      childSpots scopes (next + scopeCount n) path parent (position + 1) rest

end

def Script.Program.spots (p : Script.Program) : List Spot :=
  spotsIn [(ScopeTree.wrapperScope, .wrapper)] ScopeTree.programScope [] p.tree

namespace Spot

def trail (e : Spot) : Trail :=
  ⟨e.scopes.map Prod.fst, e.next⟩

/-- The scope around a spot. -/
def current (e : Spot) : Nat :=
  e.trail.current

/-- The scopes that are open in the node. -/
def inside (e : Spot) : List (Nat × ScopeKind) :=
  scopesIn e.scopes e.next e.node.kind

/-- What happens on entering the node, with the scopes that it happens in. -/
def located (e : Spot) : List (Nat × Visit) :=
  e.trail.locate (entering e.path e.node)

end Spot

variable {root n m : Node} {path : Path} {scopes : List (Nat × ScopeKind)} {next : Nat} {e : Spot}
  {t : ScopeTree}

theorem mem_spotsIn_self : ⟨path, n, scopes, next⟩ ∈ spotsIn scopes next path n := by
  obtain ⟨kind, span, children⟩ := n
  rw [spotsIn]
  exact List.mem_cons_self

section Induction

variable {spots : List Spot} {motive : Spot → Prop}

mutual

/-- What holds at a node, and with a spot at those of the children, holds at all spots in the node. -/
theorem forall_spotsIn
    (child : ∀ e ∈ spots, motive e → ∀ k m next, e.node.children[k]? = some m →
      e.next + (scopeKind? e.node.kind).toList.length ≤ next →
        motive ⟨⟨e.node, k⟩ :: e.path, m, e.inside, next⟩)
    (scopes : List (Nat × ScopeKind)) (next : Nat) (path : Path) :
    (n : Node) → spotsIn scopes next path n ⊆ spots → motive ⟨path, n, scopes, next⟩ →
      ∀ e ∈ spotsIn scopes next path n, motive e
  | .mk kind span children, hsub, hn, e, he => by
    have hself : ⟨path, .mk kind span children, scopes, next⟩ ∈ spots := hsub mem_spotsIn_self
    rw [spotsIn] at he hsub
    rcases List.mem_cons.mp he with rfl | he
    · exact hn
    · refine forall_childSpots child _ _ path _ 0 children (List.subset_of_cons_subset hsub)
        (fun k m next' hk hle => ?_) e he
      rw [Nat.zero_add]
      exact child _ hself hn k m next' hk hle

theorem forall_childSpots
    (child : ∀ e ∈ spots, motive e → ∀ k m next, e.node.children[k]? = some m →
      e.next + (scopeKind? e.node.kind).toList.length ≤ next →
        motive ⟨⟨e.node, k⟩ :: e.path, m, e.inside, next⟩)
    (scopes : List (Nat × ScopeKind)) (next : Nat) (path : Path) (parent : Node) (position : Nat) :
    (ns : List Node) → childSpots scopes next path parent position ns ⊆ spots →
      (∀ k m next', ns[k]? = some m → next ≤ next' →
        motive ⟨⟨parent, position + k⟩ :: path, m, scopes, next'⟩) →
      ∀ e ∈ childSpots scopes next path parent position ns, motive e
  | [], _, _, e, he => by
    rw [childSpots] at he
    cases he
  | n :: rest, hsub, hns, e, he => by
    rw [childSpots] at he hsub
    obtain ⟨hfirst, hrest⟩ := List.append_subset.mp hsub
    rcases List.mem_append.mp he with he | he
    · exact forall_spotsIn child _ _ _ n hfirst (hns 0 n next rfl (Nat.le_refl _)) e he
    · refine forall_childSpots child _ _ path parent (position + 1) rest hrest (fun k m next' hk hle => ?_) e he
      have hlater := hns (k + 1) m next' hk (Nat.le_trans (Nat.le_add_right ..) hle)
      rwa [Nat.add_assoc, Nat.add_comm 1 k]

end

/-- What holds of a script, and with a spot at those of the children, holds at all spots. -/
theorem Script.Program.forall_spots {p : Script.Program}
    (root : motive ⟨[], p.tree, [(ScopeTree.wrapperScope, .wrapper)], ScopeTree.programScope⟩)
    (child : ∀ e ∈ p.spots, motive e → ∀ k m next, e.node.children[k]? = some m →
      e.next + (scopeKind? e.node.kind).toList.length ≤ next →
        motive ⟨⟨e.node, k⟩ :: e.path, m, e.inside, next⟩) : ∀ e ∈ p.spots, motive e :=
  forall_spotsIn child _ _ _ p.tree (List.Subset.refl _) root

end Induction

section Trails

theorem after_entering (tr : Trail) : tr.after (entering path n) =
    ⟨(scopeKind? n.kind).toList.map (fun _ => tr.next) ++ tr.stack,
      tr.next + (scopeKind? n.kind).toList.length⟩ := by
  rcases entering_cases path n with ⟨hnone, hflat⟩ | ⟨kind, front, back, hsome, hfront, hback, heq⟩
  · rw [(hflat.locate tr).1, hnone]
    rfl
  · rw [heq, hsome, Trail.after_append, (hfront.locate tr).1]
    exact (hback.locate (tr.step (.enter kind))).1

/-- On entering a node, the scopes that are open in it are open. -/
theorem after_entering_of_open {kind : Kind} {span : Span} {children : List Node} :
    (Trail.mk (scopes.map Prod.fst) next).after (entering path (.mk kind span children)) =
      ⟨(scopesIn scopes next kind).map Prod.fst, next + (scopeKind? kind).toList.length⟩ := by
  rw [after_entering, scopesIn, List.map_append, List.map_map]
  rfl

theorem after_leaving (tr : Trail) : tr.after (leaving n) =
    ⟨tr.stack.drop (scopeKind? n.kind).toList.length, tr.next⟩ := by
  rw [leaving]
  cases scopeKind? n.kind with
  | none => rfl
  | some => rw [Option.toList_some, List.length_singleton, List.drop_one]; rfl

mutual

/-- A node closes the scopes that open in it. -/
theorem after_visits (path : Path) : (n : Node) → ∀ tr : Trail,
    tr.after (visits path n) = ⟨tr.stack, tr.next + scopeCount n⟩
  | .mk kind span children, tr => by
    have hdrop : ((scopeKind? kind).toList.map (fun _ => tr.next) ++ tr.stack).drop
        (scopeKind? kind).toList.length = tr.stack := by
      cases scopeKind? kind <;> rfl
    rw [visits, Trail.after_append, Trail.after_append, after_entering, after_childVisits, after_leaving,
      scopeCount]
    exact congr (congrArg Trail.mk hdrop) (Nat.add_assoc ..)

theorem after_childVisits (path : Path) (parent : Node) (position : Nat) :
    (ns : List Node) → ∀ tr : Trail,
      tr.after (childVisits path parent position ns) = ⟨tr.stack, tr.next + scopeCounts ns⟩
  | [], tr => by
    rw [childVisits, scopeCounts]
    rfl
  | n :: rest, tr => by
    rw [childVisits, Trail.after_append, after_visits, after_childVisits, scopeCounts, Nat.add_assoc]

end

end Trails

section Located

variable {β : Type} {f : Nat × Visit → Option β}

theorem filterMap_leaving (hf : ∀ at_, f (at_, .leave) = none) (tr : Trail) :
    (tr.locate (leaving n)).filterMap f = [] := by
  rw [leaving]
  cases scopeKind? n.kind with
  | none => rfl
  | some => exact List.filterMap_cons_none (hf _)

mutual

/-- Whatever happens in a node but the closing of scopes happens on entering the spots in it, in their order. -/
theorem filterMap_locate_visits (hf : ∀ at_, f (at_, .leave) = none) (scopes : List (Nat × ScopeKind))
    (next : Nat) (path : Path) :
    (n : Node) → ((Trail.mk (scopes.map Prod.fst) next).locate (visits path n)).filterMap f =
      (spotsIn scopes next path n).flatMap fun e => e.located.filterMap f
  | .mk kind span children => by
    rw [visits, Trail.locate_append, Trail.locate_append, List.filterMap_append, List.filterMap_append,
      filterMap_leaving hf, List.append_nil, after_entering_of_open, filterMap_locate_childVisits hf, spotsIn,
      List.flatMap_cons]
    rfl

theorem filterMap_locate_childVisits (hf : ∀ at_, f (at_, .leave) = none)
    (scopes : List (Nat × ScopeKind)) (next : Nat) (path : Path) (parent : Node) (position : Nat) :
    (ns : List Node) →
      ((Trail.mk (scopes.map Prod.fst) next).locate (childVisits path parent position ns)).filterMap f =
        (childSpots scopes next path parent position ns).flatMap fun e => e.located.filterMap f
  | [] => by
    rw [childVisits, childSpots]
    rfl
  | n :: rest => by
    rw [childVisits, Trail.locate_append, List.filterMap_append, filterMap_locate_visits hf, after_visits,
      filterMap_locate_childVisits hf, childSpots, List.flatMap_append]

end

/-- The way through a script goes from spot to spot. -/
theorem Script.Program.filterMap_visited (p : Script.Program) (hf : ∀ at_, f (at_, .leave) = none) :
    p.visited.filterMap f = p.spots.flatMap fun e => e.located.filterMap f :=
  filterMap_locate_visits hf [(ScopeTree.wrapperScope, .wrapper)] ScopeTree.programScope [] p.tree

theorem Script.Program.mem_visited {p : Script.Program} {o : Nat × Visit} (he : e ∈ p.spots)
    (ho : o ∈ e.located) (hv : o.2 ≠ .leave) : o ∈ p.visited := by
  have hmem : o ∈ p.visited.filterMap fun o => if o.2 = .leave then none else some o := by
    rw [p.filterMap_visited fun _ => if_pos rfl]
    exact List.mem_flatMap.mpr ⟨e, he, List.mem_filterMap.mpr ⟨o, ho, if_neg hv⟩⟩
  obtain ⟨o', ho', heq⟩ := List.mem_filterMap.mp hmem
  split at heq
  next => cases heq
  next =>
    cases heq
    exact ho'

/-- A name that stands for something is looked up in the scope around it. -/
theorem Script.Program.mem_visited_refer {p : Script.Program} {name : String} (he : e ∈ p.spots)
    (hn : e.node.kind = .reference name) :
    (e.current, .refer name e.node.span (isShorthandReference e.path) (usage e.path)) ∈ p.visited := by
  have hentering : entering e.path e.node =
      [.refer name e.node.span (isShorthandReference e.path) (usage e.path)] := by
    unfold entering
    rw [hn]
  refine mem_visited he ?_ nofun
  rw [Spot.located, hentering]
  exact List.mem_singleton_self _

end Located

section Paths

mutual

theorem spotsIn_trans (scopes : List (Nat × ScopeKind)) (next : Nat) (path : Path) :
    (n : Node) → e ∈ spotsIn scopes next path n →
      spotsIn e.scopes e.next e.path e.node ⊆ spotsIn scopes next path n
  | .mk kind span children, he => by
    rw [spotsIn] at he
    rcases List.mem_cons.mp he with rfl | he
    · exact List.Subset.refl _
    · rw [spotsIn]
      exact List.subset_cons_of_subset _ (childSpots_trans _ _ path _ 0 children he)

theorem childSpots_trans (scopes : List (Nat × ScopeKind)) (next : Nat) (path : Path) (parent : Node)
    (position : Nat) :
    (ns : List Node) → e ∈ childSpots scopes next path parent position ns →
      spotsIn e.scopes e.next e.path e.node ⊆ childSpots scopes next path parent position ns
  | [], he => by
    rw [childSpots] at he
    cases he
  | n :: rest, he => by
    rw [childSpots] at he ⊢
    rcases List.mem_append.mp he with he | he
    · exact List.subset_append_of_subset_left _ (spotsIn_trans _ _ _ n he)
    · exact List.subset_append_of_subset_right _ (childSpots_trans _ _ path parent _ rest he)

end

theorem exists_childSpot {parent : Node} {position k : Nat} {ns : List Node} (hk : ns[k]? = some m) :
    ∃ e ∈ childSpots scopes next path parent position ns,
      e.path = ⟨parent, position + k⟩ :: path ∧ e.node = m ∧ e.scopes = scopes := by
  induction ns generalizing k position next with
  | nil => cases hk
  | cons n rest ih =>
    rw [childSpots]
    cases k with
    | zero =>
      obtain rfl : n = m := Option.some.inj hk
      exact ⟨_, List.mem_append_left _ mem_spotsIn_self, rfl, rfl, rfl⟩
    | succ k =>
      obtain ⟨e, he, hpath, hnode, hscopes⟩ := @ih (next + scopeCount n) (position + 1) k hk
      refine ⟨e, List.mem_append_right _ he, ?_, hnode, hscopes⟩
      rw [hpath, Nat.add_assoc, Nat.add_comm 1 k]

namespace Script.Program

variable {p : Script.Program}

theorem pathTo_of_mem_spots (he : e ∈ p.spots) : PathTo p.tree e.path e.node :=
  forall_spots (motive := fun e => PathTo p.tree e.path e.node) .root
    (fun _ _ h _ _ _ hk _ => .child h hk) e he

/-- The spot of a child, with the scopes that are open in its parent. -/
theorem exists_spot_child {k : Nat} (he : e ∈ p.spots) (hk : e.node.children[k]? = some m) :
    ∃ e' ∈ p.spots, e'.path = ⟨e.node, k⟩ :: e.path ∧ e'.node = m ∧ e'.scopes = e.inside := by
  have hsub := spotsIn_trans _ _ _ _ he
  obtain ⟨path, ⟨kind, span, children⟩, scopes, next⟩ := e
  rw [spotsIn] at hsub
  obtain ⟨e', he', hpath, hnode, hscopes⟩ := exists_childSpot hk
  rw [Nat.zero_add] at hpath
  exact ⟨e', hsub (List.mem_cons_of_mem _ he'), hpath, hnode, hscopes⟩

/-- Each path leads to a spot. -/
theorem exists_spot (h : PathTo p.tree path n) : ∃ e ∈ p.spots, e.path = path ∧ e.node = n := by
  induction h with
  | root => exact ⟨_, mem_spotsIn_self, rfl, rfl⟩
  | child _ hk ih =>
    obtain ⟨outer, houter, rfl, rfl⟩ := ih
    obtain ⟨e, he, hpath, hnode, -⟩ := exists_spot_child houter hk
    exact ⟨e, he, hpath, hnode⟩

end Script.Program

end Paths

/-- What is in a formed node is formed. -/
theorem PathTo.formed (h : PathTo root path n) (hroot : Script.Formed root) : Script.Formed n := by
  induction h with
  | root => exact hroot
  | child _ hk ih => exact ih.child (List.mem_of_getElem? hk)

theorem scopeKind?_ne {kind : Kind} {opened : ScopeKind} (h : scopeKind? kind = some opened) :
    opened ≠ .wrapper ∧ (kind ≠ .program → opened ≠ .program) := by
  cases kind <;> cases h
  case program => exact ⟨nofun, fun hne => absurd rfl hne⟩
  all_goals exact ⟨nofun, nofun⟩

theorem Spot.exists_inside {rest : List (Nat × ScopeKind)} (hkind : e.node.kind ≠ .program)
    (h : ∃ inner, e.scopes = inner ++ rest ∧ ∀ o ∈ inner, o.2 ≠ .wrapper ∧ o.2 ≠ .program) :
    ∃ inner, e.inside = inner ++ rest ∧ ∀ o ∈ inner, o.2 ≠ .wrapper ∧ o.2 ≠ .program := by
  obtain ⟨inner, hscopes, hinner⟩ := h
  refine ⟨(scopeKind? e.node.kind).toList.map (e.next, ·) ++ inner, ?_, fun o ho => ?_⟩
  · rw [Spot.inside, scopesIn, hscopes, List.append_assoc]
  · rcases List.mem_append.mp ho with ho | ho
    · obtain ⟨opened, hopened, rfl⟩ := List.mem_map.mp ho
      obtain ⟨hwrapper, hprogram⟩ := scopeKind?_ne (Option.mem_toList.mp hopened)
      exact ⟨hwrapper, hprogram hkind⟩
    · exact hinner o ho

/-- The scopes in a script are in the one of the script, which is in the wrapper alone. -/
theorem Script.Program.exists_inner {p : Script.Program} (hp : p.tree.kind = .program)
    (hformed : Script.Formed p.tree) (he : e ∈ p.spots) :
    e.node.kind = .program ∧ e.scopes = [(ScopeTree.wrapperScope, .wrapper)] ∨
      e.node.kind ≠ .program ∧ ∃ inner,
        e.scopes = inner ++ [(ScopeTree.programScope, .program), (ScopeTree.wrapperScope, .wrapper)] ∧
          ∀ o ∈ inner, o.2 ≠ .wrapper ∧ o.2 ≠ .program := by
  -- no script is in another one, so that none of the scopes inside is one of a script
  let motive (e : Spot) : Prop :=
    e.node.kind = .program ∧ e.scopes = [(ScopeTree.wrapperScope, .wrapper)] ∧ e.next = ScopeTree.programScope ∨
      e.node.kind ≠ .program ∧ ∃ inner,
        e.scopes = inner ++ [(ScopeTree.programScope, .program), (ScopeTree.wrapperScope, .wrapper)] ∧
          ∀ o ∈ inner, o.2 ≠ .wrapper ∧ o.2 ≠ .program
  have hmotive : motive e := by
    refine forall_spots (motive := motive) (.inl ⟨hp, rfl, rfl⟩) (fun e he ih k m next hk _ => .inr ⟨?_, ?_⟩) e he
    · intro heq
      have hadmits := ((p.pathTo_of_mem_spots he).formed hformed).admits (List.mem_of_getElem? hk)
      rw [heq] at hadmits
      cases hadmits
    · rcases ih with ⟨hkind, hscopes, hnext⟩ | ⟨hkind, hinner⟩
      · refine ⟨[], ?_, nofun⟩
        rw [Spot.inside, scopesIn, hkind, hscopes, hnext]
        rfl
      · exact e.exists_inside hkind hinner
  exact hmotive.imp_left fun ⟨hkind, hscopes, _⟩ => ⟨hkind, hscopes⟩

section Sites

variable {source : List Char} {ok : Nat → Prop} {lo hi : Nat}

/-- The way to a node ends at the root, or goes on in one of its children. -/
theorem PathTo.from_root (h : PathTo root path n) : path = [] ∧ n = root ∨
    ∃ inner k m, path = inner ++ [⟨root, k⟩] ∧ root.children[k]? = some m ∧ PathTo m inner n := by
  induction h with
  | root => exact .inl ⟨rfl, rfl⟩
  | @child path parent n k _ hk ih =>
    rcases ih with ⟨rfl, rfl⟩ | ⟨inner, j, m, rfl, hj, hm⟩
    · exact .inr ⟨[], k, n, rfl, hk, .root⟩
    · exact .inr ⟨⟨parent, k⟩ :: inner, j, m, rfl, hj, .child hm hk⟩

theorem siteIn_of_child {k : Nat} {inner : Path} (hk : root.children[k]? = some m) (h : PathTo m inner n)
    (hn : n.kind.isSite) : SiteIn n (sitesOf root.children) :=
  .of_mem_sites (List.mem_of_getElem? hk) (h.partOf.site hn)

/-- Sites in a child come before those in a later one. -/
theorem before_of_children {j k : Nat} {o n' : Node} {inner inner' : Path}
    (hlaid : LaidOut source ok lo hi (sitesOf root.children)) (hjk : j < k)
    (hj : root.children[j]? = some m) (hm : PathTo m inner n) (hn : n.kind.isSite)
    (hk : root.children[k]? = some o) (ho : PathTo o inner' n') (hn' : n'.kind.isSite) :
    n.span.stop ≤ n'.span.start := by
  have hlater : (root.children.drop (j + 1))[k - (j + 1)]? = some o := by
    rw [List.getElem?_drop, Nat.add_sub_cancel' hjk]
    exact hk
  have hlast : SiteIn n' (sitesOf (root.children.drop (j + 1))) :=
    .of_mem_sites (List.mem_of_getElem? hlater) (ho.partOf.site hn')
  rw [Script.sitesOf_split hj, ← List.append_assoc] at hlaid
  exact hlaid.before (SiteIn.append_right (hm.partOf.site hn)) hlast

theorem span_ne_of_child {k : Nat} {inner : Path} (hlaid : LaidOut source ok lo hi root.sites)
    (hroot : root.kind.isSite) (hd : root.kind.isDeclarator = false) (hk : root.children[k]? = some m)
    (hm : PathTo m inner n) (hn : n.kind.isSite) : n.span ≠ root.span := by
  intro heq
  have hstrict := hlaid.narrow_of_siteIn (siteIn_self hroot) (siteIn_of_child hk hm hn) fun hk =>
    absurd (hd.symm.trans hk) Bool.false_ne_true
  rw [heq] at hstrict
  omega

/-- A site that is no variable stands at its span alone: there is one way to it. -/
theorem PathTo.eq_of_span {path' : Path} {n' : Node} (hlaid : LaidOut source ok lo hi root.sites)
    (h : PathTo root path n) (h' : PathTo root path' n') (hn : n.kind.isSite) (hn' : n'.kind.isSite)
    (hd : n.kind.isDeclarator = false) (hd' : n'.kind.isDeclarator = false) (hspan : n.span = n'.span) :
    path = path' ∧ n = n' := by
  have hlt : n.span.start < n.span.stop := (hlaid.site_of_siteIn (h.partOf.site hn)).lt
  -- both ways are followed from the root on: where they part, the sites are one after the other
  induction path using List.reverseRecOn generalizing root path' lo hi with
  | nil =>
    obtain rfl : n = root := by
      rcases h.from_root with ⟨-, rfl⟩ | ⟨inner, k, m, heq, -⟩
      · rfl
      · simp at heq
    rcases h'.from_root with ⟨rfl, rfl⟩ | ⟨inner, k, m, rfl, hk, hm⟩
    · exact ⟨rfl, rfl⟩
    · exact absurd hspan.symm (span_ne_of_child hlaid hn hd hk hm hn')
  | append_singleton inner f ih =>
    obtain ⟨k, m, rfl, hk, hm⟩ : ∃ k m, f = ⟨root, k⟩ ∧ root.children[k]? = some m ∧ PathTo m inner n := by
      rcases h.from_root with ⟨hnil, -⟩ | ⟨inner', k, m, heq, hk, hm⟩
      · simp at hnil
      · obtain ⟨rfl, hf⟩ := List.append_inj' heq rfl
        exact ⟨k, m, List.head_eq_of_cons_eq hf, hk, hm⟩
    rcases h'.from_root with ⟨rfl, rfl⟩ | ⟨inner', k', m', rfl, hk', hm'⟩
    · exact absurd hspan (span_ne_of_child hlaid hn' hd' hk hm hn)
    obtain ⟨lo', hi', hchildren⟩ : ∃ lo hi, LaidOut source ok lo hi (sitesOf root.children) := by
      obtain ⟨kind, span, children⟩ := root
      exact hlaid.children
    rcases Nat.lt_trichotomy k k' with hkk | rfl | hkk
    · have hbefore := before_of_children hchildren hkk hk hm hn hk' hm' hn'
      rw [← hspan] at hbefore
      omega
    · obtain rfl : m = m' := Option.some.inj (hk.symm.trans hk')
      obtain ⟨lo', hi', hlaidm⟩ := (PathTo.child .root hk).laidOut hlaid
      obtain ⟨rfl, rfl⟩ := ih hlaidm hm hm'
      exact ⟨rfl, rfl⟩
    · have hbefore := before_of_children hchildren hkk hk' hm' hn' hk hm hn
      rw [← hspan] at hbefore
      omega

theorem site_of_name {kind : Kind} (h : kind.name?.isSome) : kind.isSite ∧ kind.isDeclarator = false := by
  cases kind <;> first | exact ⟨rfl, rfl⟩ | cases h

/-- There is one way to a name at a span. -/
theorem PathTo.eq_of_name {path' : Path} {n' : Node} (hlaid : LaidOut source ok lo hi root.sites)
    (h : PathTo root path n) (h' : PathTo root path' n') (hn : n.kind.name?.isSome)
    (hn' : n'.kind.name?.isSome) (hspan : n.span = n'.span) : path = path' ∧ n = n' :=
  h.eq_of_span hlaid h' (site_of_name hn).1 (site_of_name hn').1 (site_of_name hn).2 (site_of_name hn').2 hspan

end Sites

section Chains

mutual

theorem opens_of_mem_spotsIn (scopes : List (Nat × ScopeKind)) (next : Nat) (path : Path) :
    (n : Node) → t.Opens ⟨scopes.map Prod.fst, next⟩ (visits path n) → e ∈ spotsIn scopes next path n →
      t.Opens e.trail (entering e.path e.node)
  | .mk kind span children, h, he => by
    rw [visits, ScopeTree.opens_append, ScopeTree.opens_append, after_entering_of_open] at h
    rw [spotsIn] at he
    rcases List.mem_cons.mp he with rfl | he
    · exact h.1.1
    · exact opens_of_mem_childSpots _ _ path _ 0 children h.1.2 he

theorem opens_of_mem_childSpots (scopes : List (Nat × ScopeKind)) (next : Nat) (path : Path)
    (parent : Node) (position : Nat) :
    (ns : List Node) → t.Opens ⟨scopes.map Prod.fst, next⟩ (childVisits path parent position ns) →
      e ∈ childSpots scopes next path parent position ns → t.Opens e.trail (entering e.path e.node)
  | [], _, he => by
    rw [childSpots] at he
    cases he
  | n :: rest, h, he => by
    rw [childVisits, ScopeTree.opens_append, after_visits] at h
    rw [childSpots] at he
    rcases List.mem_append.mp he with he | he
    · exact opens_of_mem_spotsIn _ _ _ n h.1 he
    · exact opens_of_mem_childSpots _ _ path parent _ rest h.2 he

end

/-- A node opens the scope that its spot says. -/
theorem Spot.opened_of_opens {kind : ScopeKind} (h : t.Opens e.trail (entering e.path e.node))
    (hk : scopeKind? e.node.kind = some kind) :
    (t.scope e.next).parent = some e.current ∧ (t.scope e.next).kind = kind := by
  rcases entering_cases e.path e.node with ⟨hnone, -⟩ | ⟨kind', front, back, hsome, hfront, -, heq⟩
  · cases hnone.symm.trans hk
  · obtain rfl : kind' = kind := Option.some.inj (hsome.symm.trans hk)
    rw [heq, ScopeTree.opens_append, (hfront.locate e.trail).1] at h
    exact h.2.1 kind' rfl

namespace Analysis

variable {p : Script.Program} {source : String}

theorem scope_wrapper : ((ofProgram p source).scopes.scope ScopeTree.wrapperScope).parent = none ∧
    ((ofProgram p source).scopes.scope ScopeTree.wrapperScope).kind = .wrapper := by
  obtain ⟨r, hr, hscopes, -⟩ := @resolvedBy_ofProgram p source
  have hgrown := (declaredBy_declareAll (visits [] p.tree)).grown
  rw [hscopes, hr.same.parent, hr.same.kind]
  exact ⟨hgrown.parent _ (by decide), hgrown.kind _ (by decide)⟩

/-- Each name that stands for something is recorded, with what it means in the scope around it. -/
theorem exists_reference_of_mem_spots (source : String) {name : String} (he : e ∈ p.spots)
    (hn : e.node.kind = .reference name) :
    ∃ r ∈ (ofProgram p source).scopes.references, r.span = e.node.span ∧ r.declares = false ∧
      (ofProgram p source).scopes.referredBinding? e.current name = some r.binding := by
  have hvisit := p.mem_visited_refer he hn
  obtain ⟨b, hb⟩ := Option.isSome_iff_exists.mp (isSome_referredBinding? source hvisit)
  refine ⟨⟨e.node.span, e.current, b, false, isShorthandReference e.path, usage e.path⟩,
    Array.mem_toList_iff.mp ?_, rfl, rfl, hb⟩
  rw [references_ofProgram]
  refine List.mem_append_right _ (List.mem_filterMap.mpr ⟨_, hvisit, ?_⟩)
  rw [ScopeTree.referred?, hb]
  rfl

theorem opens_of_mem_spots (source : String) (he : e ∈ p.spots) :
    (ofProgram p source).scopes.Opens e.trail (entering e.path e.node) :=
  opens_of_mem_spotsIn _ _ _ p.tree opens_ofProgram he

theorem chain_of_inside (source : String) (he : e ∈ p.spots)
    (h : ((ofProgram p source).scopes.chain e.current).map
      (fun s => (s, ((ofProgram p source).scopes.scope s).kind)) = e.scopes) :
    ((ofProgram p source).scopes.chain ((e.inside.map Prod.fst).headD ScopeTree.wrapperScope)).map
      (fun s => (s, ((ofProgram p source).scopes.scope s).kind)) = e.inside := by
  have hnested : (ofProgram p source).scopes.Nested := sound_scopes.toNested
  cases hkind : scopeKind? e.node.kind with
  | none =>
    have hinside : e.inside = e.scopes := by rw [Spot.inside, scopesIn, hkind]; rfl
    rw [hinside]
    exact h
  | some kind =>
    have hinside : e.inside = (e.next, kind) :: e.scopes := by rw [Spot.inside, scopesIn, hkind]; rfl
    obtain ⟨hparent, hscope⟩ := Spot.opened_of_opens (opens_of_mem_spots source he) hkind
    rw [hinside, List.map_cons, List.headD_cons, hnested.chain_of_parent hparent, List.map_cons, h, hscope]

/-- The scopes around a spot are those that are open there. -/
theorem chain_of_mem_spots (source : String) (he : e ∈ p.spots) :
    let t := (ofProgram p source).scopes
    (t.chain e.current).map (fun s => (s, (t.scope s).kind)) = e.scopes := by
  intro t
  refine Script.Program.forall_spots
    (motive := fun e => (t.chain e.current).map (fun s => (s, (t.scope s).kind)) = e.scopes)
    ?_ (fun e he ih k m next _ _ => chain_of_inside source he ih) e he
  have hnested : t.Nested := sound_scopes.toNested
  obtain ⟨hparent, hkind⟩ := @scope_wrapper p source
  have hcurrent : Spot.current ⟨[], p.tree, [(ScopeTree.wrapperScope, .wrapper)], ScopeTree.programScope⟩ =
      ScopeTree.wrapperScope := rfl
  rw [hcurrent, hnested.chain_eq, hparent, List.map_singleton, hkind]

end Analysis

end Chains

end FlatBundle
