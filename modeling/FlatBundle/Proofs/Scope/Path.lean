import FlatBundle.Proofs.Scope.Declarator
import FlatBundle.Proofs.Scope.Occurrences

/-!
The nodes around the place of a visit: which other sites can be around it, and which scopes they open.
-/

namespace FlatBundle

open Script (Span Node Kind LaidOut SiteIn Quiet AllQuiet sitesOf)

variable {root n m : Node} {path : Path} {at_ : Nat} {v : Visit} {vs ws : List Visit} {tr : Trail}
  {t t' : ScopeTree}

section Sites

variable {source : List Char} {ok : Nat → Prop} {lo hi : Nat}

theorem PathTo.laidOut (h : PathTo root path n) (hlaid : LaidOut source ok lo hi root.sites) :
    ∃ lo hi, LaidOut source ok lo hi n.sites := by
  induction h with
  | root => exact ⟨lo, hi, hlaid⟩
  | @child path parent n k _ hk ih =>
    obtain ⟨kind, span, children⟩ := parent
    obtain ⟨lo, hi, ih⟩ := ih
    obtain ⟨lo, hi, hchildren⟩ := ih.children
    have hk : children[k]? = some n := hk
    refine ⟨lo, hi, hchildren.sublist ?_⟩
    rw [Script.sitesOf_split hk]
    exact (List.sublist_append_left _ _).trans (List.sublist_append_right _ _)

theorem PathTo.siteIn_parent {f : Frame} {outer : Path} (h : PathTo root (f :: outer) n)
    (hn : n.kind.isSite) : SiteIn n (sitesOf f.node.children) := by
  cases h with
  | child _ hchild => exact .of_mem_sites (List.mem_of_getElem? hchild) (siteIn_self hn)

/-- A site is on the way to a node, in it, or clear of all that is in it. -/
theorem PathTo.site_cases (h : PathTo root path n) (hlaid : LaidOut source ok lo hi root.sites)
    (hm : SiteIn m root.sites) :
    (∃ f ∈ path, f.node = m) ∨ SiteIn m n.sites ∨
      ∀ k, SiteIn k n.sites → m.span.stop ≤ k.span.start ∨ k.span.stop ≤ m.span.start := by
  induction h with
  | root => exact .inr (.inl hm)
  | @child path parent n k hparent hk ih =>
    rcases ih with ⟨f, hf, heq⟩ | hin | hclear
    · exact .inl ⟨f, List.mem_cons_of_mem _ hf, heq⟩
    · obtain ⟨lo, hi, hlaid⟩ := hparent.laidOut hlaid
      obtain ⟨kind, span, children⟩ := parent
      rcases hin.eq_or_inside with rfl | hin
      · exact .inl ⟨_, List.mem_cons_self, rfl⟩
      · obtain ⟨lo, hi, hlaid⟩ := hlaid.children
        have hk : children[k]? = some n := hk
        rw [Script.sitesOf_split hk] at hin hlaid
        rcases hin.of_append with hin | hin
        · exact .inr (.inr fun s hs => .inl (hlaid.before hin hs.append_left))
        · rcases hin.of_append with hin | hin
          · exact .inr (.inl hin)
          · rw [← List.append_assoc] at hlaid
            exact .inr (.inr fun s hs => .inr (hlaid.before hs.append_right hin))
    · obtain ⟨kind, span, children⟩ := parent
      exact .inr (.inr fun s hs => hclear s (hs.of_child (List.mem_of_getElem? hk)))

/-- Below a node whose children are quiet there are no statements, as long as no function is on the
way. -/
theorem PathTo.quiet (h : PathTo root path n) (hbody : ∀ f ∈ path, f.node.kind.opensBody = false)
    {f : Frame} (hf : f ∈ path) (hquiet : AllQuiet f.node.children) : Quiet n := by
  induction h with
  | root => cases hf
  | @child path parent n k _ hk ih =>
    obtain ⟨hparent, hbody⟩ := List.forall_mem_cons.mp hbody
    have hn := List.mem_of_getElem? hk
    rcases List.mem_cons.mp hf with rfl | hf
    · exact hquiet n hn
    · cases ih hbody hf with
      | body opens => exact absurd (hparent.symm.trans opens) Bool.false_ne_true
      | plain _ inside => exact inside n hn

/-- A node to which a statement assigns outside of all functions is in no other site: each site is clear of it
or in a part of it. -/
theorem PathTo.clear_of_target {inner statement : Frame} {outer : Path}
    (h : PathTo root (inner :: statement :: outer) n) (hlaid : LaidOut source ok lo hi root.sites)
    (hinner : inner.node.kind.isSite = false)
    (hstatement : statement.node.kind = .expressionStatement)
    (hbody : ∀ f ∈ outer, f.node.kind.opensBody = false) (hn : n.kind.isSite)
    (hdeclarator : n.kind.isDeclarator = false) (hm : SiteIn m root.sites) (hne : m ≠ n) :
    m.span.stop ≤ n.span.start ∨ n.span.stop ≤ m.span.start ∨
      n.span.start ≤ m.span.start ∧ m.span.stop ≤ n.span.stop ∧
        (n.span.start < m.span.start ∨ m.span.stop < n.span.stop) := by
  have hsite : SiteIn n n.sites := siteIn_self hn
  rcases h.site_cases hlaid hm with ⟨f, hf, rfl⟩ | hin | hclear
  · have hk : f.node.kind.isSite := hm.isSite fun _ => Script.isSite_of_mem_sites
    rcases List.mem_cons.mp hf with rfl | hbeyond
    · rw [hinner] at hk
      cases hk
    rcases List.mem_cons.mp hbeyond with rfl | houter
    · rw [hstatement] at hk
      cases hk
    · -- a site holds no statements, but for those in functions
      cases h with
      | child h _ =>
        cases h with
        | child h _ =>
          cases h.quiet hbody houter (hlaid.site_of_siteIn hm).quiet with
          | body opens =>
            cases hstatement
            cases opens
          | plain value =>
            cases hstatement
            cases value
  · have hnsite := h.partOf.site hn
    obtain ⟨kind, span, children⟩ := n
    have hinside := (hin.eq_or_inside).resolve_left hne
    obtain ⟨-, hstart, hstop⟩ := (hlaid.inside_of_siteIn hnsite).of_siteIn hinside
    have hnarrow := hlaid.narrow_of_siteIn hnsite hinside fun hk => absurd (hdeclarator.symm.trans hk)
      Bool.false_ne_true
    exact .inr (.inr ⟨hstart, hstop, hnarrow⟩)
  · exact (hclear n hsite).imp_right .inl

end Sites

namespace ScopeTree

/-- The scopes that open among some visits are scopes of a tree, each one in the scope that is open
then. -/
def Opens (t : ScopeTree) (tr : Trail) : List Visit → Prop
  | [] => True
  | v :: vs =>
    (∀ kind, v = .enter kind →
      (t.scope tr.next).parent = some tr.current ∧ (t.scope tr.next).kind = kind) ∧
      t.Opens (tr.step v) vs

theorem opens_append : t.Opens tr (vs ++ ws) ↔ t.Opens tr vs ∧ t.Opens (tr.after vs) ws := by
  induction vs generalizing tr with
  | nil => simp [Opens, Trail.after]
  | cons v vs ih =>
    rw [List.cons_append, Opens, Opens, ih, and_assoc]
    rfl

theorem SameNames.opens (h : t.SameNames t') (ht : t.Opens tr vs) : t'.Opens tr vs := by
  induction vs generalizing tr with
  | nil => trivial
  | cons v vs ih =>
    refine ⟨fun kind hv => ?_, ih ht.2⟩
    rw [h.parent, h.kind]
    exact ht.1 kind hv

theorem Nested.varScope_eq (h : t.Nested) (s : Nat) : t.varScope s =
    if (t.scope s).kind.holdsVars then s else
      match (t.scope s).parent with
      | some parent => t.varScope parent
      | none => wrapperScope := by
  rw [varScope, h.chain_eq, List.find?_cons]
  split
  next hkind => rw [if_pos hkind]; rfl
  next hkind =>
    rw [if_neg (by simp [hkind])]
    cases (t.scope s).parent <;> rfl

end ScopeTree

theorem opens_declareAll (vs : List Visit) : (declareAll vs).Opens Trail.start vs := by
  have run : ∀ (d : Declaring) (tr : Trail), d.Follows tr → d.tree.Sound →
      (vs.foldl Declaring.step d).tree.Opens tr vs := by
    induction vs with
    | nil => exact fun _ _ _ _ => trivial
    | cons v vs ih =>
      intro d tr hd h
      have hstep := declaredBy_step (v := v) h hd.current_lt
      have hrest : (d.step v).tree.DeclaredBy ((tr.step v).locate vs)
          (vs.foldl Declaring.step (d.step v)).tree := declaredBy_foldl hd.step hstep.sound
      refine ⟨fun kind hv => ?_, ih _ _ hd.step hstep.sound⟩
      subst hv
      have hlt : tr.next < (d.step (.enter kind)).tree.scopes.size := by
        rw [hd.step.size]
        exact Nat.lt_succ_self _
      have hscope : (d.step (.enter kind)).tree.scope tr.next =
          { parent := some tr.current, kind } := by
        rw [← hd.size, ← hd.current]
        exact ScopeTree.scope_addScope.trans (if_pos rfl)
      rw [List.foldl_cons, hrest.grown.parent _ hlt, hrest.grown.kind _ hlt, hscope]
      exact ⟨rfl, rfl⟩
  exact run _ Trail.start .start ScopeTree.sound_initial

/-- Inside of a function or of a static block, variables are none of the whole script. -/
def Enclosed (t : ScopeTree) (path : Path) (at_ : Nat) : Prop :=
  (∃ f ∈ path, f.node.kind.opensBody) → ScopeTree.programScope < t.varScope at_

theorem opensBody_of_scopeKind? {kind : Kind} (h : scopeKind? kind = none) : kind.opensBody = false := by
  cases kind <;> first | rfl | cases h

theorem holdsVars_of_opensBody {kind : Kind} {scope : ScopeKind} (h : scopeKind? kind = some scope)
    (hbody : kind.opensBody) : scope.holdsVars := by
  cases kind <;> cases hbody <;> cases h <;> rfl

/-- The scope that a node opens, or else the scope around it, encloses what is in the node. -/
theorem Enclosed.opened {scope : ScopeKind} {k : Nat} (h : Enclosed t path tr.current) (ht : t.Nested)
    (hnext : ScopeTree.programScope < tr.next) (hkind : scopeKind? n.kind = some scope)
    (hparent : (t.scope tr.next).parent = some tr.current) (hscope : (t.scope tr.next).kind = scope) :
    Enclosed t path tr.next ∧ Enclosed t (⟨n, k⟩ :: path) tr.next := by
  have hvar := ht.varScope_eq tr.next
  rw [hparent, hscope] at hvar
  by_cases hvars : scope.holdsVars
  · rw [if_pos hvars] at hvar
    have hlt : ScopeTree.programScope < t.varScope tr.next := by rwa [hvar]
    exact ⟨fun _ => hlt, fun _ => hlt⟩
  · rw [if_neg hvars] at hvar
    refine ⟨fun hbody => hvar ▸ h hbody, fun ⟨f, hf, hbody⟩ => hvar ▸ h ⟨f, ?_, hbody⟩⟩
    rcases List.mem_cons.mp hf with rfl | hf
    · exact absurd (holdsVars_of_opensBody hkind hbody) hvars
    · exact hf

mutual

/-- Each visit but the closing of a scope happens on entering some node. -/
theorem exists_entered (ht : t.Nested) (tr : Trail) (path : Path) (hnext : ScopeTree.programScope < tr.next) :
    (n : Node) → PathTo root path n → t.Opens tr (visits path n) → Enclosed t path tr.current →
      (at_, v) ∈ tr.locate (visits path n) → v ≠ .leave →
        ∃ path' n', PathTo root path' n' ∧ v ∈ entering path' n' ∧ Enclosed t path' at_
  | .mk kind span children, hn, hopens, hinside, he, hv => by
    let n := Node.mk kind span children
    have hvisits : visits path (.mk kind span children) =
        entering path n ++ childVisits path n 0 children ++ leaving n := by
      rw [visits]
    rw [hvisits, ScopeTree.opens_append, ScopeTree.opens_append] at hopens
    rw [hvisits, Trail.locate_append, Trail.locate_append] at he
    obtain ⟨⟨hentering, hchildren⟩, -⟩ := hopens
    have hleft : (at_, v) ∉ (tr.after (entering path n ++ childVisits path n 0 children)).locate (leaving n) := by
      intro he
      obtain ⟨_, -, heq⟩ := List.mem_map.mp (Trail.mem_of_mem_locate he)
      exact hv heq.symm
    have he := (List.mem_append.mp he).resolve_right hleft
    rcases entering_cases path n with ⟨hnone, hflat⟩ | ⟨scope, front, back, hsome, hfront, hback, heq⟩
    · obtain ⟨hafter, hplaces⟩ := hflat.locate tr
      rcases List.mem_append.mp he with he | he
      · have hat : at_ = tr.current := hplaces _ he
        exact ⟨path, n, hn, Trail.mem_of_mem_locate he, hat ▸ hinside⟩
      · rw [hafter] at he hchildren
        refine exists_entered_children ht tr path hnext n hn 0 children
          (fun k m hm => by rwa [Nat.zero_add]) hchildren (fun k => ?_) he hv
        rintro ⟨f, hf, hbody⟩
        rcases List.mem_cons.mp hf with rfl | hf
        · exact absurd ((opensBody_of_scopeKind? hnone).symm.trans hbody) Bool.false_ne_true
        · exact hinside ⟨f, hf, hbody⟩
    · obtain ⟨hafter, hplaces⟩ := hfront.locate tr
      obtain ⟨hafter', hplaces'⟩ := hback.locate (tr.step (.enter scope))
      have hall : tr.after (entering path n) = tr.step (.enter scope) := by
        rw [heq, Trail.after_append, hafter]
        exact hafter'
      rw [heq, ScopeTree.opens_append, hafter] at hentering
      obtain ⟨hparent, hscope⟩ := hentering.2.1 scope rfl
      have hopened (k : Nat) := @Enclosed.opened n path tr t scope k hinside ht hnext hsome hparent hscope
      rcases List.mem_append.mp he with he | he
      · refine ⟨path, n, hn, Trail.mem_of_mem_locate he, ?_⟩
        rw [heq, Trail.locate_append, hafter, Trail.locate] at he
        rcases List.mem_append.mp he with he | he
        · have hat : at_ = tr.current := hplaces _ he
          exact hat ▸ hinside
        · rcases List.mem_cons.mp he with he | he
          · have hat : at_ = tr.current := (Prod.mk.inj he).1
            exact hat ▸ hinside
          · have hat : at_ = tr.next := hplaces' _ he
            exact hat ▸ (hopened 0).1
      · rw [hall] at he hchildren
        exact exists_entered_children ht (tr.step (.enter scope)) path (Nat.lt_succ_of_lt hnext) n hn 0
          children (fun k m hm => by rwa [Nat.zero_add]) hchildren (fun k => (hopened k).2) he hv

theorem exists_entered_children (ht : t.Nested) (tr : Trail) (path : Path)
    (hnext : ScopeTree.programScope < tr.next) (parent : Node) (hparent : PathTo root path parent)
    (position : Nat) :
    (ns : List Node) → (∀ k m, ns[k]? = some m → parent.children[position + k]? = some m) →
      t.Opens tr (childVisits path parent position ns) →
      (∀ k, Enclosed t (⟨parent, k⟩ :: path) tr.current) →
      (at_, v) ∈ tr.locate (childVisits path parent position ns) → v ≠ .leave →
        ∃ path' n', PathTo root path' n' ∧ v ∈ entering path' n' ∧ Enclosed t path' at_
  | [], _, _, _, he, _ => by
    rw [childVisits] at he
    cases he
  | m :: rest, hns, hopens, hinside, he, hv => by
    have hm : parent.children[position]? = some m := hns 0 m rfl
    have hrest : ∀ k o, rest[k]? = some o → parent.children[position + 1 + k]? = some o := by
      intro k o ho
      have hshift := hns (k + 1) o ho
      rwa [Nat.add_assoc, Nat.add_comm 1 k]
    rw [childVisits, ScopeTree.opens_append] at hopens
    rw [childVisits, Trail.locate_append] at he
    obtain ⟨hstack, hgrown, -⟩ := balanced_visits (⟨parent, position⟩ :: path) m tr
    rcases List.mem_append.mp he with he | he
    · exact exists_entered ht tr _ hnext m (.child hparent hm) hopens.1 (hinside position) he hv
    · have hcurrent : (tr.after (visits (⟨parent, position⟩ :: path) m)).current = tr.current := by
        rw [Trail.current, hstack, Trail.current]
      exact exists_entered_children ht _ path (Nat.lt_of_lt_of_le hnext hgrown) parent hparent
        (position + 1) rest hrest hopens.2 (fun k => hcurrent ▸ hinside k) he hv

end

section Entering

variable {name : String} {span : Span} {shorthand : Bool} {use : Usage}

theorem mem_entering_refer (h : .refer name span shorthand use ∈ entering path n) :
    n.kind = .reference name ∧ n.span = span ∧ shorthand = isShorthandReference path ∧
      use = usage path := by
  have hown {place : DeclarationPlace} : .refer name span shorthand use ∉ ownNameVisits place n := by
    unfold ownNameVisits
    split <;> simp
  unfold entering at h
  split at h
  case h_6 hk =>
    cases List.mem_singleton.mp h
    exact ⟨hk, rfl, rfl, rfl⟩
  case h_5 => split at h <;> simp at h
  all_goals simp [hown] at h

/-- The access that a name is the object of. -/
theorem usage_eq_member {access : MemberAccess} (h : usage path = .member access) :
    ∃ target outer, path = target :: outer ∧ target.node.kind.isAccess ∧
      target.node.span = access.span ∧ access.assignment = memberAssignment? outer := by
  unfold usage at h
  split at h <;> cases h
  all_goals exact ⟨_, _, rfl, rfl, rfl, rfl⟩

/-- The frames around an access that a statement gives a value. -/
theorem memberAssignment?_eq_some {outer : Path} {assigned : MemberAssignment}
    (h : memberAssignment? outer = some assigned) (hs : assigned.isStatement) :
    ∃ assignment statement outer', outer = assignment :: statement :: outer' ∧
      assignment.node.kind = .assignment true ∧ statement.node.kind = .expressionStatement := by
  unfold memberAssignment? at h
  split at h
  next outer _ =>
    cases h
    unfold isStatementPath at hs
    split at hs
    next => exact ⟨_, _, _, rfl, rfl, rfl⟩
    next => cases hs
  next => cases h

theorem usage_eq_typeof (h : usage path = .typeof span) :
    ∃ f outer, path = f :: outer ∧ f.node.kind = .typeof ∧ f.node.span = span := by
  unfold usage at h
  split at h <;> cases h
  exact ⟨_, _, rfl, rfl, rfl⟩

end Entering

namespace Analysis

variable {p : Script.Program} {source : String}

theorem opens_ofProgram : (ofProgram p source).scopes.Opens Trail.start (visits [] p.tree) := by
  obtain ⟨r, hr, hscopes, -⟩ := @resolvedBy_ofProgram p source
  exact hscopes ▸ hr.same.opens (opens_declareAll _)

/-- What is looked up, declared or called in a script is so at some node; it is in a function or static
block if its variables are none of the whole script. -/
theorem exists_path (source : String) (hp : p.tree.kind = .program) (he : (at_, v) ∈ p.visited)
    (hv : v ≠ .leave) : ∃ path n, PathTo p.tree path n ∧ v ∈ entering path n ∧
      Enclosed (ofProgram p source).scopes path at_ := by
  have hnested : (ofProgram p source).scopes.Nested := sound_scopes.toNested
  have hopens : (ofProgram p source).scopes.Opens Trail.start (visits [] p.tree) := opens_ofProgram
  obtain ⟨⟨kind, span, children⟩, comments⟩ := p
  obtain rfl : kind = .program := hp
  let n := Node.mk .program span children
  have hvisits : visits [] n = .enter .program :: (childVisits [] n 0 children ++ [.leave]) := by
    rw [visits]
    rfl
  have hroot (at_ : Nat) : Enclosed (ofProgram ⟨n, comments⟩ source).scopes [] at_ := fun ⟨f, hf, _⟩ => by
    cases hf
  rw [Script.Program.visited, hvisits, Trail.locate] at he
  rw [hvisits] at hopens
  rcases List.mem_cons.mp he with heq | he
  · cases heq
    exact ⟨[], n, .root, List.mem_singleton_self _, hroot _⟩
  · rw [Trail.locate_append] at he
    have hbody : ∀ k, Enclosed (ofProgram ⟨n, comments⟩ source).scopes [⟨n, k⟩]
        (Trail.start.step (.enter .program)).current := by
      rintro k ⟨f, hf, hbody⟩
      obtain rfl := List.mem_singleton.mp hf
      cases hbody
    rcases List.mem_append.mp he with he | he
    · exact exists_entered_children hnested _ [] (by decide) n .root 0 children
        (fun k m hm => by rwa [Nat.zero_add]) (ScopeTree.opens_append.mp hopens.2).1 hbody he hv
    · exact absurd (Prod.mk.inj (List.mem_singleton.mp he)).2 hv

theorem usage_of_declares {r : Reference} (hr : r ∈ (ofProgram p source).scopes.references)
    (hdeclares : r.declares) : r.usage = .plain := by
  have hr := Array.mem_toList_iff.mpr hr
  rw [references_ofProgram] at hr
  rcases List.mem_append.mp hr with hr | hr
  all_goals
    obtain ⟨⟨at_, v⟩, -, hr⟩ := List.mem_filterMap.mp hr
    cases v <;> cases hr
  · rfl
  · cases hdeclares

/-- A lookup stands at a name. -/
theorem exists_path_of_use {r : Reference} (hp : p.tree.kind = .program)
    (hr : r ∈ (ofProgram p source).scopes.references) (hdeclares : r.declares = false) :
    ∃ path n name, PathTo p.tree path n ∧ n.kind = .reference name ∧ n.span = r.span ∧
      usage path = r.usage ∧ Enclosed (ofProgram p source).scopes path r.scope := by
  have hr := Array.mem_toList_iff.mpr hr
  rw [references_ofProgram] at hr
  rcases List.mem_append.mp hr with hr | hr
  · obtain ⟨⟨at_, v⟩, -, hr⟩ := List.mem_filterMap.mp hr
    cases v <;> cases hr
    cases hdeclares
  · obtain ⟨⟨at_, v⟩, he, hr⟩ := List.mem_filterMap.mp hr
    cases v <;> cases hr
    obtain ⟨path, n, hpath, hv, henclosed⟩ := exists_path source hp he nofun
    obtain ⟨hk, hspan, -, husage⟩ := mem_entering_refer hv
    exact ⟨path, n, _, hpath, hk, hspan, husage.symm, henclosed⟩

/-- Each occurrence of a name is a name by itself. -/
theorem exists_nameSite {r : Reference} (hp : p.tree.kind = .program)
    (hr : r ∈ (ofProgram p source).scopes.references) :
    ∃ m name, SiteIn m p.tree.sites ∧ m.span = r.span ∧ m.kind.name? = some name := by
  have hr' := Array.mem_toList_iff.mpr hr
  rw [references_ofProgram] at hr'
  rcases List.mem_append.mp hr' with hr' | hr'
  · obtain ⟨⟨at_, v⟩, he, hr'⟩ := List.mem_filterMap.mp hr'
    cases v <;> cases hr'
    obtain ⟨children, hsite⟩ := placed_visits [] nofun p.tree (fun _ hm => hm) _
      (Trail.mem_of_mem_locate he)
    exact ⟨_, _, hsite, rfl, rfl⟩
  · obtain ⟨e, -, hreferred⟩ := List.mem_filterMap.mp hr'
    obtain ⟨path, n, name, hpath, hk, hspan, -⟩ := exists_path_of_use hp hr (declares_of_referred? hreferred)
    exact ⟨n, name, hpath.partOf.site (by rw [hk]; rfl), hspan, by rw [hk]; rfl⟩

end Analysis

end FlatBundle
