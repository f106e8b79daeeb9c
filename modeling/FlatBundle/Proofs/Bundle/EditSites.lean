import FlatBundle.Proofs.Bundle.Capture
import FlatBundle.Proofs.Scope.NameSpans

/-!
Which nodes of a module the edits are about: names, accesses, calls, `typeof` and declarations, each of
which has a span of its own.
-/

namespace FlatBundle

open Script (Span Node SiteIn LaidOut Clear CommentBetween sitesOf)

variable {chars : List Char} {ok : Nat → Prop} {lo hi : Nat} {root m n : Node} {p : Script.Program}
  {facts : ModuleFacts} {r : Reference} {span : Span} {b : Nat}

/-- An edit goes around a site that has more to it than any name. -/
def Edit.Surrounds (e : Edit) (root : Node) : Prop :=
  ∃ m, SiteIn m root.sites ∧ m.kind.name? = none ∧ (m.kind.isDeclarator → m.children.length ≠ 1) ∧
    e.start ≤ m.span.start ∧ m.span.stop ≤ e.stop

theorem surrounds_replacing {text : String} (hm : SiteIn m root.sites) (hspan : m.span = span)
    (hname : m.kind.name? = none) (hk : m.kind.isDeclarator = false) :
    (Edit.replacing span text).Surrounds root := by
  subst hspan
  exact ⟨m, hm, hname, fun h => by simp [hk] at h, Nat.le_refl _, Nat.le_refl _⟩

/-- Nothing like that is inside of a name. -/
theorem Edit.Surrounds.not_within {name : String} {e : Edit} (h : e.Surrounds root)
    (hlaid : LaidOut chars ok lo hi root.sites) (hn : SiteIn n root.sites) (hname : n.kind.name? = some name) :
    ¬(n.span.start ≤ e.start ∧ e.stop ≤ n.span.stop) := by
  obtain ⟨m, hm, hmname, hk, hstart, hstop⟩ := h
  obtain ⟨hleaf, -⟩ := (hlaid.site_of_siteIn hn).named name hname
  have hlt := ((hlaid.site_of_siteIn hm).narrow hk).1
  rcases hlaid.trichotomy hm hn with rfl | hbefore | hafter | hinside | hinside
  · cases hmname.symm.trans hname
  · omega
  · omega
  · rw [hleaf] at hinside
    cases hinside
  · have hnarrow := hlaid.narrow_of_siteIn hm hinside hk
    omega

/-- Names are the same or apart. -/
theorem Script.LaidOut.eq_or_apart {name name' : String} (hlaid : LaidOut chars ok lo hi root.sites)
    (hm : SiteIn m root.sites) (hmname : m.kind.name? = some name) (hn : SiteIn n root.sites)
    (hname : n.kind.name? = some name') : m = n ∨ m.span.Apart n.span := by
  rcases hlaid.trichotomy hm hn with rfl | hbefore | hafter | hinside | hinside
  · exact .inl rfl
  · exact .inr (.inl hbefore)
  · exact .inr (.inr hafter)
  · rw [((hlaid.site_of_siteIn hn).named name' hname).1] at hinside
    cases hinside
  · rw [((hlaid.site_of_siteIn hm).named name hmname).1] at hinside
    cases hinside

/-- The facts about a module are read off a script. -/
structure ModuleFacts.ReadOff (p : Script.Program) (m : ModuleFacts) : Prop extends m.Placed p.tree where
  kind : p.tree.kind = .program
  scopes_eq : m.scopes = (Analysis.ofProgram p m.record.source).scopes
  calls_eq : m.requirements.map (·.call) = (Analysis.ofProgram p m.record.source).calls
  comment_eq : m.mapComment = p.mapComment m.record.source.toList
  simple_eq : m.isSimpleExport = m.uses.soleExport?.any fun (r, _) =>
    m.scopes.varScope r.scope == ScopeTree.programScope

theorem Linked.exists_readOff {t : Table} {modules : List ModuleFacts} {i : Nat}
    (hm : scanModules t = .ok modules) (hi : i < t.size) :
    ∃ p, Script.Program.parse? (t.get i).source = some p ∧ ((ofModules t modules).facts i).ReadOff p := by
  obtain ⟨p, hp, hfacts⟩ := exists_program hm hi
  have hspanned := Script.spanned_parse? hp
  rw [hfacts]
  refine ⟨p, hp, placed_ofAnalysis (placed_ofProgram hspanned), hspanned.kind, rfl, ?_, rfl, rfl⟩
  simp [ModuleFacts.ofAnalysis, Function.comp_def]

namespace ModuleFacts.ReadOff

theorem mem_references (h : facts.ReadOff p) (hr : r ∈ facts.scopes.referencesOf b) :
    r ∈ facts.scopes.references ∧ r.binding = b := by
  have hsound : facts.scopes.Sound := h.scopes_eq ▸ Analysis.sound_scopes
  rw [hsound.referencesOf_eq] at hr
  obtain ⟨hr, hbinding⟩ := List.mem_filter.mp hr
  exact ⟨Array.mem_toList_iff.mp hr, eq_of_beq hbinding⟩

theorem mem_of_mem_uses (h : facts.ReadOff p)
    (hr : r ∈ facts.uses.moduleExports ∨ r ∈ facts.uses.exports ∨ r ∈ facts.uses.module ∨
      r ∈ facts.uses.require) : r ∈ facts.scopes.references := by
  rw [h.uses] at hr
  simp only [WrapperUse.ofScopes, List.partition_eq_filter_filter] at hr
  rcases hr with hr | hr | hr | hr
  · exact (h.mem_references (List.mem_filter.mp hr).1).1
  · exact (h.mem_references hr).1
  · exact (h.mem_references (List.mem_filter.mp hr).1).1
  · exact (h.mem_references hr).1

/-- An occurrence of a name is a name by itself. -/
theorem exists_name (h : facts.ReadOff p) (hr : r ∈ facts.scopes.references) :
    ∃ n name, SiteIn n p.tree.sites ∧ n.span = r.span ∧ n.kind.name? = some name := by
  rw [h.scopes_eq] at hr
  exact Analysis.exists_nameSite h.kind hr

theorem exists_names (h : facts.ReadOff p) (hr : r ∈ facts.scopes.references) :
    ∃ name, Script.Names facts.record.source.toList r.span.start r.span.stop name := by
  obtain ⟨n, name, hn, hspan, hname⟩ := h.exists_name hr
  obtain ⟨lo, hi, hlaid⟩ := h.laidOut
  exact ⟨name, hspan ▸ ((hlaid.site_of_siteIn hn).named name hname).2⟩

/-- What is around a name that is used in some way. -/
theorem exists_path (h : facts.ReadOff p) (hr : r ∈ facts.scopes.references) (hu : r.usage ≠ .plain) :
    ∃ path n name, PathTo p.tree path n ∧ n.kind = .reference name ∧ n.span = r.span ∧
      usage path = r.usage ∧ Enclosed facts.scopes path r.scope := by
  rw [h.scopes_eq] at hr ⊢
  refine Analysis.exists_path_of_use h.kind hr ?_
  cases hdeclares : r.declares with
  | false => rfl
  | true => exact absurd (Analysis.usage_of_declares hr hdeclares) hu

/-- What is right around a name holds the name. -/
theorem within_parent {f : Frame} {outer : Path} {name : String} (h : facts.ReadOff p)
    (hpath : PathTo p.tree (f :: outer) n) (hk : n.kind = .reference name) (hf : f.node.kind.isSite) :
    SiteIn f.node p.tree.sites ∧ f.node.span.start ≤ n.span.start ∧ n.span.stop ≤ f.node.span.stop := by
  obtain ⟨lo, hi, hlaid⟩ := h.laidOut
  have hinside := hpath.siteIn_parent (by rw [hk]; rfl)
  cases hpath with
  | child hparent =>
    have hsite := hparent.partOf.site hf
    exact ⟨hsite, ((hlaid.inside_of_siteIn hsite).of_siteIn hinside).2⟩

theorem exists_typeof (h : facts.ReadOff p) (hr : r ∈ facts.scopes.references)
    (hu : r.usage = .typeof span) :
    ∃ n, SiteIn n p.tree.sites ∧ n.span = span ∧ n.kind = .typeof ∧
      span.start ≤ r.span.start ∧ r.span.stop ≤ span.stop := by
  obtain ⟨path, n, name, hpath, hk, hspan, husage, -⟩ := h.exists_path hr (by rw [hu]; exact nofun)
  obtain ⟨f, outer, rfl, htypeof, hfspan⟩ := usage_eq_typeof (husage.trans hu)
  obtain ⟨hsite, hbounds⟩ := h.within_parent hpath hk (by rw [htypeof]; rfl)
  rw [hspan, hfspan] at hbounds
  exact ⟨_, hsite, hfspan, htypeof, hbounds⟩

theorem exists_access {access : MemberAccess} (h : facts.ReadOff p) (hr : r ∈ facts.scopes.references)
    (hu : r.usage = .member access) :
    ∃ n, SiteIn n p.tree.sites ∧ n.span = access.span ∧ n.kind.isAccess ∧
      access.span.start ≤ r.span.start ∧ r.span.stop ≤ access.span.stop := by
  obtain ⟨path, n, name, hpath, hk, hspan, husage, -⟩ := h.exists_path hr (by rw [hu]; exact nofun)
  obtain ⟨f, outer, rfl, haccess, hfspan, -⟩ := usage_eq_member (husage.trans hu)
  obtain ⟨hsite, hbounds⟩ := h.within_parent hpath hk (Script.Kind.isSite_of_isAccess haccess)
  rw [hspan, hfspan] at hbounds
  exact ⟨_, hsite, hfspan, haccess, hbounds⟩

theorem mem_calls {q : Requirement} (h : facts.ReadOff p) (hq : q ∈ facts.requirements) :
    q.call ∈ (Analysis.ofProgram p facts.record.source).calls := by
  rw [← h.calls_eq]
  exact List.mem_map_of_mem hq

theorem exists_call {q : Requirement} (h : facts.ReadOff p) (hq : q ∈ facts.requirements) :
    ∃ n, SiteIn n p.tree.sites ∧ n.span = q.call.span ∧ n.kind = .call := by
  have hcall := h.mem_calls hq
  rw [Analysis.calls_ofProgram] at hcall
  obtain ⟨⟨at_, v⟩, he, hcall⟩ := List.mem_filterMap.mp hcall
  cases v with
  | call site =>
    obtain ⟨path, n, hpath, hv, -⟩ := Analysis.exists_path facts.record.source h.kind he nofun
    obtain ⟨hk, hspan, -⟩ := callSite?_eq_some (mem_entering_call hv).2
    refine ⟨n, hpath.partOf.site (by rw [hk]; rfl), ?_, hk⟩
    rw [ScopeTree.called?] at hcall
    split at hcall
    · rw [hspan, ← Option.some.inj hcall]
    · cases hcall
  | enter | leave | declare | refer => cases hcall

section Surrounds

variable {text : String} {q : Requirement} {d : RequireDeclarator} {e : Edit}

theorem surrounds_typeof (h : facts.ReadOff p) (hr : r ∈ facts.scopes.references)
    (hu : r.usage = .typeof span) : (Edit.replacing span text).Surrounds p.tree := by
  obtain ⟨n, hn, hspan, hk, -⟩ := h.exists_typeof hr hu
  exact surrounds_replacing hn hspan (by rw [hk]; rfl) (by rw [hk]; rfl)

theorem surrounds_access {access : MemberAccess} (h : facts.ReadOff p) (hr : r ∈ facts.scopes.references)
    (hu : r.usage = .member access) : (Edit.replacing access.span text).Surrounds p.tree := by
  obtain ⟨n, hn, hspan, hk, -⟩ := h.exists_access hr hu
  exact surrounds_replacing hn hspan (Script.Kind.name?_of_isAccess hk)
    (Script.Kind.not_isDeclarator_of_isAccess hk)

theorem surrounds_call (h : facts.ReadOff p) (hq : q ∈ facts.requirements) :
    (Edit.replacing q.call.span text).Surrounds p.tree := by
  obtain ⟨n, hn, hspan, hk⟩ := h.exists_call hq
  exact surrounds_replacing hn hspan (by rw [hk]; rfl) (by rw [hk]; rfl)

/-- Where a declarator is taken out, the call goes with it. -/
theorem surrounds_declaratorEdit? {source : String} {gone : List Span} (h : facts.ReadOff p)
    (hq : q ∈ facts.requirements) (hd : q.call.declarator = some d)
    (he : declaratorEdit? source gone d = some e) : e.Surrounds p.tree := by
  obtain ⟨_, _, kind, _, hvariable⟩ := Analysis.exists_variableAt (h.mem_calls hq) hd
  obtain ⟨declared, declarators, span, names, args, rest, hsite, hspans, hat⟩ := hvariable.site
  dsimp only at hsite hspans hat
  obtain ⟨lo, hi, hlaid⟩ := h.laidOut
  obtain ⟨hinside, hsites⟩ := laidOut_declarators hlaid hsite rfl
  rw [Node.children] at hinside hsites
  rcases covers_of_declaratorEdit? (hspans ▸ pairwise_span hinside) he with ⟨hstart, hstop⟩ | ⟨hstart, hstop⟩
  · exact ⟨_, hsite, rfl, fun h => absurd h Bool.false_ne_true, Nat.le_of_eq hstart, Nat.le_of_eq hstop.symm⟩
  · have hspan : d.span = span := by
      rw [RequireDeclarator.span, hspans, List.getD_eq_getElem?_getD, List.getElem?_map, hat]
      rfl
    have hdeclarator := SiteIn.trans (hsites.symm ▸ SiteIn.of_mem (List.mem_of_getElem? hat)) hsite
    exact ⟨_, hdeclarator, rfl, fun _ => by simp [Node.children], hspan ▸ hstart, hspan ▸ hstop⟩

end Surrounds

end ModuleFacts.ReadOff

/-- An edit on a declaration is the whole of it or goes from one end of a declarator to another. -/
theorem within_of_declaratorEdit? {source : String} {gone : List Span} {d : RequireDeclarator} {e : Edit}
    (hd : DeclarationAt root d.declaration d.declarators) (hlaid : LaidOut chars ok lo hi root.sites)
    (h : declaratorEdit? source gone d = some e) :
    ∃ n, SiteIn n root.sites ∧ n.kind.isVariables ∧ n.span.start ≤ e.start ∧ e.stop ≤ n.span.stop := by
  obtain ⟨kind, children, hsite, hdeclarators⟩ := hd
  refine ⟨_, hsite, rfl, ?_⟩
  rcases cut_of_declaratorEdit? h with ⟨hstart, hstop⟩ | ⟨hopen, -⟩
  · exact ⟨Nat.le_of_eq hstart.symm, Nat.le_of_eq hstop⟩
  · obtain ⟨k, l, hcut⟩ := hopen.exists_cut
    rw [hdeclarators] at hcut
    obtain ⟨hlo, -, hhi, -⟩ := hcut.bounds (laidOut_declarators hlaid hsite rfl).1
    exact ⟨hlo, hhi⟩

end FlatBundle
