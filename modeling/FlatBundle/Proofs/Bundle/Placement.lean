import FlatBundle.Proofs.Bundle.Declarator
import FlatBundle.Proofs.Scope.Analysis

/-!
The edits of one module lie in its text and do not get in each other's way.
-/

namespace FlatBundle

open Script (Span Node LaidOut SiteIn Clear CommentBetween sitesOf)

variable {chars : List Char} {root m n : Node} {ok : Nat → Prop} {lo hi : Nat} {e e' : Edit}
  {gone : List Span} {cut cut' : List Span → Edit → Prop}

/-- An edit of a whole site, or one of a declaration that cuts it as said. -/
def EditOn (m : Node) (cut : List Span → Edit → Prop) (e : Edit) : Prop :=
  (e.start = m.span.start ∧ e.stop = m.span.stop) ∨
    m.kind.isVariables ∧ cut (m.children.map Node.span) e

/-- The declarators of a declaration are laid out in it. -/
theorem laidOut_declarators (h : LaidOut chars ok lo hi root.sites) (hm : SiteIn m root.sites)
    (hk : m.kind.isVariables) :
    LaidOut chars ok m.span.start m.span.stop m.children ∧ sitesOf m.children = m.children := by
  obtain ⟨kind, span, children⟩ := m
  cases (h.of_siteIn hm).1 with
  | cons _ _ _ _ _ inside site =>
    have hsites := Script.sitesOf_declarators (site.declarators hk).2
    exact ⟨hsites ▸ inside, hsites⟩

/-- An edit on a site is inside of it, and starts and stops where edits may. -/
theorem EditOn.bounds (h : EditOn m cut e) (hcut : ∀ ds, cut ds e → ∃ p q, Cut ds e p q)
    (hlaid : LaidOut chars ok lo hi root.sites) (hm : SiteIn m root.sites) :
    m.span.start ≤ e.start ∧ e.start ≤ e.stop ∧ e.stop ≤ m.span.stop ∧ ok e.start ∧ ok e.stop := by
  rcases h with ⟨hstart, hstop⟩ | ⟨hk, h⟩
  · rw [hstart, hstop]
    cases (hlaid.of_siteIn hm).1 with
    | cons _ le_stop _ ok_start ok_stop =>
      exact ⟨Nat.le_refl _, le_stop, Nat.le_refl _, ok_start, ok_stop⟩
  · obtain ⟨p, q, h⟩ := hcut _ h
    exact h.bounds (laidOut_declarators hlaid hm hk).1

/-- Edits on a site inside of another one do not get in the way of edits on that. -/
theorem EditOn.laminar_inside (h : EditOn m cut e) (hcut : ∀ ds, cut ds e → ∃ p q, Cut ds e p q)
    (hlaid : LaidOut chars ok lo hi root.sites) (hm : SiteIn m root.sites)
    (hn : SiteIn n (sitesOf m.children)) (hstart : n.span.start ≤ e'.start)
    (hstop : e'.stop ≤ n.span.stop) : e.Laminar e' := by
  rcases h with ⟨hes, het⟩ | ⟨hk, h⟩
  · obtain ⟨kind, span, children⟩ := m
    cases (hlaid.of_siteIn hm).1 with
    | cons _ _ _ _ _ inside =>
      obtain ⟨-, hlo, hhi⟩ := inside.of_siteIn hn
      refine .inr (.inr (.inl ⟨?_, ?_⟩))
      · rw [hes]
        exact Nat.le_trans hlo hstart
      · rw [het]
        exact Nat.le_trans hstop hhi
  · obtain ⟨p, q, h⟩ := hcut _ h
    obtain ⟨hinside, hsites⟩ := laidOut_declarators hlaid hm hk
    exact h.laminar_inside hinside (hsites ▸ hn) hstart hstop

/-- An edit on some site. An edit of nothing at the start of the text may be anywhere. -/
def EditAt (root : Node) (cut : List Span → Edit → Prop) (e : Edit) : Prop :=
  (e.start = 0 ∧ e.stop = 0) ∨ ∃ m, SiteIn m root.sites ∧ EditOn m cut e

/-- An edit that cuts nothing. -/
abbrev WholeAt (root : Node) : Edit → Prop :=
  EditAt root fun _ _ => False

namespace EditAt

theorem imp (h : EditAt root cut e) (himp : ∀ ds, cut ds e → cut' ds e) : EditAt root cut' e := by
  rcases h with h | ⟨m, hm, h | ⟨hk, h⟩⟩
  · exact .inl h
  · exact .inr ⟨m, hm, .inl h⟩
  · exact .inr ⟨m, hm, .inr ⟨hk, himp _ h⟩⟩

theorem any (h : WholeAt root e) : EditAt root cut e :=
  h.imp fun _ => False.elim

theorem bounds (h : EditAt root cut e) (hcut : ∀ ds, cut ds e → ∃ p q, Cut ds e p q)
    (hlaid : LaidOut chars ok lo hi root.sites) (hzero : ok 0) :
    e.start ≤ e.stop ∧ ok e.start ∧ ok e.stop := by
  rcases h with ⟨hstart, hstop⟩ | ⟨m, hm, h⟩
  · rw [hstart, hstop]
    exact ⟨Nat.le_refl _, hzero, hzero⟩
  · obtain ⟨-, hle, -, hok⟩ := h.bounds hcut hlaid hm
    exact ⟨hle, hok⟩

/-- What has been cut out before is not in the way of what is cut out later. -/
theorem laminar (h : EditAt root (CutClosed gone) e) (h' : EditAt root (CutOpen gone) e')
    (hlaid : LaidOut chars ok lo hi root.sites) : e.Laminar e' := by
  rcases h with ⟨hstart, hstop⟩ | ⟨m, hm, h⟩
  · exact .inl (hstop ▸ Nat.zero_le _)
  rcases h' with ⟨hstart', hstop'⟩ | ⟨n, hn, h'⟩
  · exact .inr (.inl (hstop' ▸ Nat.zero_le _))
  have hcut (ds : List Span) (hds : CutClosed gone ds e) := hds.exists_cut
  have hcut' (ds : List Span) (hds : CutOpen gone ds e') := hds.exists_cut
  obtain ⟨hlo, hle, hhi, -⟩ := h.bounds hcut hlaid hm
  obtain ⟨hlo', hle', hhi', -⟩ := h'.bounds hcut' hlaid hn
  rcases hlaid.trichotomy hm hn with rfl | hbefore | hafter | hinside | hinside
  · rcases h with ⟨hstart, hstop⟩ | ⟨hk, h⟩
    · exact .inr (.inr (.inl ⟨hstart ▸ hlo', hstop ▸ hhi'⟩))
    · rcases h' with ⟨hstart', hstop'⟩ | ⟨-, h'⟩
      · exact .inr (.inr (.inr ⟨hstart' ▸ hlo, hstop' ▸ hhi⟩))
      · exact h.laminar h' (laidOut_declarators hlaid hm hk).1
  · exact .inl (Nat.le_trans hhi (Nat.le_trans hbefore hlo'))
  · exact .inr (.inl (Nat.le_trans hhi' (Nat.le_trans hafter hlo)))
  · exact (h'.laminar_inside hcut' hlaid hn hinside hlo hhi).symm
  · exact h.laminar_inside hcut hlaid hm hinside hlo' hhi'

end EditAt

theorem wholeAt_replacing {span : Span} {text : String} (h : SiteSpan root span) :
    WholeAt root (.replacing span text) := by
  obtain ⟨m, hm, rfl⟩ := h
  exact .inr ⟨m, hm, .inl ⟨rfl, rfl⟩⟩

theorem allLaminar_whole {edits : List Edit} (h : ∀ e ∈ edits, WholeAt root e)
    (hlaid : LaidOut chars ok lo hi root.sites) : AllLaminar edits := fun a ha b hb =>
  @EditAt.laminar chars root ok lo hi a b [] (h a ha).any (h b hb).any hlaid

/-- The facts about a module whose names and calls stand at the sites of a tree. -/
structure ModuleFacts.Placed (root : Node) (m : ModuleFacts) : Prop where
  uses : m.uses = .ofScopes m.scopes
  scopes : m.scopes.Placed root
  calls : ∀ q ∈ m.requirements, q.call.Placed root
  laidOut : ∃ lo hi, LaidOut m.record.source.toList (Clear m.record.source.toList m.mapComment.toList) lo hi root.sites
  comment : ∀ c ∈ m.mapComment, ∃ hi, CommentBetween m.record.source.toList 0 hi c

theorem placed_ofAnalysis {t : Table} {i : Nat} {a : Analysis}
    (h : a.Placed (t.get i).source.toList root) : (ModuleFacts.ofAnalysis t i a).Placed root := by
  refine ⟨rfl, h.scopes, fun q hq => ?_, h.laidOut, h.comment⟩
  obtain ⟨call, hcall, rfl⟩ := List.mem_map.mp hq
  exact h.calls call hcall

section Names

variable {source name text : String} {r : Reference} {facts : ModuleFacts}

/-- A reference that is none of the module's own stands nowhere. -/
theorem wholeAt_renameOccurrence (hr : r = default ∨ r.Placed root) :
    WholeAt root (renameOccurrence source name r) := by
  rcases hr with rfl | hr
  · exact .inl ⟨rfl, rfl⟩
  · exact wholeAt_replacing hr.1

/-- The whole that a name is a part of may be replaced like the name. -/
theorem wholeAt_usage {usage : Usage} {span : Span} (hr : r = default ∨ r.Placed root)
    (hu : r.usage = usage) (hplain : usage ≠ .plain)
    (hspan : usage.Placed root → SiteSpan root span) : WholeAt root (.replacing span text) := by
  rcases hr with rfl | hr
  · exact absurd hu.symm hplain
  · exact wholeAt_replacing (hspan (hu ▸ hr.2))

theorem wholeAt_typeof {span : Span} (hr : r = default ∨ r.Placed root)
    (hu : r.usage = .typeof span) : WholeAt root (.replacing span text) :=
  wholeAt_usage hr hu nofun id

theorem wholeAt_member {access : MemberAccess} (hr : r = default ∨ r.Placed root)
    (hu : r.usage = .member access) : WholeAt root (.replacing access.span text) :=
  wholeAt_usage hr hu nofun id

theorem usage_of_member? {access : MemberAccess} (h : r.member? = some access) :
    r.usage = .member access := by
  unfold Reference.member? at h
  split at h
  · cases h
    assumption
  · cases h

theorem wholeAt_moduleEdit (hr : r = default ∨ r.Placed root) :
    WholeAt root (moduleEdit facts r) := by
  unfold moduleEdit
  split
  · exact wholeAt_typeof hr ‹_›
  · split
    · exact wholeAt_member hr ‹_›
    · exact wholeAt_renameOccurrence hr
  · exact wholeAt_renameOccurrence hr

theorem wholeAt_typeofRequireEdits (h : facts.Placed root) :
    ∀ e ∈ typeofRequireEdits facts, WholeAt root e := by
  intro e he
  obtain ⟨r, hr, he⟩ := List.mem_filterMap.mp he
  rw [h.uses] at hr
  split at he
  · cases he
    exact wholeAt_typeof (h.scopes.referencesOf r hr) ‹_›
  · cases he

theorem wholeAt_exportsEdits (h : facts.Placed root) :
    ∀ e ∈ exportsEdits facts, WholeAt root e := by
  intro e he
  rcases List.mem_append.mp he with he | he
  · obtain ⟨r, hr, he⟩ := List.mem_filterMap.mp he
    obtain ⟨access, haccess, rfl⟩ := Option.map_eq_some_iff.mp he
    rw [h.uses, WrapperUse.ofScopes, List.partition_eq_filter_filter] at hr
    exact wholeAt_member (h.scopes.referencesOf r (List.mem_filter.mp hr).1)
      (usage_of_member? haccess)
  · obtain ⟨r, hr, rfl⟩ := List.mem_map.mp he
    rw [h.uses] at hr
    exact wholeAt_renameOccurrence (h.scopes.referencesOf r hr)

theorem wholeAt_moduleEdits (h : facts.Placed root) :
    ∀ e ∈ facts.uses.module.map (moduleEdit facts), WholeAt root e := by
  intro e he
  obtain ⟨r, hr, rfl⟩ := List.mem_map.mp he
  rw [h.uses, WrapperUse.ofScopes, List.partition_eq_filter_filter] at hr
  exact wholeAt_moduleEdit (h.scopes.referencesOf r (List.mem_filter.mp hr).1)

theorem wholeAt_renamed {binding : Nat} (h : facts.Placed root) :
    ∀ e ∈ (facts.scopes.referencesOf binding).map (renameOccurrence source name),
      WholeAt root e := by
  intro e he
  obtain ⟨r, hr, rfl⟩ := List.mem_map.mp he
  exact wholeAt_renameOccurrence (h.scopes.referencesOf r hr)

end Names

section Requirements

variable {l : Linked} {facts : ModuleFacts} {call : RequireCall} {target : String}

theorem editAt_declaratorEdit? {source : String} {d : RequireDeclarator}
    (hd : DeclarationAt root d.declaration d.declarators) (he : declaratorEdit? source gone d = some e) :
    EditAt root (CutOpen gone) e ∧ EditAt root (CutClosed (d.span :: gone)) e := by
  obtain ⟨kind, children, hdeclaration, hdeclarators⟩ := hd
  rcases cut_of_declaratorEdit? he with hwhole | ⟨hopen, hclosed⟩
  · exact ⟨.inr ⟨_, hdeclaration, .inl hwhole⟩, .inr ⟨_, hdeclaration, .inl hwhole⟩⟩
  · rw [hdeclarators] at hopen hclosed
    exact ⟨.inr ⟨_, hdeclaration, .inr ⟨rfl, hopen⟩⟩, .inr ⟨_, hdeclaration, .inr ⟨rfl, hclosed⟩⟩⟩

/-- Each edit for an inlined call cuts between declarators still there, and takes along only its
own. -/
theorem editAt_inlineEdits (h : facts.Placed root) (hcall : call.Placed root) :
    ∀ e ∈ inlineEdits facts gone call target, EditAt root (CutOpen gone) e ∧
      EditAt root (CutClosed ((call.declarator.map (·.span)).toList ++ gone)) e := by
  intro e he
  unfold inlineEdits at he
  split at he
  · obtain rfl := List.mem_singleton.mp he
    exact ⟨(wholeAt_replacing hcall.1).any, (wholeAt_replacing hcall.1).any⟩
  · rename_i d hd
    rcases List.mem_append.mp he with he | he
    · have hwhole := wholeAt_renamed h e he
      exact ⟨hwhole.any, hwhole.any⟩
    · rw [hd]
      exact editAt_declaratorEdit? (hcall.2 d hd) (Option.mem_toList.mp he)

theorem allLaminar_inlineEdits (h : facts.Placed root) (hcall : call.Placed root)
    (hlaid : LaidOut chars ok lo hi root.sites) : AllLaminar (inlineEdits facts gone call target) := by
  have hinline := @editAt_inlineEdits root gone facts call target h hcall
  unfold inlineEdits at hinline ⊢
  split
  · exact allLaminar_singleton _
  · rename_i d hd
    rw [hd] at hinline
    refine .append (allLaminar_whole (wholeAt_renamed h) hlaid) ?_ fun a ha b hb =>
      (wholeAt_renamed h a ha).any.laminar (hinline b (List.mem_append_right _ hb)).1 hlaid
    cases declaratorEdit? facts.record.source gone d with
    | none => exact nofun
    | some e => exact allLaminar_singleton e

/-- Calls are replaced one after the other; what goes with one of them is not in the way of later
ones. -/
theorem requirementEdits_spec (h : facts.Placed root) (hlaid : LaidOut chars ok lo hi root.sites)
    {qs : List Requirement} (hqs : ∀ q ∈ qs, q.call.Placed root) :
    (∀ e ∈ requirementEdits l facts gone qs, EditAt root (CutOpen gone) e) ∧
      AllLaminar (requirementEdits l facts gone qs) := by
  induction qs generalizing gone with
  | nil => exact ⟨nofun, nofun⟩
  | cons q qs ih =>
    obtain ⟨call, where_⟩ := q
    have hcall : call.Placed root := hqs _ (List.mem_cons_self ..)
    have hrest {gone : List Span} := @ih gone fun q hq => hqs q (List.mem_cons_of_mem _ hq)
    have hreplaced (text : String) :
        (∀ e ∈ .replacing call.span text :: requirementEdits l facts gone qs,
          EditAt root (CutOpen gone) e) ∧
        AllLaminar (.replacing call.span text :: requirementEdits l facts gone qs) := by
      have hwhole : WholeAt root (.replacing call.span text) := wholeAt_replacing hcall.1
      refine ⟨List.forall_mem_cons.mpr ⟨hwhole.any, hrest.1⟩, ?_⟩
      refine .append (allLaminar_singleton _) hrest.2 fun a ha b hb => ?_
      rw [List.mem_singleton.mp ha]
      exact hwhole.any.laminar (hrest.1 b hb) hlaid
    cases where_ with
    | external id => exact hreplaced _
    | internal i =>
      rw [requirementEdits]
      split
      · exact hreplaced _
      · have hinline := @editAt_inlineEdits root gone facts call (l.exportsOf i) h hcall
        refine ⟨fun e he => ?_, ?_⟩
        · rcases List.mem_append.mp he with he | he
          · exact (hinline e he).1
          · exact (hrest.1 e he).imp fun _ hcut => hcut.mono (List.subset_append_right _ _)
        · exact .append (allLaminar_inlineEdits h hcall hlaid) hrest.2 fun a ha b hb =>
            (hinline a ha).2.laminar (hrest.1 b hb) hlaid

end Requirements

/-- All edits of a module, with the one that takes its own source map comment out. -/
def placedEdits (options : Options) (l : Linked) (i : Nat) : List Edit :=
  moduleEdits l i ++
    ((if options.debug then ownMap? (l.facts i) else none).map fun (span, _) =>
      Edit.replacing span "").toList

section Modules

variable {options : Options} {l : Linked} {i : Nat}

/-- The comment that is taken out is the one that names a map. -/
theorem exists_comment {m : ModuleFacts} (he : e ∈ ((if options.debug then ownMap? m else none).map
    fun (span, _) => Edit.replacing span "").toList) : ∃ c, m.mapComment = some c ∧ e = .replacing c "" := by
  obtain ⟨⟨c, map⟩, hown, rfl⟩ := Option.map_eq_some_iff.mp (Option.mem_toList.mp he)
  refine ⟨c, ?_, rfl⟩
  split at hown
  · obtain ⟨c', hc, hown⟩ := Option.bind_eq_some_iff.mp hown
    obtain ⟨_, -, hown⟩ := Option.bind_eq_some_iff.mp hown
    cases hown
    exact hc
  · cases hown

theorem mem_placedEdits (he : e ∈ placedEdits options l i) : e ∈ moduleEdits l i ∨
    ∃ c, (l.facts i).mapComment = some c ∧ e = .replacing c "" :=
  (List.mem_append.mp he).imp_right exists_comment

theorem moduleEdits_spec (h : (l.facts i).Placed root) (hlaid : LaidOut chars ok lo hi root.sites) :
    (∀ e ∈ moduleEdits l i, EditAt root (CutOpen []) e) ∧ AllLaminar (moduleEdits l i) := by
  obtain ⟨hplaced, hlaminar⟩ :=
    @requirementEdits_spec chars root ok lo hi [] l (l.facts i) h hlaid _ h.calls
  have hnames : ∀ e ∈ typeofRequireEdits (l.facts i) ++
      (if l.isOnDemand i then []
        else exportsEdits (l.facts i) ++ (l.facts i).uses.module.map (moduleEdit (l.facts i)) ++
          (l.renamedBindings i).flatMap (collisionEdits (l.facts i))), WholeAt root e := by
    intro e he
    rcases List.mem_append.mp he with he | he
    · exact wholeAt_typeofRequireEdits h e he
    · split at he
      · cases he
      · rcases List.mem_append.mp he with he | he
        · rcases List.mem_append.mp he with he | he
          · exact wholeAt_exportsEdits h e he
          · exact wholeAt_moduleEdits h e he
        · obtain ⟨binding, -, he⟩ := List.mem_flatMap.mp he
          exact wholeAt_renamed h e he
  refine ⟨fun e he => ?_, .append (allLaminar_whole hnames hlaid) hlaminar fun a ha b hb =>
    (hnames a ha).any.laminar (hplaced b hb) hlaid⟩
  rcases List.mem_append.mp he with he | he
  · exact (hnames e he).any
  · exact hplaced e he

theorem clear_zero {source : List Char} {comments : List Span} : Clear source comments 0 :=
  ⟨isBoundary_iff.mpr ⟨source, [], rfl, rfl⟩, fun _ _ => .inl (Nat.zero_le _)⟩

/-- A comment that an edit keeps clear of is inside of it or not touched. -/
theorem Edit.laminar_of_clear {source : List Char} {c : Span} (hstart : Clear source [c] e.start)
    (hstop : Clear source [c] e.stop) (text : String) : e.Laminar (.replacing c text) := by
  have hs := hstart.2 c (List.mem_singleton_self c)
  have ht := hstop.2 c (List.mem_singleton_self c)
  unfold Edit.Laminar Edit.replacing
  dsimp only
  omega

/-- Edits of a module never leave its text, nor do any two of them get in each other's way. -/
theorem placedEdits_spec (h : (l.facts i).Placed root) :
    (∀ e ∈ placedEdits options l i, e.fits (l.facts i).record.source.toList) ∧
      AllLaminar (placedEdits options l i) := by
  obtain ⟨lo, hi, hlaid⟩ := h.laidOut
  obtain ⟨hplaced, hlaminar⟩ := moduleEdits_spec h hlaid
  have hbounds {e : Edit} (he : e ∈ moduleEdits l i) :=
    (hplaced e he).bounds (fun _ => CutOpen.exists_cut) hlaid clear_zero
  have hfits : ∀ e ∈ moduleEdits l i, e.fits (l.facts i).record.source.toList := fun e he =>
    Edit.fits_iff.mpr ⟨(hbounds he).1, (hbounds he).2.1.1, (hbounds he).2.2.1⟩
  have hcomment {c : Span} (hc : (l.facts i).mapComment = some c) {a : Edit} (ha : a ∈ moduleEdits l i) :
      a.Laminar (.replacing c "") := by
    have ha := hbounds ha
    rw [hc] at ha
    exact Edit.laminar_of_clear ha.2.1 ha.2.2 ""
  constructor
  · intro e he
    rcases mem_placedEdits he with he | ⟨c, hc, rfl⟩
    · exact hfits e he
    · obtain ⟨_, hcomment⟩ := h.comment c hc
      exact Edit.fits_iff.mpr ⟨hcomment.le_stop, hcomment.start, hcomment.stop⟩
  · intro a ha b hb
    rcases mem_placedEdits ha with ha | ⟨c, hc, rfl⟩
    · rcases mem_placedEdits hb with hb | ⟨c, hc, rfl⟩
      · exact hlaminar a ha b hb
      · exact hcomment hc ha
    · rcases mem_placedEdits hb with hb | ⟨c', hc', rfl⟩
      · exact (hcomment hc hb).symm
      · cases hc.symm.trans hc'
        exact .refl

theorem placeModule_eq (names : LoaderNames) :
    placeModule options l names i =
      (EditList.apply ⟨placedEdits options l i, (moduleFrame l names i).1, (moduleFrame l names i).2⟩
        (l.facts i).record.source (moduleMapRequest options (l.facts i).record)).map fun piece =>
          { piece with
            map :=
              match if options.debug then ownMap? (l.facts i) else none with
              | some (_, inner) => piece.map.map (·.compose inner)
              | none => piece.map } := by
  unfold placeModule placedEdits
  dsimp only
  rcases EditList.apply _ _ _ with error | piece <;> rfl

theorem placeModule_ok (names : LoaderNames) (h : (l.facts i).Placed root) :
    ∃ piece, placeModule options l names i = .ok piece := by
  obtain ⟨hfits, hlaminar⟩ := @placedEdits_spec root options l i h
  obtain ⟨piece, hpiece⟩ := @EditList.apply_ok
    ⟨placedEdits options l i, (moduleFrame l names i).1, (moduleFrame l names i).2⟩
    (l.facts i).record.source (moduleMapRequest options (l.facts i).record) hfits hlaminar
  rw [placeModule_eq, hpiece]
  exact ⟨_, rfl⟩

end Modules

end FlatBundle
