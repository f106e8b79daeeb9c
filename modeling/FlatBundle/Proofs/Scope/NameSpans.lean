import FlatBundle.Proofs.Scope.Path

/-!
The places of names: no two of them overlap, so that each place belongs to one occurrence, and the text
there is the name that the occurrence is bound by.
-/

namespace FlatBundle

open Script (Span Node LaidOut SiteIn sitesOf)

variable {chars : List Char} {ok : Nat → Prop} {root n c : Node} {path : Path} {span : Span} {name : String}
  {vs ws : List Visit} {at_ : Nat}

/-- Where a name is declared or looked up. -/
def Visit.nameSpan? : Visit → Option Span
  | .declare _ _ span _ | .refer _ span _ _ => some span
  | .enter _ | .leave | .call _ => none

def nameSpans (vs : List Visit) : List Span :=
  vs.filterMap Visit.nameSpan?

/-- One span comes after the other. -/
def Script.Span.Apart (s s' : Span) : Prop :=
  s.stop ≤ s'.start ∨ s'.stop ≤ s.start

theorem Trail.map_locate (tr : Trail) (vs : List Visit) : (tr.locate vs).map (·.2) = vs := by
  induction vs generalizing tr with
  | nil => rfl
  | cons v vs ih => rw [Trail.locate, List.map_cons, ih]

section Visits

@[simp]
theorem nameSpans_append : nameSpans (vs ++ ws) = nameSpans vs ++ nameSpans ws :=
  List.filterMap_append ..

@[simp]
theorem nameSpans_leaving : nameSpans (leaving n) = [] := by
  unfold leaving
  cases scopeKind? n.kind <;> rfl

theorem nameSpans_ownNameVisits {place : DeclarationPlace} :
    nameSpans (ownNameVisits place n) = (ownName? n).toList.map (·.2) := by
  unfold ownNameVisits
  cases ownName? n <;> rfl

/-- On entering a node at most one name is declared or looked up: the node itself, or the name that a
function or class declares. -/
theorem nameSpans_entering (path : Path) (n : Node) : nameSpans (entering path n) = [] ∨
    n.kind.name?.isSome ∧ nameSpans (entering path n) = [n.span] ∨
    (∀ k, isOwnName (⟨n, k⟩ :: path)) ∧ nameSpans (entering path n) = (ownName? n).toList.map (·.2) := by
  have hbefore {place : DeclarationPlace} {scope : ScopeKind} :
      nameSpans (ownNameVisits place n ++ [.enter scope]) = (ownName? n).toList.map (·.2) := by
    rw [nameSpans_append, nameSpans_ownNameVisits]
    exact List.append_nil _
  have hafter {place : DeclarationPlace} {scope : ScopeKind} :
      nameSpans (.enter scope :: ownNameVisits place n) = (ownName? n).toList.map (·.2) :=
    nameSpans_ownNameVisits
  obtain ⟨kind, span, children⟩ := n
  unfold entering
  split
  case h_1 hk =>
    obtain rfl : kind = _ := hk
    exact .inr (.inr ⟨fun _ => rfl, hbefore⟩)
  case h_2 hk =>
    obtain rfl : kind = _ := hk
    exact .inr (.inr ⟨fun _ => rfl, hafter⟩)
  case h_3 hk =>
    obtain rfl : kind = _ := hk
    exact .inr (.inr ⟨fun _ => rfl, hbefore⟩)
  case h_4 hk =>
    obtain rfl : kind = _ := hk
    exact .inr (.inr ⟨fun _ => rfl, hafter⟩)
  case h_5 hk =>
    obtain rfl : kind = _ := hk
    split
    · exact .inl rfl
    · exact .inr (.inl ⟨rfl, rfl⟩)
  case h_6 hk =>
    obtain rfl : kind = _ := hk
    exact .inr (.inl ⟨rfl, rfl⟩)
  case h_7 =>
    refine .inl ?_
    cases callSite? path (.mk kind span children) <;> rfl
  case h_8 =>
    refine .inl ?_
    cases scopeKind? (Node.mk kind span children).kind <;> rfl

theorem childVisits_append (path : Path) (parent : Node) (position : Nat) (ns ms : List Node) :
    childVisits path parent position (ns ++ ms) =
      childVisits path parent position ns ++ childVisits path parent (position + ns.length) ms := by
  induction ns generalizing position with
  | nil => simp [childVisits]
  | cons n ns ih =>
    rw [List.cons_append, childVisits, childVisits, ih, List.append_assoc, List.length_cons,
      Nat.add_assoc, Nat.add_comm 1]

/-- A function or class declares its name itself, so that nothing happens at the name. -/
theorem visits_ownName (h : isOwnName path) : visits path (.mk (.binding name) span []) = [] := by
  rw [visits, childVisits]
  simp [entering, leaving, Node.kind, h, scopeKind?]

end Visits

mutual

/-- The names on the way through a node stand at sites of the node. -/
theorem siteSpan_of_mem_nameSpans (path : Path) :
    (n : Node) → span ∈ nameSpans (visits path n) → SiteSpan n span
  | .mk kind whole children, h => by
    rw [visits] at h
    rw [nameSpans_append, nameSpans_append, nameSpans_leaving, List.append_nil] at h
    rcases List.mem_append.mp h with h | h
    · rcases nameSpans_entering path (.mk kind whole children) with hnone | ⟨hname, heq⟩ | ⟨-, heq⟩
      · rw [hnone] at h
        cases h
      · rw [heq] at h
        obtain rfl := List.mem_singleton.mp h
        refine PartOf.siteSpan (fun _ hm => hm) ?_
        cases kind <;> first | rfl | cases hname
      · rw [heq] at h
        obtain ⟨⟨name, _⟩, hown, rfl⟩ := List.mem_map.mp h
        exact (bindingAt_ownName? (fun _ hm => hm) (Option.mem_toList.mp hown)).siteSpan
    · obtain ⟨c, hc, m, hm, hspan⟩ := exists_of_mem_nameSpans path _ 0 children h
      exact ⟨m, hm.of_child hc, hspan⟩

theorem exists_of_mem_nameSpans (path : Path) (parent : Node) (position : Nat) :
    (ns : List Node) → span ∈ nameSpans (childVisits path parent position ns) → ∃ n ∈ ns, SiteSpan n span
  | n :: rest, h => by
    rw [childVisits, nameSpans_append] at h
    rcases List.mem_append.mp h with h | h
    · exact ⟨n, List.mem_cons_self, siteSpan_of_mem_nameSpans _ n h⟩
    · obtain ⟨m, hm, hspan⟩ := exists_of_mem_nameSpans path parent (position + 1) rest h
      exact ⟨m, List.mem_cons_of_mem _ hm, hspan⟩

end

/-- What a function or class declares is apart from all other names in it. -/
theorem apart_ownName {lo hi : Nat} (hlaid : LaidOut chars ok lo hi (sitesOf n.children))
    (hown : ∀ k, isOwnName (⟨n, k⟩ :: path)) (h : ownName? n = some (name, span)) {span' : Span}
    (hspan' : span' ∈ nameSpans (childVisits path n 0 n.children)) : span.Apart span' := by
  obtain ⟨kind, whole, children⟩ := n
  obtain ⟨front, c, back, rfl, hc, -⟩ := List.findSome?_eq_some_iff.mp h
  obtain ⟨names, rfl⟩ : ∃ names, c = .mk (.binding name) span names := by
    split at hc
    · cases hc
      exact ⟨_, rfl⟩
    · cases hc
  have hsites : sitesOf (front ++ .mk (.binding name) span names :: back) =
      sitesOf front ++ ([.mk (.binding name) span names] ++ sitesOf back) := by
    rw [Script.sitesOf_append, Script.sitesOf_cons, Script.sites_of_isSite rfl]
  rw [Node.children, hsites] at hlaid
  have hsite : SiteIn (.mk (.binding name) span names) [.mk (.binding name) span names] := .here
  obtain ⟨rfl, -⟩ := (hlaid.site_of_siteIn (SiteIn.append_right hsite.append_left)).named name rfl
  rw [Node.children, childVisits_append, childVisits, visits_ownName (hown _), List.nil_append,
    nameSpans_append] at hspan'
  rcases List.mem_append.mp hspan' with hfront | hback
  · obtain ⟨m, hm, k, hk, rfl⟩ := exists_of_mem_nameSpans _ _ _ _ hfront
    exact .inr (hlaid.before (hk.of_mem_sites hm) hsite.append_left)
  · obtain ⟨m, hm, k, hk, rfl⟩ := exists_of_mem_nameSpans _ _ _ _ hback
    rw [← List.append_assoc] at hlaid
    exact .inl (hlaid.before hsite.append_right (hk.of_mem_sites hm))

mutual

/-- No two names on the way through a node overlap. -/
theorem pairwise_nameSpans (path : Path) :
    (n : Node) → (∃ lo hi, LaidOut chars ok lo hi n.sites) → (nameSpans (visits path n)).Pairwise Span.Apart
  | .mk kind whole children, ⟨lo, hi, hlaid⟩ => by
    have hinner := pairwise_nameSpans_children path (.mk kind whole children) 0 children hlaid.children
    rw [visits]
    rw [nameSpans_append, nameSpans_append, nameSpans_leaving, List.append_nil]
    rcases nameSpans_entering path (.mk kind whole children) with hnone | ⟨hname, heq⟩ | ⟨hown, heq⟩
    · rw [hnone]
      exact hinner
    · -- a name has nothing in it
      obtain ⟨name, hname⟩ := Option.isSome_iff_exists.mp hname
      have hsite : kind.isSite := by cases kind <;> first | rfl | cases hname
      rw [Script.sites_of_isSite hsite] at hlaid
      obtain ⟨rfl, -⟩ := (hlaid.site_of_siteIn .here).named name hname
      rw [heq, childVisits]
      exact List.pairwise_singleton _ _
    · rw [heq]
      cases hname : ownName? (.mk kind whole children) with
      | none => exact hinner
      | some own =>
        obtain ⟨name, span⟩ := own
        obtain ⟨lo, hi, hlaid⟩ := hlaid.children
        exact List.pairwise_cons.mpr ⟨fun s hs => apart_ownName hlaid hown hname hs, hinner⟩

theorem pairwise_nameSpans_children (path : Path) (parent : Node) (position : Nat) :
    (ns : List Node) → (∃ lo hi, LaidOut chars ok lo hi (sitesOf ns)) →
      (nameSpans (childVisits path parent position ns)).Pairwise Span.Apart
  | [], _ => by
    rw [childVisits]
    exact .nil
  | n :: rest, ⟨lo, hi, hlaid⟩ => by
    rw [Script.sitesOf_cons] at hlaid
    rw [childVisits, nameSpans_append]
    refine List.pairwise_append.mpr
      ⟨pairwise_nameSpans _ n ⟨lo, hi, hlaid.sublist (List.sublist_append_left _ _)⟩,
        pairwise_nameSpans_children path parent (position + 1) rest
          ⟨lo, hi, hlaid.sublist (List.sublist_append_right _ _)⟩, fun s hs s' hs' => ?_⟩
    obtain ⟨m, hm, rfl⟩ := siteSpan_of_mem_nameSpans _ n hs
    obtain ⟨o, ho, k, hk, rfl⟩ := exists_of_mem_nameSpans _ _ _ rest hs'
    exact .inl (hlaid.before hm (hk.of_mem_sites ho))

end

namespace Analysis

variable {p : Script.Program} {source : String} {lo hi s b : Nat} {r r' : Reference}

/-- An occurrence comes from a visit of its name. -/
theorem exists_visit (hr : r ∈ (ofProgram p source).scopes.references) :
    ∃ e ∈ p.visited, e.2.nameSpan? = some r.span ∧
      ((ofProgram p source).scopes.declared? e = some r ∨
        (ofProgram p source).scopes.referred? e = some r) := by
  have hr := Array.mem_toList_iff.mpr hr
  rw [references_ofProgram] at hr
  rcases List.mem_append.mp hr with hr | hr
  · obtain ⟨⟨at_, v⟩, he, hr⟩ := List.mem_filterMap.mp hr
    refine ⟨_, he, ?_, .inl hr⟩
    cases v <;> cases hr
    rfl
  · obtain ⟨⟨at_, v⟩, he, hr⟩ := List.mem_filterMap.mp hr
    refine ⟨_, he, ?_, .inr hr⟩
    cases v <;> cases hr
    rfl

/-- Different occurrences stand at different places. -/
theorem eq_of_span (hp : p.tree.kind = .program) (hlaid : LaidOut chars ok lo hi p.tree.sites)
    (hr : r ∈ (ofProgram p source).scopes.references) (hr' : r' ∈ (ofProgram p source).scopes.references)
    (hspan : r.span = r'.span) : r = r' := by
  have hlt : r.span.start < r.span.stop := by
    obtain ⟨m, name, hm, heq, hname⟩ := exists_nameSite hp hr
    exact heq ▸ ((hlaid.site_of_siteIn hm).named name hname).2.lt
  have hpairwise : (nameSpans (visits [] p.tree)).Pairwise Span.Apart :=
    pairwise_nameSpans [] p.tree ⟨lo, hi, hlaid⟩
  rw [← Trail.map_locate .start (visits _ _), nameSpans, List.filterMap_map, List.pairwise_filterMap] at hpairwise
  obtain ⟨e, he, hv, hmakes⟩ := exists_visit hr
  obtain ⟨e', he', hv', hmakes'⟩ := exists_visit hr'
  -- visits with names at one place are one visit
  obtain rfl : e = e' := by
    obtain ⟨i, hi, rfl⟩ := List.getElem_of_mem he
    obtain ⟨j, hj, rfl⟩ := List.getElem_of_mem he'
    rw [← hspan] at hv'
    have hbefore := List.pairwise_iff_getElem.mp hpairwise
    rcases Nat.lt_trichotomy i j with hij | rfl | hij
    · exact absurd (hbefore i j hi hj hij _ hv _ hv') (by unfold Span.Apart; omega)
    · rfl
    · exact absurd (hbefore j i hj hi hij _ hv' _ hv) (by unfold Span.Apart; omega)
  obtain ⟨at_, v⟩ := e
  rcases hmakes with h | h <;> rcases hmakes' with h' | h'
  · exact Option.some.inj (h.symm.trans h')
  · cases v <;> cases h
    cases h'
  · cases v <;> cases h
    cases h'
  · exact Option.some.inj (h.symm.trans h')

/-- The occurrences of what a scope binds are written as the name it binds. -/
theorem names_of_bound (hp : p.tree.kind = .program) (hlaid : LaidOut chars ok lo hi p.tree.sites)
    (hb : ((ofProgram p source).scopes.scope s).bindings.lookup name = some b)
    (hr : r ∈ (ofProgram p source).scopes.referencesOf b) :
    Script.Names chars r.span.start r.span.stop name := by
  obtain ⟨hdeclaring, hlookup⟩ := occurrences_of_bound hb
  cases hdeclares : r.declares with
  | true =>
    have hmem : r.span ∈ (ofProgram p source).scopes.declaringSpans b :=
      List.mem_map_of_mem (List.mem_filter.mpr ⟨hr, hdeclares⟩)
    rw [hdeclaring] at hmem
    obtain ⟨⟨at_, v⟩, he, hv⟩ := List.mem_filterMap.mp hmem
    cases v with
    | declare place other span shorthand =>
      rw [ScopeTree.declaration?] at hv
      split at hv
      next hname =>
        cases hv
        obtain ⟨children, hsite⟩ := placed_visits [] (List.forall_mem_nil _) p.tree (fun _ hm => hm) _
          (Trail.mem_of_mem_locate he)
        exact ((hlaid.site_of_siteIn hsite).named name (by rw [← hname.1]; rfl)).2
      next => cases hv
    | enter | leave | refer | call => cases hv
  | false =>
    have hmem : r.span ∈ (ofProgram p source).scopes.lookupSpans b :=
      List.mem_map_of_mem (List.mem_filter.mpr ⟨hr, by simp [hdeclares]⟩)
    rw [hlookup] at hmem
    obtain ⟨⟨at_, v⟩, he, hv⟩ := List.mem_filterMap.mp hmem
    cases v with
    | refer other span shorthand usage =>
      rw [ScopeTree.lookup?] at hv
      split at hv
      next hfind =>
        cases hv
        obtain ⟨inner, owner, outer, -, howner, -⟩ := ScopeTree.findBinding_eq_some_iff.mp hfind
        obtain ⟨-, rfl⟩ := sound_scopes.eq_of_lookup hb howner
        obtain ⟨path, n, hpath, hv, -⟩ := exists_path source hp he (by simp)
        obtain ⟨hk, hspan, -⟩ := mem_entering_refer hv
        rw [← hspan]
        exact ((hlaid.site_of_siteIn (hpath.partOf.site (by rw [hk]; rfl))).named name (by rw [hk]; rfl)).2
      next => cases hv
    | enter | leave | declare | call => cases hv

end Analysis

end FlatBundle
