import FlatBundle.Proofs.Bundle.EditSites
import FlatBundle.Proofs.Bundle.Emission
import FlatBundle.Proofs.Edit.Outcome
import FlatBundle.Proofs.Script.Word

/-!
What becomes of the occurrences of a name. Several edits may be of the place of an occurrence, and the last
one of them wins. It is the same one at all occurrences of a binding: the name changes everywhere or nowhere.
-/

namespace FlatBundle

open Script (Span Node SiteIn LaidOut Clear)

variable {options : Options} {t : Table} {modules : List ModuleFacts} {l : Linked} {facts : ModuleFacts}
  {p : Script.Program} {r r' : Reference} {e : Edit} {edits : List Edit} {gone : List Span}
  {qs : List Requirement} {source name : String} {i b b' s : Nat}

/-- How an occurrence is spelled, given the new name of its binding: as it was if there is none. -/
def Reference.respelled (r : Reference) (source : String) (name? : Option String) : String :=
  match name? with
  | some name => if r.shorthand then spanText source r.span ++ ": " ++ name else name
  | none => spanText source r.span

/-- The variable that takes the place of a binding, if a call for an eager module gives that its value. -/
def Requirement.inlinedName? (l : Linked) (b : Nat) : Requirement → Option String
  | ⟨call, .internal target⟩ =>
    if l.isOnDemand target = false ∧ call.declarator.any (·.binding == b) then
      some (l.facts target).exportsName
    else none
  | ⟨_, .external _⟩ => none

/-- The new name of a binding: the variable of the last eager module that gives it a value, or else what a
top-level name of an eager module changes to. -/
def Linked.newName? (l : Linked) (i b : Nat) : Option String :=
  ((l.facts i).requirements.filterMap (·.inlinedName? l b)).getLast?.or
    (if l.isOnDemand i = false ∧ b ∈ l.renamedBindings i then some (changedName (l.facts i) b) else none)

/-- An edit goes around a span and takes more than that. -/
def Edit.Exceeds (e : Edit) (s : Span) : Prop :=
  e.start ≤ s.start ∧ s.stop ≤ e.stop ∧ (e.start < s.start ∨ s.stop < e.stop)

instance (e : Edit) (s : Span) : Decidable (e.Exceeds s) :=
  inferInstanceAs (Decidable (_ ∧ _ ∧ _))

/-- The comment that names a map starts with a slash. -/
theorem restAt_of_isMapComment {chars : List Char} {c : Span} (h : isMapComment chars c) :
    ∃ rest, RestAt chars ('/' :: rest) c.start := by
  unfold isMapComment at h
  split at h
  · cases h
  next before after hsplit =>
    obtain ⟨rfl, hlength⟩ := append_of_splitAtByte hsplit
    have hstart := (Bool.and_eq_true_iff.mp h).1
    obtain ⟨rest, rfl⟩ : ∃ rest, after = '/' :: rest := by
      rcases Bool.or_eq_true_iff.mp hstart with hstart | hstart <;>
        obtain ⟨rest, rfl⟩ := List.isPrefixOf_iff_prefix.mp hstart <;> exact ⟨_, rfl⟩
    exact ⟨rest, before, rfl, hlength⟩

namespace ModuleFacts.ReadOff

theorem eq_of_place (h : facts.ReadOff p) (hr : r ∈ facts.scopes.references)
    (hr' : r' ∈ facts.scopes.references) (hstart : r.span.start = r'.span.start)
    (hstop : r.span.stop = r'.span.stop) : r = r' := by
  obtain ⟨lo, hi, hlaid⟩ := h.laidOut
  rw [h.scopes_eq] at hr hr'
  refine Analysis.eq_of_span h.kind hlaid hr hr' ?_
  cases hspan : r.span
  cases hspan' : r'.span
  simp_all

/-- The comment that names a map is apart from all names. -/
theorem apart_comment {c : Span} (h : facts.ReadOff p) (hr : r ∈ facts.scopes.references)
    (hc : facts.mapComment = some c) : c.Apart r.span := by
  obtain ⟨n, name, hn, hspan, hname⟩ := h.exists_name hr
  obtain ⟨lo, hi, hlaid⟩ := h.laidOut
  obtain ⟨hstart, hstop⟩ := hlaid.ends_of_siteIn hn
  have hstart := hstart.2 c (by simp [hc])
  have hstop := hstop.2 c (by simp [hc])
  have hnames := ((hlaid.site_of_siteIn hn).named name hname).2
  rw [hspan] at hstart hstop hnames
  have hmap : isMapComment facts.record.source.toList c :=
    List.find?_some (h.comment_eq.symm.trans hc)
  obtain ⟨rest, hat⟩ := restAt_of_isMapComment hmap
  by_contra hnot
  unfold Span.Apart at hnot
  -- else it would start in the name
  have hslash := hnames.isWordPart_of_between hat (by omega) (by omega)
  exact absurd hslash (by decide)

/-- An edit is not of an occurrence of a binding: it goes around more than a name, or is of an occurrence of
another binding. -/
def Spares (p : Script.Program) (facts : ModuleFacts) (b : Nat) (e : Edit) : Prop :=
  e.Surrounds p.tree ∨
    ∃ r ∈ facts.scopes.references, r.binding ≠ b ∧ e.start = r.span.start ∧ e.stop = r.span.stop

theorem lastEdit?_of_spares (h : facts.ReadOff p) (hr : r ∈ facts.scopes.referencesOf b)
    (hedits : ∀ e ∈ edits, Spares p facts b e) : lastEdit? edits r.span.start r.span.stop = none := by
  obtain ⟨hr, hbinding⟩ := h.mem_references hr
  refine lastEdit?_eq_none_iff.mpr fun e he ⟨hstart, hstop⟩ => ?_
  rcases hedits e he with hsurrounds | ⟨r', hr', hother, hstart', hstop'⟩
  · obtain ⟨n, name, hn, hspan, hname⟩ := h.exists_name hr
    obtain ⟨lo, hi, hlaid⟩ := h.laidOut
    refine hsurrounds.not_within hlaid hn hname ?_
    rw [hspan, hstart, hstop]
    exact ⟨Nat.le_refl _, Nat.le_refl _⟩
  · obtain rfl := h.eq_of_place hr hr' (hstart.symm.trans hstart') (hstop.symm.trans hstop')
    exact hother hbinding

/-- Renaming a binding edits the places of its own occurrences only. -/
theorem lastEdit?_renamed (h : facts.ReadOff p) (hr : r ∈ facts.scopes.referencesOf b) :
    lastEdit? ((facts.scopes.referencesOf b').map (renameOccurrence source name)) r.span.start r.span.stop =
      if b' = b then some (renameOccurrence source name r) else none := by
  split
  next hb =>
    subst hb
    refine lastEdit?_eq_some (e := renameOccurrence source name r) (List.mem_map_of_mem hr) ?_
    intro e he hstart hstop
    obtain ⟨r', hr', rfl⟩ := List.mem_map.mp he
    rw [h.eq_of_place (h.mem_references hr).1 (h.mem_references hr').1 hstart.symm hstop.symm]
  next hb =>
    refine h.lastEdit?_of_spares hr fun e he => ?_
    obtain ⟨r', hr', rfl⟩ := List.mem_map.mp he
    obtain ⟨hr', hbinding⟩ := h.mem_references hr'
    exact .inr ⟨r', hr', hbinding ▸ hb, rfl, rfl⟩

theorem lastEdit?_collisionEdits (h : facts.ReadOff p) (hr : r ∈ facts.scopes.referencesOf b)
    (bs : List Nat) : lastEdit? (bs.flatMap (collisionEdits facts)) r.span.start r.span.stop =
      if b ∈ bs then some (renameOccurrence facts.record.source (changedName facts b) r) else none := by
  induction bs with
  | nil => rfl
  | cons b' bs ih =>
    rw [List.flatMap_cons, lastEdit?_append, ih, collisionEdits, h.lastEdit?_renamed hr]
    by_cases hmem : b ∈ bs
    · simp [hmem]
    · by_cases hb : b' = b
      · simp [hb, hmem]
      · simp [hmem, hb, Ne.symm hb]

theorem getLast?_inlinedName? {q : Requirement} :
    ((q :: qs).filterMap (·.inlinedName? l b)).getLast? =
      (qs.filterMap (·.inlinedName? l b)).getLast?.or (q.inlinedName? l b) := by
  rw [← List.singleton_append, List.filterMap_append, List.getLast?_append]
  cases hq : q.inlinedName? l b <;> simp [hq]

/-- Of the calls that give a binding its value the last one names it, whatever declarators are gone. -/
theorem lastEdit?_requirementEdits (h : facts.ReadOff p) (hr : r ∈ facts.scopes.referencesOf b)
    (hqs : ∀ q ∈ qs, q ∈ facts.requirements) :
    lastEdit? (requirementEdits l facts gone qs) r.span.start r.span.stop =
      (qs.filterMap (·.inlinedName? l b)).getLast?.map (renameOccurrence facts.record.source · r) := by
  induction qs generalizing gone with
  | nil => rfl
  | cons q qs ih =>
    obtain ⟨hq, hrest⟩ := List.forall_mem_cons.mp hqs
    have hcall (text : String) (edits : List Edit) :
        lastEdit? (.replacing q.call.span text :: edits) r.span.start r.span.stop =
          lastEdit? edits r.span.start r.span.stop := by
      have hnone : lastEdit? [.replacing q.call.span text] r.span.start r.span.stop = none :=
        h.lastEdit?_of_spares hr (List.forall_mem_singleton.mpr (.inl (h.surrounds_call hq)))
      rw [← List.singleton_append, lastEdit?_append, hnone, Option.or_none]
    rw [getLast?_inlinedName?, Option.map_or]
    obtain ⟨call, target | id⟩ := q
    · rw [requirementEdits]
      split
      next hdemand =>
        have hnone : Requirement.inlinedName? l b ⟨call, .internal target⟩ = none := by
          simp [Requirement.inlinedName?, hdemand]
        rw [hcall, ih hrest, hnone, Option.map_none, Option.or_none]
      next hdemand =>
        have heager : l.isOnDemand target = false := by simpa using hdemand
        rw [lastEdit?_append, ih hrest, inlineEdits, exportsOf_eager heager]
        congr 1
        cases hd : call.declarator with
        | none =>
          dsimp only
          rw [hcall]
          simp [Requirement.inlinedName?, hd, lastEdit?]
        | some d =>
          have hgone : lastEdit? (declaratorEdit? facts.record.source gone d).toList r.span.start
              r.span.stop = none := by
            refine h.lastEdit?_of_spares hr fun e he => .inl ?_
            exact h.surrounds_declaratorEdit? hq hd (Option.mem_toList.mp he)
          dsimp only
          rw [lastEdit?_append, hgone, h.lastEdit?_renamed hr, Option.none_or]
          by_cases hb : d.binding = b <;> simp [Requirement.inlinedName?, heager, hd, hb]
    · rw [requirementEdits, hcall, ih hrest, Requirement.inlinedName?, Option.map_none, Option.or_none]

theorem spares_typeofRequireEdits (h : facts.ReadOff p) : ∀ e ∈ typeofRequireEdits facts, Spares p facts b e := by
  intro e he
  obtain ⟨r, hr, he⟩ := List.mem_filterMap.mp he
  split at he
  next husage =>
    cases he
    exact .inl (h.surrounds_typeof (h.mem_of_mem_uses (.inr (.inr (.inr hr)))) husage)
  next => cases he

/-- The edits for what a module receives are none of what it binds itself. -/
theorem spares_wrapperEdits (h : facts.ReadOff p) (hmodule : b ≠ ScopeTree.moduleBinding)
    (hexports : b ≠ ScopeTree.exportsBinding) :
    ∀ e ∈ exportsEdits facts ++ facts.uses.module.map (moduleEdit facts), Spares p facts b e := by
  intro e he
  rcases List.mem_append.mp he with he | he
  · rcases List.mem_append.mp he with he | he
    · obtain ⟨r, hr, he⟩ := List.mem_filterMap.mp he
      obtain ⟨access, haccess, rfl⟩ := Option.map_eq_some_iff.mp he
      exact .inl (h.surrounds_access (h.mem_of_mem_uses (.inl hr)) (usage_of_member? haccess))
    · obtain ⟨r, hr, rfl⟩ := List.mem_map.mp he
      rw [h.uses] at hr
      obtain ⟨hr, hbinding⟩ := h.mem_references hr
      exact .inr ⟨r, hr, hbinding ▸ hexports.symm, rfl, rfl⟩
  · obtain ⟨r, hr, rfl⟩ := List.mem_map.mp he
    have hmem : r ∈ facts.scopes.references := h.mem_of_mem_uses (.inr (.inr (.inl hr)))
    rcases moduleEdit_cases facts r with ⟨span, husage, hedit⟩ | ⟨access, husage, -, hedit⟩ | hedit
    · exact .inl (hedit ▸ h.surrounds_typeof hmem husage)
    · exact .inl (hedit ▸ h.surrounds_access hmem husage)
    · rw [h.uses, WrapperUse.ofScopes, List.partition_eq_filter_filter] at hr
      have hbinding := (h.mem_references (List.mem_filter.mp hr).1).2
      rw [hedit]
      exact .inr ⟨r, hmem, hbinding ▸ hmodule.symm, rfl, rfl⟩

/-- The last edit of the place of an occurrence gives it the new name of its binding. -/
theorem lastEdit?_placedEdits (h : (l.facts i).ReadOff p) (hr : r ∈ (l.facts i).scopes.referencesOf b)
    (hmodule : b ≠ ScopeTree.moduleBinding) (hexports : b ≠ ScopeTree.exportsBinding) :
    lastEdit? (placedEdits options l i) r.span.start r.span.stop =
      (l.newName? i b).map (renameOccurrence (l.facts i).record.source · r) := by
  have hcomment {edits : List Edit}
      (hedits : ∀ e ∈ edits, ∃ c, (l.facts i).mapComment = some c ∧ e = .replacing c "") :
      lastEdit? edits r.span.start r.span.stop = none := by
    refine lastEdit?_eq_none_iff.mpr fun e he hspan => ?_
    obtain ⟨c, hc, rfl⟩ := hedits e he
    have hmem := (h.mem_references hr).1
    obtain ⟨name, hnames⟩ := h.exists_names hmem
    have hlt := hnames.lt
    have hapart := h.apart_comment hmem hc
    unfold Span.Apart at hapart
    dsimp only [Edit.replacing] at hspan
    omega
  rw [placedEdits, moduleEdits, lastEdit?_append, lastEdit?_append, lastEdit?_append,
    hcomment fun _ => exists_comment,
    h.lastEdit?_of_spares hr h.spares_typeofRequireEdits,
    h.lastEdit?_requirementEdits hr fun _ hq => hq, Linked.newName?, Option.map_or, Option.none_or,
    Option.or_none]
  congr 1
  cases hdemand : l.isOnDemand i with
  | true => simp [lastEdit?]
  | false =>
    rw [if_neg Bool.false_ne_true, lastEdit?_append, h.lastEdit?_collisionEdits hr,
      h.lastEdit?_of_spares hr (h.spares_wrapperEdits hmodule hexports), Option.or_none]
    by_cases hb : b ∈ l.renamedBindings i <;> simp [hb]

end ModuleFacts.ReadOff

namespace Linked

/-- A binding has a new name just when it changes in an eager module or gets its value from one. -/
theorem newName?_eq_none_iff : l.newName? i b = none ↔
    (l.isOnDemand i = false → b ∉ l.renamedBindings i) ∧
      ∀ call d target, l.Inlines i call d target → d.binding ≠ b := by
  rw [newName?, Option.or_eq_none_iff, List.getLast?_eq_none_iff, List.filterMap_eq_nil_iff, and_comm]
  refine and_congr (by simp) ⟨fun h call d target ⟨hq, heager, hd⟩ hb => ?_, fun h q hq => ?_⟩
  · have hnone := h _ hq
    simp [Requirement.inlinedName?, heager, hd, hb] at hnone
  · obtain ⟨call, target | id⟩ := q
    · refine if_neg fun ⟨heager, hany⟩ => ?_
      obtain ⟨d, hd, hb⟩ := (Option.any_eq_true _ _).mp hany
      exact h call d target ⟨hq, heager, hd⟩ (eq_of_beq hb)
    · rfl

/-- Each use of `module` and `exports` in an eager module is in the place of some edit. -/
theorem exists_edit_of_wrapperUse (hread : (l.facts i).ReadOff p) (heager : l.isOnDemand i = false)
    (hb : b = ScopeTree.moduleBinding ∨ b = ScopeTree.exportsBinding)
    (hr : r ∈ (l.facts i).scopes.referencesOf b) :
    ∃ e ∈ placedEdits options l i, e.start ≤ r.span.start ∧ r.span.stop ≤ e.stop := by
  let m := l.facts i
  have hplaced {e : Edit} (he : e ∈ exportsEdits m ++ m.uses.module.map (moduleEdit m)) :
      e ∈ placedEdits options l i := by
    refine List.mem_append_left _ (List.mem_append_left _ (List.mem_append_right _ ?_))
    rw [if_neg (by simp [heager])]
    exact List.mem_append_left _ he
  have hmem := (hread.mem_references hr).1
  have huses : m.uses = .ofScopes m.scopes := hread.uses
  rcases hb with rfl | rfl
  · by_cases hproperty : r.property? == some "exports"
    · obtain ⟨access, haccess, -⟩ := Option.bind_eq_some_iff.mp (eq_of_beq hproperty)
      obtain ⟨_, -, -, -, hbounds⟩ := hread.exists_access hmem (usage_of_member? haccess)
      refine ⟨_, hplaced (List.mem_append_left _ (List.mem_append_left _
        (List.mem_filterMap.mpr ⟨r, ?_, by rw [haccess]; rfl⟩))), hbounds⟩
      rw [huses, WrapperUse.ofScopes, List.partition_eq_filter_filter]
      exact List.mem_filter.mpr ⟨hr, hproperty⟩
    · have huse : r ∈ m.uses.module := by
        rw [huses, WrapperUse.ofScopes, List.partition_eq_filter_filter]
        exact List.mem_filter.mpr ⟨hr, by simpa using hproperty⟩
      refine ⟨moduleEdit m r, hplaced (List.mem_append_right _ (List.mem_map_of_mem huse)), ?_⟩
      rcases moduleEdit_cases m r with ⟨span, husage, hedit⟩ | ⟨access, husage, -, hedit⟩ | hedit
      · obtain ⟨_, -, -, -, hbounds⟩ := hread.exists_typeof hmem husage
        exact hedit ▸ hbounds
      · obtain ⟨_, -, -, -, hbounds⟩ := hread.exists_access hmem husage
        exact hedit ▸ hbounds
      · exact hedit ▸ ⟨Nat.le_refl _, Nat.le_refl _⟩
  · have huse : r ∈ m.uses.exports := by
      rw [huses]
      exact hr
    exact ⟨_, hplaced (List.mem_append_left _ (List.mem_append_right _ (List.mem_map_of_mem huse))),
      Nat.le_refl _, Nat.le_refl _⟩

section Build

variable (hm : scanModules t = .ok modules) (hi : i < t.size)
include hm hi

/-- An edit of a module goes around more than a name, or renames an occurrence. -/
theorem surrounds_or_renames (hread : ((ofModules t modules).facts i).ReadOff p)
    (he : e ∈ moduleEdits (ofModules t modules) i) : e.Surrounds p.tree ∨
      ∃ r ∈ ((ofModules t modules).facts i).scopes.references, ∃ source name, e = renameOccurrence source name r := by
  rcases writes_of_mem_moduleEdits hm hi he with ⟨_, _, hwrites⟩ | hwrites
  · cases hwrites with
    | exports _ use => exact .inr ⟨_, hread.mem_of_mem_uses (.inr (.inl use)), _, _, rfl⟩
    | moduleExports _ use whole =>
      exact .inl (hread.surrounds_access (hread.mem_of_mem_uses (.inl use)) (usage_of_member? whole))
    | module _ use named => exact .inr ⟨_, hread.mem_of_mem_uses (.inr (.inr (.inl use))), _, _, named⟩
    | changed _ _ use => exact .inr ⟨_, (hread.mem_references use).1, _, _, rfl⟩
    | call _ _ _ needed => exact .inl (hread.surrounds_call needed)
    | inlined _ use => exact .inr ⟨_, (hread.mem_references use).1, _, _, rfl⟩
  · cases hwrites with
    | typeofRequire use whole =>
      exact .inl (hread.surrounds_typeof (hread.mem_of_mem_uses (.inr (.inr (.inr use)))) whole)
    | typeofModule _ use whole =>
      exact .inl (hread.surrounds_typeof (hread.mem_of_mem_uses (.inr (.inr (.inl use)))) whole)
    | parent _ use whole =>
      exact .inl (hread.surrounds_access (hread.mem_of_mem_uses (.inr (.inr (.inl use)))) whole)
    | external needed => exact .inl (hread.surrounds_call needed)
    | cut inlines removed => exact .inl (hread.surrounds_declaratorEdit? inlines.1 inlines.2.2 removed)

/-- No edit touches a part of a name only. -/
theorem apart_or_around (hread : ((ofModules t modules).facts i).ReadOff p)
    (he : e ∈ placedEdits options (ofModules t modules) i)
    (hr : r ∈ ((ofModules t modules).facts i).scopes.references) :
    e.stop ≤ r.span.start ∨ r.span.stop ≤ e.start ∨ e.start ≤ r.span.start ∧ r.span.stop ≤ e.stop := by
  obtain ⟨lo, hi', hlaid⟩ := hread.laidOut
  obtain ⟨n, name, hn, hspan, hname⟩ := hread.exists_name hr
  rcases mem_placedEdits he with he | ⟨c, hc, rfl⟩
  · rcases surrounds_or_renames hm hi hread he with hsurrounds | ⟨r', hr', source, name', rfl⟩
    · have hnot := hsurrounds.not_within hlaid hn hname
      have hwhole : WholeAt p.tree (.replacing r.span "") := wholeAt_replacing ⟨n, hn, hspan⟩
      have hlaminar := hwhole.any.laminar ((moduleEdits_spec hread.toPlaced hlaid).1 e he) hlaid
      rw [hspan] at hnot
      unfold Edit.Laminar Edit.replacing at hlaminar
      dsimp only at hlaminar
      omega
    · obtain ⟨n', name', hn', hspan', hname'⟩ := hread.exists_name hr'
      have hcases := hlaid.eq_or_apart hn' hname' hn hname
      rw [hspan, hspan'] at hcases
      rw [renameOccurrence_eq]
      rcases hcases with rfl | happart
      · rw [← hspan, ← hspan']
        exact .inr (.inr ⟨Nat.le_refl _, Nat.le_refl _⟩)
      · exact happart.elim .inl fun h => .inr (.inl h)
  · have hapart := hread.apart_comment hr hc
    exact hapart.elim .inl fun h => .inr (.inl h)

/-- What an occurrence becomes if no larger edit takes it along. -/
theorem becomes_respelled (hread : ((ofModules t modules).facts i).ReadOff p)
    (hresolved : resolveEdits ((ofModules t modules).facts i).record.source.toList
      (placedEdits options (ofModules t modules) i) = .ok edits)
    (hr : r ∈ ((ofModules t modules).facts i).scopes.referencesOf b)
    (hmodule : b ≠ ScopeTree.moduleBinding) (hexports : b ≠ ScopeTree.exportsBinding)
    (hfree : ∀ e ∈ edits, ¬e.Exceeds r.span) :
    let source := ((ofModules t modules).facts i).record.source
    Becomes edits r.span.start r.span.stop (spanText source r.span)
      (r.respelled source ((ofModules t modules).newName? i b)) := by
  intro source
  have hlast : lastEdit? (placedEdits options (ofModules t modules) i) r.span.start r.span.stop = _ :=
    hread.lastEdit?_placedEdits hr hmodule hexports
  obtain ⟨hplaced, hcover⟩ := resolveEdits_spec hresolved
  have hwhole {e : Edit} (he : e ∈ edits) (hstart : e.start ≤ r.span.start) (hstop : r.span.stop ≤ e.stop) :
      e.start = r.span.start ∧ e.stop = r.span.stop := by
    have hnot := hfree e he
    unfold Edit.Exceeds at hnot
    omega
  cases hname : (ofModules t modules).newName? i b with
  | some name =>
    rw [hname, Option.map_some] at hlast
    obtain ⟨e, he, hstart, hstop⟩ := hcover _ (mem_of_lastEdit? hlast).1
    obtain ⟨hstart, hstop⟩ := hwhole he hstart hstop
    have heq := hplaced e he
    rw [hstart, hstop, hlast] at heq
    obtain rfl := Option.some.inj heq
    exact .replaced he
  | none =>
    rw [hname, Option.map_none] at hlast
    refine .kept fun e he => ?_
    have hmem := (mem_of_lastEdit? (hplaced e he)).1
    rcases apart_or_around hm hi hread hmem (hread.mem_references hr).1 with hbefore | hafter | ⟨hstart, hstop⟩
    · exact .inl hbefore
    · exact .inr hafter
    · exact absurd (hwhole he hstart hstop) (lastEdit?_eq_none_iff.mp hlast e hmem)

/-- The occurrences of what a scope inside of the wrapper binds are written as the name it binds, and become
its new name, if it has one, wherever no larger edit takes them along. Without one they stay as they are
written. The uses of `module` and `exports` in an eager module are all edited. -/
theorem becomes_newName (options : Options) (names : LoaderNames) :
    let l := ofModules t modules
    let m := l.facts i
    let source := m.record.source
    ∃ piece edits, placeModule options l names i = .ok piece ∧
      resolveEdits source.toList (placedEdits options l i) = .ok edits ∧
      piece.code = placedText l names i edits ∧
      (∀ s name b, s ≠ ScopeTree.wrapperScope → (m.scopes.scope s).bindings.lookup name = some b →
        (l.newName? i b = none ↔ (l.isOnDemand i = false → b ∉ l.renamedBindings i) ∧
          ∀ call d target, l.Inlines i call d target → d.binding ≠ b) ∧
        ∀ r ∈ m.scopes.referencesOf b,
          Script.Names source.toList r.span.start r.span.stop name ∧
          ((∀ e ∈ edits, ¬e.Exceeds r.span) →
            let text := r.respelled source (l.newName? i b)
            Becomes edits r.span.start r.span.stop (spanText source r.span) text ∧
            ∃ rest, RestAt (editedText source edits).toList (text.toList ++ rest)
              (movedOffset edits r.span.start))) ∧
      (l.isOnDemand i = false → ∀ b, b = ScopeTree.moduleBinding ∨ b = ScopeTree.exportsBinding →
        ∀ r ∈ m.scopes.referencesOf b, ∃ e ∈ edits, e.start ≤ r.span.start ∧ r.span.stop ≤ e.stop) := by
  intro l m source
  obtain ⟨p, -, hread⟩ := exists_readOff hm hi
  obtain ⟨piece, hpiece⟩ : ∃ piece, placeModule options l names i = .ok piece :=
    placeModule_ok names hread.toPlaced
  obtain ⟨edits, hresolved, hcode⟩ := code_of_placeModule hpiece
  obtain ⟨lo, hi', hlaid⟩ := hread.laidOut
  refine ⟨piece, edits, hpiece, hresolved, hcode, fun s name b hs hb =>
    ⟨newName?_eq_none_iff, fun r hr => ?_⟩, fun heager b hb r hr => ?_⟩
  · have hscopes : m.scopes = (Analysis.ofProgram p source).scopes := hread.scopes_eq
    have hnames : Script.Names source.toList r.span.start r.span.stop name := by
      rw [hscopes] at hb hr
      exact Analysis.names_of_bound hread.kind hlaid hb hr
    have hne (other : String) {c : Nat}
        (h : (ScopeTree.initial.scope ScopeTree.wrapperScope).bindings.lookup other = some c) : b ≠ c := by
      rintro rfl
      rw [hscopes] at hb
      exact hs (Analysis.sound_scopes.eq_of_lookup hb (Analysis.lookup_wrapper h)).1
    refine ⟨hnames, fun hfree => ?_⟩
    have hbecomes := becomes_respelled hm hi hread hresolved hr (hne "module" rfl)
      (hne "exports" rfl) hfree
    refine ⟨hbecomes, ?_⟩
    obtain ⟨part, rest, hstart, hstop, -⟩ := hnames.exists_part
    have hpart : (spanText source r.span).toList = part := by
      rw [spanText, ← (hstart.append part).offset_eq hstop, hstart.sliceBytes]
      simp
    rw [← hpart] at hstart
    rw [editedText, String.toList_ofList]
    exact hbecomes.restAt hresolved hstart hstop hnames.lt
  · obtain ⟨a, ha, hstart, hstop⟩ :
        ∃ a ∈ placedEdits options l i, a.start ≤ r.span.start ∧ r.span.stop ≤ a.stop :=
      exists_edit_of_wrapperUse hread heager hb hr
    obtain ⟨e, he, hstart', hstop'⟩ := (resolveEdits_spec hresolved).2 a ha
    exact ⟨e, he, Nat.le_trans hstart' hstart, Nat.le_trans hstop hstop'⟩

end Build

/-- A variable that gets its value from another module, used by itself and as a key. -/
def importedKey : List Record := [
  { id := .number 1, source := "(function () \x7b var a = require('./a'); f(a, \x7b a \x7d); \x7d)();",
    deps := [("./a", some (.number 2))] },
  { id := .number 2, source := "exports.b = 1;" }]

theorem becomes_importedKey :
    ∃ t modules edits, Table.ofRecords importedKey = .ok t ∧ scanModules t = .ok modules ∧
      let l := ofModules t modules
      let m := l.facts 0
      resolveEdits m.record.source.toList (placedEdits {} l 0) = .ok edits ∧
      ∃ s b, s ≠ ScopeTree.wrapperScope ∧ (m.scopes.scope s).bindings.lookup "a" = some b ∧
        l.newName? 0 b = some "_$module_2" ∧
        ∃ r ∈ m.scopes.referencesOf b, ∃ r' ∈ m.scopes.referencesOf b,
          Becomes edits r.span.start r.span.stop "a" "_$module_2" ∧
          Becomes edits r'.span.start r'.span.stop "a" "a: _$module_2" := by
  let t : Table := ⟨importedKey⟩
  have ht : Table.ofRecords importedKey = .ok t := Table.ofRecords_eq_ok_iff.mpr ⟨by decide, rfl⟩
  obtain ⟨modules, hm, htop, b, hb, hname, r, hr, r', hr', hfree, hfree', htext, htext', hnew, hnew'⟩ :
      ∃ modules ∈ (scanModules t).toOption, let l := ofModules t modules
        let m := l.facts 0
        l.topLevelNames 0 = [] ∧ ∃ b ∈ (m.scopes.scope 2).bindings.lookup "a",
          l.newName? 0 b = some "_$module_2" ∧
          ∃ r ∈ m.scopes.referencesOf b, ∃ r' ∈ m.scopes.referencesOf b,
            (∀ e ∈ plainEdits l 0, ¬e.Exceeds r.span) ∧ (∀ e ∈ plainEdits l 0, ¬e.Exceeds r'.span) ∧
            spanText m.record.source r.span = "a" ∧ spanText m.record.source r'.span = "a" ∧
            r.respelled m.record.source (some "_$module_2") = "_$module_2" ∧
            r'.respelled m.record.source (some "_$module_2") = "a: _$module_2" := by
    decide +kernel
  have hm := mem_toOption_scanModules.mp hm
  obtain ⟨-, edits, -, hresolved, -, hall, -⟩ :=
    becomes_newName hm (by decide : 0 < t.size) {} (LoaderNames.ofModules modules)
  have hplain {e : Edit} (he : e ∈ edits) : e ∈ plainEdits (ofModules t modules) 0 := by
    have hplaced : placedEdits {} (ofModules t modules) 0 = plainEdits (ofModules t modules) 0 :=
      placedEdits_eq_plainEdits hm (by decide) rfl htop
    rw [← hplaced]
    exact (mem_of_lastEdit? ((resolveEdits_spec hresolved).1 e he)).1
  obtain ⟨-, hall⟩ := hall 2 "a" b (by decide) hb
  obtain ⟨hbecomes, -⟩ := (hall r hr).2 fun e he => hfree e (hplain he)
  obtain ⟨hbecomes', -⟩ := (hall r' hr').2 fun e he => hfree' e (hplain he)
  rw [hname, htext, hnew] at hbecomes
  rw [hname, htext', hnew'] at hbecomes'
  exact ⟨t, modules, edits, ht, hm, hresolved, 2, b, by decide, hb, hname, r, hr, r', hr', hbecomes, hbecomes'⟩

/-- The occurrences of each binding inside of the wrapper are all spelled in one way, by the name of the
binding unless it has a new one. -/
def SpelledAlike (l : Linked) (i : Nat) (edits : List Edit) : Prop :=
  let m := l.facts i
  ∀ s name b, s ≠ ScopeTree.wrapperScope → (m.scopes.scope s).bindings.lookup name = some b →
    ∃ spelled, (l.newName? i b = none → spelled = name) ∧
      ∀ r ∈ m.scopes.referencesOf b, (∀ e ∈ edits, ¬e.Exceeds r.span) →
        let text := spanText m.record.source r.span
        Becomes edits r.span.start r.span.stop text spelled ∨
          r.shorthand ∧ Becomes edits r.span.start r.span.stop text (text ++ ": " ++ spelled)

/-- A name that is written in two ways. -/
def escapedName : List Record := [
  { id := .number 1, source := "(function () \x7b var \\u0061 = 1; f(a); \x7d)();" }]

/-- Where nothing is edited, a name stays as it is written at each place. -/
theorem not_spelledAlike :
    ¬∀ (records : List Record) (t : Table) (modules : List ModuleFacts) (edits : List Edit),
      Table.ofRecords records = .ok t → scanModules t = .ok modules → ∀ i < t.size,
        resolveEdits ((ofModules t modules).facts i).record.source.toList
          (placedEdits {} (ofModules t modules) i) = .ok edits →
        SpelledAlike (ofModules t modules) i edits := by
  intro h
  let t : Table := ⟨escapedName⟩
  have ht : Table.ofRecords escapedName = .ok t := Table.ofRecords_eq_ok_iff.mpr ⟨by decide, rfl⟩
  obtain ⟨modules, hm, htop, hnone, b, hb, r, hr, r', hr', htext, htext', hshorthand, hshorthand'⟩ :
      ∃ modules ∈ (scanModules t).toOption, let l := ofModules t modules
        let m := l.facts 0
        l.topLevelNames 0 = [] ∧ plainEdits l 0 = [] ∧ ∃ b ∈ (m.scopes.scope 2).bindings.lookup "a",
          ∃ r ∈ m.scopes.referencesOf b, ∃ r' ∈ m.scopes.referencesOf b,
            spanText m.record.source r.span = "\\u0061" ∧ spanText m.record.source r'.span = "a" ∧
            r.shorthand = false ∧ r'.shorthand = false := by
    decide +kernel
  have hm := mem_toOption_scanModules.mp hm
  have hresolved : resolveEdits ((ofModules t modules).facts 0).record.source.toList
      (placedEdits {} (ofModules t modules) 0) = .ok [] := by
    rw [placedEdits_eq_plainEdits hm (by decide) rfl htop, hnone, resolveEdits_nil]
  obtain ⟨spelled, -, hall⟩ := h _ t modules [] ht hm 0 (by decide) hresolved 2 "a" b (by decide) hb
  have hkept {r : Reference} {text : String} (hr : r ∈ ((ofModules t modules).facts 0).scopes.referencesOf b)
      (hshorthand : r.shorthand = false)
      (htext : spanText ((ofModules t modules).facts 0).record.source r.span = text) : spelled = text := by
    rcases hall r hr nofun with hbecomes | ⟨hflag, -⟩
    · cases hbecomes with
      | replaced edit => cases edit
      | kept => exact htext
    · cases hshorthand.symm.trans hflag
  have hsame := (hkept hr hshorthand htext).symm.trans (hkept hr' hshorthand' htext')
  exact absurd hsame (by decide)

end Linked

end FlatBundle
