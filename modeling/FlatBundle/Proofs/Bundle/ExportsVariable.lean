import FlatBundle.Proofs.Bundle.EditSites
import FlatBundle.Proofs.Bundle.EmittedScript
import FlatBundle.Proofs.Bundle.Statements
import FlatBundle.Proofs.Edit.Resolve
import FlatBundle.Proofs.Script.Word

/-!
The variable for the exports of a module. Of all texts that are written for a module just one starts with
its `var`: the one in front of the module, or that of the only export, which takes effect whatever else is
edited. Whether that one stands where a statement starts is another matter.
-/

namespace FlatBundle

open Script (Span Node SiteIn LaidOut Clear sitesOf)

variable {options : Options} {t : Table} {modules : List ModuleFacts} {l : Linked} {facts : ModuleFacts}
  {p : Script.Program} {root target inner m : Node} {r : Reference} {access : MemberAccess}
  {assigned : MemberAssignment} {e : Edit} {edits : List Edit} {name text : String} {i : Nat}

section Target

/-- What lies at a span is clear of another one, or is a part of what lies there. -/
def Script.Span.GivesWay (s whole : Span) : Prop :=
  s.stop ≤ whole.start ∨ whole.stop ≤ s.start ∨
    whole.start ≤ s.start ∧ s.stop ≤ whole.stop ∧ (whole.start < s.start ∨ s.stop < whole.stop)

def Edit.span (e : Edit) : Span :=
  ⟨e.start, e.stop⟩

/-- An access with a name in it which no other site is around. -/
structure TargetAt (root target inner : Node) : Prop where
  site : SiteIn target root.sites
  access : target.kind.isAccess
  inside : SiteIn inner (sitesOf target.children)
  named : inner.kind.name?.isSome
  others : ∀ m, SiteIn m root.sites → m ≠ target → m.span.GivesWay target.span

namespace TargetAt

variable {chars : List Char} {comments : List Span} {c : Span} {lo hi : Nat}

/-- What lies in another site gives way like that. -/
theorem givesWay (h : TargetAt root target inner) (hm : SiteIn m root.sites) (hk : m.kind.isAccess = false)
    (hstart : m.span.start ≤ e.start) (hstop : e.stop ≤ m.span.stop) : e.span.GivesWay target.span := by
  have hne : m ≠ target := by
    rintro rfl
    exact Bool.false_ne_true (hk.symm.trans h.access)
  have hother := h.others m hm hne
  unfold Span.GivesWay Edit.span at *
  dsimp only at *
  omega

/-- A comment that sites stay clear of is not the whole access, since its name is a part of it. -/
theorem givesWay_comment (h : TargetAt root target inner)
    (hlaid : LaidOut chars (Clear chars comments) lo hi root.sites) (hc : c ∈ comments) :
    c.GivesWay target.span := by
  obtain ⟨name, hname⟩ := Option.isSome_iff_exists.mp h.named
  have hinside := hlaid.inside_of_siteIn h.site
  have hlt := ((hinside.site_of_siteIn h.inside).named name hname).2.lt
  have hnarrow := hlaid.narrow_of_siteIn h.site h.inside fun hk =>
    absurd hk (by rw [Script.Kind.not_isDeclarator_of_isAccess h.access]; exact Bool.false_ne_true)
  obtain ⟨-, hlo, hhi⟩ := hinside.of_siteIn h.inside
  have hstart := (hlaid.ends_of_siteIn h.site).1.2 c hc
  have hstop := (hlaid.ends_of_siteIn h.site).2.2 c hc
  have hstart' := (hinside.ends_of_siteIn h.inside).1.2 c hc
  have hstop' := (hinside.ends_of_siteIn h.inside).2.2 c hc
  unfold Span.GivesWay
  omega

end TargetAt

end Target

theorem WrapperUse.soleExport?_eq_some {u : WrapperUse} (h : u.soleExport? = some (r, assigned)) :
    u.moduleExports = [r] ∧ u.exports = [] ∧ u.module = [] ∧ ∃ access, r.member? = some access ∧
      access.assignment = some assigned ∧ assigned.isStatement := by
  unfold soleExport? at h
  split at h
  next r' hmoduleExports hexports hmodule =>
    split at h
    next hassigned =>
      split at h
      next hstatement =>
        cases h
        exact ⟨hmoduleExports, hexports, hmodule, Option.bind_eq_some_iff.mp hassigned |>.imp
          fun _ ha => ⟨ha.1, ha.2, hstatement⟩⟩
      next => cases h
    next => cases h
  next => cases h

/-- What a module with nothing but one export assigns to is in no other site. -/
theorem ModuleFacts.ReadOff.exists_target (h : facts.ReadOff p) (hsimple : facts.isSimpleExport) :
    ∃ r access target inner, facts.uses.moduleExports = [r] ∧ facts.uses.exports = [] ∧
      facts.uses.module = [] ∧ r.member? = some access ∧ target.span = access.span ∧
      TargetAt p.tree target inner := by
  rw [h.simple_eq, Option.any_eq_true] at hsimple
  obtain ⟨⟨r, assigned⟩, hsole, hscope⟩ := hsimple
  obtain ⟨hone, hexports, hmodule, access, haccess, hassigned, hstatement⟩ :=
    WrapperUse.soleExport?_eq_some hsole
  have hr : r ∈ facts.scopes.references := h.mem_of_mem_uses (.inl (by simp [hone]))
  have hu : r.usage = .member access := usage_of_member? haccess
  obtain ⟨path, n, name, hpath, hk, -, husage, henclosed⟩ := h.exists_path hr (by rw [hu]; exact nofun)
  obtain ⟨target, outer, rfl, htarget, hspan, hvalue⟩ := usage_eq_member (husage.trans hu)
  obtain ⟨assignment, statement, outer, rfl, hassignment, hkind⟩ :=
    memberAssignment?_eq_some (hvalue.symm.trans hassigned) hstatement
  -- the variables there are those of the whole script, so that no function is around it
  have hbody : ∀ f ∈ outer, f.node.kind.opensBody = false := by
    intro f hf
    by_contra hopens
    have hlt := henclosed ⟨f, by simp [hf], by simpa using hopens⟩
    rw [eq_of_beq hscope] at hlt
    exact Nat.lt_irrefl _ hlt
  obtain ⟨lo, hi, hlaid⟩ := h.laidOut
  refine ⟨r, access, target.node, n, hone, hexports, hmodule, haccess, hspan, ?_⟩
  have hsite := Script.Kind.isSite_of_isAccess htarget
  have hinside := hpath.siteIn_parent (by rw [hk]; rfl)
  cases hpath with
  | child hparent =>
    exact ⟨hparent.partOf.site hsite, htarget, hinside, by rw [hk]; rfl, fun m hm hne =>
      hparent.clear_of_target hlaid (by rw [hassignment]; rfl) hkind hbody hsite
        (Script.Kind.not_isDeclarator_of_isAccess htarget) hm hne⟩

section Texts

/-- A text that starts with the declaration of a variable. -/
def declares (name text : String) : Bool :=
  ("var " ++ name).toList.isPrefixOf text.toList

theorem exists_of_declares (h : declares name text) :
    ∃ rest, text.toList = 'v' :: 'a' :: 'r' :: ' ' :: rest := by
  obtain ⟨rest, hrest⟩ := List.isPrefixOf_iff_prefix.mp h
  exact ⟨name.toList ++ rest, by rw [← hrest]; simp⟩

theorem declares_append : declares name ("var " ++ name ++ text) := by
  have hparts : ("var " ++ name ++ text).toList = ("var " ++ name).toList ++ text.toList :=
    String.toList_append
  rw [declares, List.isPrefixOf_iff_prefix, hparts]
  exact List.prefix_append _ _

theorem not_declares_of_head? (h : text.toList.head? ≠ some 'v') : declares name text = false := by
  rw [Bool.eq_false_iff]
  intro hdeclares
  obtain ⟨rest, htext⟩ := exists_of_declares hdeclares
  exact h (by rw [htext]; rfl)

theorem head?_of_looksGenerated (h : Linked.LooksGenerated text) (rest : String) :
    (text ++ rest).toList.head? ≠ some 'v' := by
  obtain ⟨more, rfl | rfl⟩ := h <;> simp

/-- A key in front of a name is a single word. -/
theorem not_declares_renameOccurrence {source text other : String}
    (hr : Script.Names source.toList r.span.start r.span.stop text)
    (hname : name.toList.head? ≠ some 'v') :
    declares other (renameOccurrence source name r).text = false := by
  rw [Bool.eq_false_iff]
  intro hdeclares
  obtain ⟨rest, htext⟩ := exists_of_declares hdeclares
  have hword : ∀ c ∈ (spanText source r.span).toList, Script.isWordPart c := by
    intro c hc
    rw [spanText, String.toList_ofList] at hc
    cases hslice : sliceBytes source.toList r.span.start r.span.stop with
    | none => simp [hslice] at hc
    | some slice => exact hr.isWordPart_of_mem_slice hslice (by simpa [hslice] using hc)
  rw [renameOccurrence_eq] at htext
  cases hshort : r.shorthand with
  | false => exact hname (by simpa [Edit.replacing, hshort] using congrArg List.head? htext)
  | true =>
    simp only [Edit.replacing, hshort, if_true, String.toList_append] at htext
    rcases hkey : (spanText source r.span).toList with _ | ⟨a, _ | ⟨b, _ | ⟨c, _ | ⟨d, more⟩⟩⟩⟩
    case cons.cons.cons.cons =>
      have hblank : d = ' ' := by simp_all
      have hpart := hword d (by simp [hkey])
      rw [hblank] at hpart
      exact absurd hpart (by decide)
    all_goals simp [hkey] at htext

end Texts

namespace Linked

theorem exportsAccessText_of_simple {m : ModuleFacts} (hsimple : m.isSimpleExport)
    (hmodule : m.uses.module = []) : exportsAccessText m = "var " ++ m.exportsName := by
  have hneeds : m.needsModuleObject = false := by simp [ModuleFacts.needsModuleObject, hmodule]
  rw [exportsAccessText, if_pos hsimple, exportsTarget, hneeds]
  rfl

section Build

variable (hm : scanModules t = .ok modules) (hi : i < t.size)
include hm hi

/-- All other edits of a module give way to that of its only export. -/
theorem eq_or_givesWay (hread : ((ofModules t modules).facts i).ReadOff p)
    (hone : ((ofModules t modules).facts i).uses.moduleExports = [r])
    (hexports : ((ofModules t modules).facts i).uses.exports = [])
    (hmodule : ((ofModules t modules).facts i).uses.module = [])
    (haccess : r.member? = some access)
    (htarget : TargetAt p.tree target inner) (he : e ∈ placedEdits options (ofModules t modules) i) :
    e = .replacing access.span (exportsAccessText ((ofModules t modules).facts i)) ∨
      e.span.GivesWay target.span := by
  let m := (ofModules t modules).facts i
  obtain ⟨first, last, hlaid⟩ := hread.laidOut
  have hsite {n : Node} {span : Span} {text : String} (hn : SiteIn n p.tree.sites) (hspan : n.span = span)
      (hk : n.kind.isAccess = false) : (Edit.replacing span text).span.GivesWay target.span :=
    htarget.givesWay hn hk (Nat.le_of_eq (congrArg Span.start hspan)) (Nat.le_of_eq (congrArg Span.stop hspan.symm))
  have hname {r : Reference} {name : String} (hr : r ∈ m.scopes.references) :
      (renameOccurrence m.record.source name r).span.GivesWay target.span := by
    obtain ⟨n, text, hn, hspan, htext⟩ := hread.exists_name hr
    rw [renameOccurrence_eq]
    exact hsite hn hspan (Script.Kind.not_isAccess_of_name? htext)
  have hcall {q : Requirement} {text : String} (hq : q ∈ m.requirements) :
      (Edit.replacing q.call.span text).span.GivesWay target.span := by
    obtain ⟨n, hn, hspan, hk⟩ := hread.exists_call hq
    exact hsite hn hspan (by rw [hk]; rfl)
  rcases mem_placedEdits he with he | ⟨c, hc, rfl⟩
  · rcases writes_of_mem_moduleEdits hm hi he with ⟨_, _, hwrites⟩ | hwrites
    · cases hwrites with
      | exports _ use => exact absurd use (by simp [hexports])
      | moduleExports _ use whole =>
        obtain rfl := List.mem_singleton.mp (hone ▸ use)
        cases haccess.symm.trans whole
        exact .inl rfl
      | module _ use => exact absurd use (by simp [hmodule])
      | changed _ _ use => exact .inr (hname (hread.mem_references use).1)
      | call _ _ _ needed => exact .inr (hcall needed)
      | inlined _ use => exact .inr (hname (hread.mem_references use).1)
    · cases hwrites with
      | typeofRequire use whole =>
        obtain ⟨n, hn, hspan, hk, -⟩ :=
          hread.exists_typeof (hread.mem_of_mem_uses (.inr (.inr (.inr use)))) whole
        exact .inr (hsite hn hspan (by rw [hk]; rfl))
      | typeofModule _ use | parent _ use => exact absurd use (by simp [hmodule])
      | external needed => exact .inr (hcall needed)
      | cut inlines removed =>
        obtain ⟨n, hn, hk, hstart, hstop⟩ :=
          within_of_declaratorEdit? ((hread.calls _ inlines.1).2 _ inlines.2.2) hlaid removed
        exact .inr (htarget.givesWay hn (Script.Kind.not_isAccess_of_isVariables hk) hstart hstop)
  · have hcomment : c.GivesWay target.span := htarget.givesWay_comment hlaid (by simp [hc])
    exact .inr hcomment

/-- The only edit that declares a variable is the one of a module's only export. -/
theorem eq_of_declares (hread : ((ofModules t modules).facts i).ReadOff p)
    (he : e ∈ placedEdits options (ofModules t modules) i) (h : declares name e.text) :
    (ofModules t modules).isOnDemand i = false ∧ ((ofModules t modules).facts i).isSimpleExport ∧
      ∃ r ∈ ((ofModules t modules).facts i).uses.moduleExports, ∃ access, r.member? = some access ∧
        e = .replacing access.span (exportsAccessText ((ofModules t modules).facts i)) := by
  let m := (ofModules t modules).facts i
  have hno {text : String} (hhead : text.toList.head? ≠ some 'v') (h : declares name text) : False :=
    Bool.false_ne_true ((not_declares_of_head? hhead).symm.trans h)
  have hnot {r : Reference} {text : String} (hr : r ∈ m.scopes.references)
      (hhead : text.toList.head? ≠ some 'v')
      (h : declares name (renameOccurrence m.record.source text r).text) : False := by
    obtain ⟨_, hnames⟩ := hread.exists_names hr
    exact Bool.false_ne_true ((not_declares_renameOccurrence hnames hhead).symm.trans h)
  have hgenerated {text : String} (htext : LooksGenerated text) : text.toList.head? ≠ some 'v' := by
    simpa using head?_of_looksGenerated htext ""
  have hown : LooksGenerated m.exportsName := looksGenerated_exportsName hm hi
  have htarget : (exportsTarget m).toList.head? ≠ some 'v' := by
    unfold exportsTarget
    split
    · exact head?_of_looksGenerated hown _
    · exact hgenerated hown
  rcases mem_placedEdits he with he | ⟨c, hc, rfl⟩
  · rcases writes_of_mem_moduleEdits hm hi he with ⟨_, _, hwrites⟩ | hwrites
    · cases hwrites with
      | exports _ use => exact (hnot (hread.mem_of_mem_uses (.inr (.inl use))) htarget h).elim
      | @moduleExports r access eager use whole =>
        refine ⟨eager, ?_, r, use, access, whole, rfl⟩
        by_contra hsimple
        rw [exportsAccessText, if_neg hsimple] at h
        exact hno htarget h
      | module _ use named =>
        rw [named] at h
        exact (hnot (hread.mem_of_mem_uses (.inr (.inr (.inl use)))) (hgenerated hown) h).elim
      | changed _ _ use =>
        exact (hnot (hread.mem_references use).1 (hgenerated ⟨_, .inr (changedName_eq _ _)⟩) h).elim
      | call _ _ _ needed =>
        have htarget := looksGenerated_exportsName hm (lt_size_of_requirement hm hi needed)
        refine (hno ?_ h).elim
        unfold exportsOf
        dsimp only [Edit.replacing]
        split
        · exact head?_of_looksGenerated htarget _
        · exact hgenerated htarget
      | inlined inlines use =>
        have htarget := looksGenerated_exportsName hm (lt_size_of_requirement hm hi inlines.1)
        exact (hnot (hread.mem_references use).1 (hgenerated htarget) h).elim
    · cases hwrites with
      | typeofRequire | typeofModule => exact (hno (by simp [Edit.replacing]) h).elim
      | parent =>
        refine (hno ?_ h).elim
        dsimp only [Edit.replacing]
        unfold parentText
        split <;> simp
      | external =>
        refine (hno ?_ h).elim
        simp [Edit.replacing]
      | cut inlines removed =>
        refine (hno ?_ h).elim
        rcases declaratorEdit?_eq_some removed with rfl | hempty
        · simp [Edit.replacing, removedText]
        · simp [hempty]
  · exact (hno (by simp [Edit.replacing]) h).elim

/-- The only export of an eager module takes effect, and nothing else declares a variable then. -/
theorem exists_soleExport (heager : (ofModules t modules).isOnDemand i = false)
    (hsimple : ((ofModules t modules).facts i).isSimpleExport)
    (hresolved : resolveEdits ((ofModules t modules).facts i).record.source.toList
      (placedEdits options (ofModules t modules) i) = .ok edits) :
    let m := (ofModules t modules).facts i
    ∃ r access, m.uses.moduleExports = [r] ∧ m.uses.module = [] ∧ r.member? = some access ∧
      let a := Edit.replacing access.span ("var " ++ m.exportsName)
      a ∈ edits ∧ (∀ e ∈ placedEdits options (ofModules t modules) i, e = a ∨ e.span.GivesWay a.span) ∧
        (edits.map (·.text)).countP (declares m.exportsName) = 1 := by
  intro m
  obtain ⟨p, -, hread⟩ := exists_readOff hm hi
  obtain ⟨r, access, target, inner, hone, hexports, hmodule, haccess, hspan, htarget⟩ :=
    hread.exists_target hsimple
  have htext : exportsAccessText m = "var " ++ m.exportsName := exportsAccessText_of_simple hsimple hmodule
  let a := Edit.replacing access.span ("var " ++ m.exportsName)
  obtain ⟨first, last, hlaid⟩ := hread.laidOut
  have hlt : access.span.start < access.span.stop := by
    have hdeclarator := Script.Kind.not_isDeclarator_of_isAccess htarget.access
    rw [← hspan]
    exact ((hlaid.site_of_siteIn htarget.site).narrow fun hk => by simp [hdeclarator] at hk).1
  have hothers : ∀ e ∈ placedEdits options (ofModules t modules) i, e = a ∨ e.span.GivesWay a.span := by
    intro e he
    have hcases := eq_or_givesWay hm hi hread hone hexports hmodule haccess htarget he
    rwa [hspan, htext] at hcases
  have hmem : a ∈ placedEdits options (ofModules t modules) i := by
    have hwrites : (ofModules t modules).Writes i r.scope m.exportsName
        (.replacing access.span (exportsAccessText m)) :=
      .moduleExports heager (by rw [hone]; exact List.mem_singleton_self r) haccess
    rw [htext] at hwrites
    exact List.mem_append_left _ hwrites.mem_moduleEdits
  have heffect : a ∈ edits := by
    refine mem_of_resolveEdits hresolved hmem hlt fun e he => (hothers e he).imp_right fun hgives => ?_
    unfold Span.GivesWay Edit.span at hgives
    dsimp only at hgives
    omega
  refine ⟨r, access, hone, hmodule, haccess, heffect, hothers, ?_⟩
  have hiff : ∀ e ∈ edits, declares m.exportsName e.text ↔ (e == a) = true := by
    intro e he
    rw [beq_iff_eq]
    constructor
    · intro hdeclares
      have hplaced := (mem_of_lastEdit? ((resolveEdits_spec hresolved).1 e he)).1
      obtain ⟨-, -, r', hr', access', haccess', rfl⟩ := eq_of_declares hm hi hread hplaced hdeclares
      obtain rfl := List.mem_singleton.mp (hone ▸ hr')
      cases haccess.symm.trans haccess'
      rw [htext]
    · rintro rfl
      have hself : declares m.exportsName ("var " ++ m.exportsName) := by
        simpa using @declares_append m.exportsName ""
      exact hself
  rw [List.countP_map, Function.comp_def, List.countP_congr hiff]
  exact Nat.le_antisymm ((inTurn_of_resolveEdits hresolved).count_le hlt) (List.count_pos_iff.mpr heffect)

/-- Where the variable is declared in front of a module, no edit declares it. -/
theorem countP_declares_edits (hread : ((ofModules t modules).facts i).ReadOff p)
    (hresolved : resolveEdits ((ofModules t modules).facts i).record.source.toList
      (placedEdits options (ofModules t modules) i) = .ok edits)
    (h : (ofModules t modules).isOnDemand i = false →
      ((ofModules t modules).facts i).isSimpleExport = false) :
    (edits.map (·.text)).countP (declares name) = 0 := by
  refine List.countP_eq_zero.mpr fun text htext hdeclares => ?_
  obtain ⟨e, he, rfl⟩ := List.mem_map.mp htext
  have hplaced := (mem_of_lastEdit? ((resolveEdits_spec hresolved).1 e he)).1
  obtain ⟨heager, hsimple, -⟩ := eq_of_declares hm hi hread hplaced hdeclares
  exact absurd hsimple (by simp [h heager])

end Build

section Frame

variable {names : LoaderNames}

theorem moduleFrame_of_onDemand (h : l.isOnDemand i) : moduleFrame l names i =
    ("var " ++ (l.facts i).exportsName ++ " = " ++ names.factory ++ "(function (module, exports) \x7b\n",
      "\n\x7d);") := by
  rw [moduleFrame, if_pos h]

theorem moduleFrame_of_eager (h : l.isOnDemand i = false) (hsimple : (l.facts i).isSimpleExport = false) :
    (moduleFrame l names i).1 = "var " ++ (l.facts i).exportsName ++
      if (l.facts i).needsModuleObject then " = \x7b exports: \x7b\x7d \x7d;\n" else " = \x7b\x7d;\n" := by
  rw [moduleFrame, if_neg (by simp [h])]
  split
  · rfl
  · rw [if_neg (by simp [hsimple])]

theorem moduleFrame_of_simple (h : l.isOnDemand i = false) (hmodule : (l.facts i).uses.module = [])
    (hsimple : (l.facts i).isSimpleExport) : moduleFrame l names i = ("", "") := by
  have hneeds : (l.facts i).needsModuleObject = false := by simp [ModuleFacts.needsModuleObject, hmodule]
  rw [moduleFrame, if_neg (by simp [h]), if_neg (by simp [hneeds]), if_pos hsimple]

/-- What comes after a module starts on a new line. -/
theorem not_declares_outro : declares name (moduleFrame l names i).2 = false := by
  refine not_declares_of_head? ?_
  unfold moduleFrame
  dsimp only
  split
  · simp
  · split
    · simp
    · split <;> simp

end Frame

/-- Of all texts that are written for a module, those of the edits that take effect among them, just one
starts with the `var` of its exports: what is in front of a module on demand, and of an eager one unless
`module.exports` is given its only value by a statement outside of all functions. That access is in no
other edit then, nor is any other one in its place. -/
theorem countP_declares_eq_one (options : Options) (names : LoaderNames)
    (hm : scanModules t = .ok modules) (hi : i < t.size) :
    let l := ofModules t modules
    let m := l.facts i
    let frame := moduleFrame l names i
    ∃ piece edits, placeModule options l names i = .ok piece ∧
      resolveEdits m.record.source.toList (placedEdits options l i) = .ok edits ∧
      piece.code = placedText l names i edits ∧
      (frame.1 :: frame.2 :: edits.map (·.text)).countP (declares m.exportsName) = 1 ∧
      (l.isOnDemand i → frame.1 = "var " ++ m.exportsName ++ " = " ++ names.factory ++
        "(function (module, exports) \x7b\n") ∧
      (l.isOnDemand i = false → m.isSimpleExport = false → frame.1 = "var " ++ m.exportsName ++
        if m.needsModuleObject then " = \x7b exports: \x7b\x7d \x7d;\n" else " = \x7b\x7d;\n") ∧
      (l.isOnDemand i = false → m.isSimpleExport → frame = ("", "") ∧ ∃ r access,
        m.uses.moduleExports = [r] ∧ r.member? = some access ∧
        let a := Edit.replacing access.span ("var " ++ m.exportsName)
        a ∈ edits ∧ ∀ e ∈ placedEdits options l i, e = a ∨ e.span.GivesWay a.span) := by
  intro l m frame
  obtain ⟨p, -, hread⟩ := exists_readOff hm hi
  obtain ⟨piece, hpiece⟩ : ∃ piece, placeModule options l names i = .ok piece :=
    placeModule_ok names hread.toPlaced
  obtain ⟨edits, hresolved, hcode⟩ := code_of_placeModule hpiece
  have houtro : declares m.exportsName frame.2 = false := not_declares_outro
  have hdemanded (hdemand : l.isOnDemand i) : frame = _ := moduleFrame_of_onDemand hdemand
  have hopened (heager : l.isOnDemand i = false) (hsimple : m.isSimpleExport = false) : frame.1 = _ :=
    moduleFrame_of_eager heager hsimple
  have hsole (heager : l.isOnDemand i = false) (hsimple : m.isSimpleExport) :=
    exists_soleExport hm hi heager hsimple hresolved
  refine ⟨piece, edits, hpiece, hresolved, hcode, ?_, fun hdemand => by rw [hdemanded hdemand], hopened,
    fun heager hsimple => ?_⟩
  · cases hdemand : l.isOnDemand i with
    | true =>
      have hedits : (edits.map (·.text)).countP (declares m.exportsName) = 0 :=
        countP_declares_edits hm hi hread hresolved fun heager => absurd (hdemand.symm.trans heager) (by decide)
      have hintro : declares m.exportsName frame.1 := by
        rw [hdemanded hdemand]
        simp only [String.append_assoc]
        rw [← String.append_assoc]
        exact declares_append
      simp [hintro, houtro, hedits]
    | false =>
      cases hsimple : m.isSimpleExport with
      | false =>
        have hedits : (edits.map (·.text)).countP (declares m.exportsName) = 0 :=
          countP_declares_edits hm hi hread hresolved fun _ => hsimple
        have hintro : declares m.exportsName frame.1 := by
          rw [hopened hdemand hsimple]
          exact declares_append
        simp [hintro, houtro, hedits]
      | true =>
        obtain ⟨r, access, -, hmodule, -, -, -, hedits⟩ := hsole hdemand hsimple
        have hintro : declares m.exportsName "" = false := not_declares_of_head? (by simp)
        rw [show frame = ("", "") from moduleFrame_of_simple hdemand hmodule hsimple]
        simpa [hintro] using hedits
  · obtain ⟨r, access, hone, hmodule, haccess, heffect, hothers, -⟩ := hsole heager hsimple
    exact ⟨moduleFrame_of_simple heager hmodule hsimple, r, access, hone, haccess, heffect, hothers⟩

/-- An export in a branch, next to a variable that goes away, calls of two modules and a `typeof`. -/
def soleExport : List Record := [
  { id := .number 1, source := "var a = require('./a');\nif (typeof require) module.exports = a(require('b'));",
    deps := [("./a", some (.number 2))] },
  { id := .number 2, source := "exports.a = 1;" }]

theorem countP_declares_soleExport :
    ∃ t modules, Table.ofRecords soleExport = .ok t ∧ scanModules t = .ok modules ∧
      let l := ofModules t modules
      l.isOnDemand 0 = false ∧ (l.facts 0).isSimpleExport ∧ 6 ≤ (plainEdits l 0).length ∧
      ∃ edits, resolveEdits (l.facts 0).record.source.toList (placedEdits {} l 0) = .ok edits ∧
        (edits.map (·.text)).countP (declares (l.facts 0).exportsName) = 1 := by
  let t : Table := ⟨soleExport⟩
  have ht : Table.ofRecords soleExport = .ok t := Table.ofRecords_eq_ok_iff.mpr ⟨by decide, rfl⟩
  obtain ⟨modules, hm, heager, hsimple, hlength⟩ : ∃ modules ∈ (scanModules t).toOption,
      let l := ofModules t modules
      l.isOnDemand 0 = false ∧ (l.facts 0).isSimpleExport ∧ 6 ≤ (plainEdits l 0).length := by
    decide +kernel
  have hm := mem_toOption_scanModules.mp hm
  obtain ⟨-, edits, -, hresolved, -, hcount, -, -, hsole⟩ :=
    countP_declares_eq_one {} (LoaderNames.ofModules modules) hm (by decide : 0 < t.size)
  rw [(hsole heager hsimple).1] at hcount
  have hempty (name : String) : declares name "" = false := not_declares_of_head? (by simp)
  exact ⟨t, modules, ht, hm, heager, hsimple, hlength, edits, hresolved, by simpa [hempty] using hcount⟩

/-- The text that a module ends up with declares the variable of its exports. -/
def DeclaresExports (options : Options) (l : Linked) (names : LoaderNames) (i : Nat) : Prop :=
  ∀ piece, placeModule options l names i = .ok piece → ∃ p, Script.Program.parse? piece.code = some p ∧
    ∃ at_ span, (at_, .declare .variable (l.facts i).exportsName span false) ∈ p.visited

/-- In parentheses there is no declaration. -/
theorem not_declaresExports :
    ¬∀ (options : Options) (records : List Record) (t : Table) (modules : List ModuleFacts),
      Table.ofRecords records = .ok t → scanModules t = .ok modules → ∀ i < t.size,
        DeclaresExports options (ofModules t modules) (LoaderNames.ofModules modules) i := by
  intro h
  let t : Table := ⟨exportInParens⟩
  have ht : Table.ofRecords exportInParens = .ok t := Table.ofRecords_eq_ok_iff.mpr ⟨by decide, rfl⟩
  let code := "(var _$module_1 = 5);"
  obtain ⟨modules, hm, htop, e, -, hedits, hfits, hcode⟩ :
      ∃ modules ∈ (scanModules t).toOption, let l := ofModules t modules
        l.topLevelNames 0 = [] ∧
        ∃ e ∈ plainEdits l 0, plainEdits l 0 = [e] ∧ e.fits (l.facts 0).record.source.toList ∧
          placedText l (LoaderNames.ofModules modules) 0 [e] = code := by
    decide +kernel
  have hm := mem_toOption_scanModules.mp hm
  have hresolved : resolveEdits ((ofModules t modules).facts 0).record.source.toList
      (placedEdits {} (ofModules t modules) 0) = .ok [e] := by
    rw [placedEdits_eq_plainEdits hm (by decide) rfl htop, hedits, resolveEdits_singleton hfits]
  obtain ⟨p, hp, -⟩ := h {} _ t modules ht hm 0 (by decide) _ (placeModule_of_resolved _ rfl hresolved)
  have hnone : Script.Program.parse? code = none := by
    rw [← Option.isNone_iff_eq_none]
    decide +kernel
  dsimp only at hp
  rw [hcode, hnone] at hp
  cases hp

end Linked

end FlatBundle
