import FlatBundle.Proofs.Bundle.Inlining

/-!
What the edits of a module write. An edit either writes a name that the bundle made up, in the place of a
name, of an access or of a call, or it is one of five kinds that write none.
-/

namespace FlatBundle

variable {l : Linked} {m : ModuleFacts} {call : RequireCall} {d : RequireDeclarator} {r : Reference}
  {e : Edit} {i target : Nat} {name : String}

theorem exportsOf_eager (h : l.isOnDemand target = false) :
    l.exportsOf target = (l.facts target).exportsName := by
  simp [Linked.exportsOf, h]

theorem renameOccurrence_eq (source name : String) (r : Reference) :
    renameOccurrence source name r =
      .replacing r.span ((if r.shorthand then spanText source r.span ++ ": " else "") ++ name) := by
  unfold renameOccurrence
  split <;> simp

/-- What is written in the place of `module.exports`. -/
def exportsAccessText (m : ModuleFacts) : String :=
  if m.isSimpleExport then "var " ++ exportsTarget m else exportsTarget m

/-- What is written for the parent of a module. -/
def parentText (m : ModuleFacts) : String :=
  if m.record.entry then "null" else "(\x7b\x7d)"

theorem moduleEdit_cases (m : ModuleFacts) (r : Reference) :
    (∃ span, r.usage = .typeof span ∧ moduleEdit m r = .replacing span "\"object\"") ∨
    (∃ access, r.usage = .member access ∧ access.property = some "parent" ∧
      moduleEdit m r = .replacing access.span (parentText m)) ∨
    moduleEdit m r = renameOccurrence m.record.source m.exportsName r := by
  unfold moduleEdit
  split
  · exact .inl ⟨_, ‹_›, rfl⟩
  · split
    · exact .inr (.inl ⟨_, ‹_›, ‹_›, rfl⟩)
    · exact .inr (.inr rfl)
  · exact .inr (.inr rfl)

/-- A call for another module is replaced as a whole, or inlined where an eager module gives a variable
its value. -/
inductive Requirement.Yields (l : Linked) (m : ModuleFacts) : Requirement → Edit → Prop
  | external {call : RequireCall} {id : ModuleId} :
    Yields l m ⟨call, .external id⟩ (.replacing call.span ("require(" ++ id.literal ++ ")"))
  | call {call : RequireCall} {target : Nat} (place : l.isOnDemand target ∨ call.declarator = none) :
    Yields l m ⟨call, .internal target⟩ (.replacing call.span (l.exportsOf target))
  | inlined {call : RequireCall} {target : Nat} {d : RequireDeclarator} {r : Reference}
      (eager : l.isOnDemand target = false) (declared : call.declarator = some d)
      (use : r ∈ m.scopes.referencesOf d.binding) :
    Yields l m ⟨call, .internal target⟩
      (renameOccurrence m.record.source (l.facts target).exportsName r)
  | cut {call : RequireCall} {target : Nat} {d : RequireDeclarator} {gone : List Script.Span} {e : Edit}
      (eager : l.isOnDemand target = false) (declared : call.declarator = some d)
      (removed : declaratorEdit? m.record.source gone d = some e) :
    Yields l m ⟨call, .internal target⟩ e

theorem exists_yields {gone : List Script.Span} {qs : List Requirement}
    (h : e ∈ requirementEdits l m gone qs) : ∃ q ∈ qs, q.Yields l m e := by
  induction qs generalizing gone with
  | nil => cases h
  | cons q qs ih =>
    have later {gone : List Script.Span} (h : e ∈ requirementEdits l m gone qs) :
        ∃ q' ∈ q :: qs, q'.Yields l m e := by
      obtain ⟨q', hq', hyields⟩ := ih h
      exact ⟨q', List.mem_cons_of_mem q hq', hyields⟩
    obtain ⟨call, target | id⟩ := q
    · rw [requirementEdits] at h
      split at h
      next hdemand =>
        rcases List.mem_cons.mp h with rfl | h
        · exact ⟨_, List.mem_cons_self .., .call (.inl hdemand)⟩
        · exact later h
      next hdemand =>
        have heager : l.isOnDemand target = false := by simpa using hdemand
        rcases List.mem_append.mp h with h | h
        · refine ⟨_, List.mem_cons_self .., ?_⟩
          unfold inlineEdits at h
          split at h
          next hd =>
            obtain rfl := List.mem_singleton.mp h
            exact .call (.inr hd)
          next d hd =>
            rcases List.mem_append.mp h with h | h
            · obtain ⟨r, hr, rfl⟩ := List.mem_map.mp h
              rw [exportsOf_eager heager]
              exact .inlined heager hd hr
            · exact .cut heager hd (Option.mem_toList.mp h)
        · exact later h
    · rcases List.mem_cons.mp h with rfl | h
      · exact ⟨_, List.mem_cons_self .., .external⟩
      · exact later h

/-- A call that gives no variable its value in the end is replaced as a whole. -/
theorem replacing_mem_requirementEdits {gone : List Script.Span} {qs : List Requirement}
    (hq : ⟨call, .internal target⟩ ∈ qs) (hplace : l.isOnDemand target ∨ call.declarator = none) :
    .replacing call.span (l.exportsOf target) ∈ requirementEdits l m gone qs := by
  induction qs generalizing gone with
  | nil => cases hq
  | cons q qs ih =>
    rcases List.mem_cons.mp hq with rfl | hq
    · rw [requirementEdits]
      split
      next => exact List.mem_cons_self ..
      next hdemand =>
        have hd : call.declarator = none := hplace.resolve_left hdemand
        rw [inlineEdits, hd]
        exact List.mem_append_left _ (List.mem_singleton_self _)
    · obtain ⟨front, gone', hedits⟩ : ∃ front gone', requirementEdits l m gone (q :: qs) =
          front ++ requirementEdits l m gone' qs := requirementEdits_cons
      rw [hedits]
      exact List.mem_append_right _ (ih hq)

namespace Linked

/-- In the scope `at_` of the module at `i`, an edit writes a name that is not the source's: the variable
of some module's exports, or what a top-level name changes to. -/
inductive Writes (l : Linked) (i : Nat) : Nat → String → Edit → Prop
  | exports {r : Reference} (eager : l.isOnDemand i = false) (use : r ∈ (l.facts i).uses.exports) :
    Writes l i r.scope (l.facts i).exportsName
      (renameOccurrence (l.facts i).record.source (exportsTarget (l.facts i)) r)
  | moduleExports {r : Reference} {access : MemberAccess} (eager : l.isOnDemand i = false)
      (use : r ∈ (l.facts i).uses.moduleExports) (whole : r.member? = some access) :
    Writes l i r.scope (l.facts i).exportsName
      (.replacing access.span (exportsAccessText (l.facts i)))
  | module {r : Reference} (eager : l.isOnDemand i = false) (use : r ∈ (l.facts i).uses.module)
      (named : moduleEdit (l.facts i) r =
        renameOccurrence (l.facts i).record.source (l.facts i).exportsName r) :
    Writes l i r.scope (l.facts i).exportsName (moduleEdit (l.facts i) r)
  | changed {r : Reference} {b : Nat} (eager : l.isOnDemand i = false)
      (renamed : b ∈ l.renamedBindings i) (use : r ∈ (l.facts i).scopes.referencesOf b) :
    Writes l i r.scope (changedName (l.facts i) b)
      (renameOccurrence (l.facts i).record.source (changedName (l.facts i) b) r)
  | call {p : Script.Program} {at_ target : Nat} {v : Visit} {call : RequireCall}
      (read : Script.Program.parse? (l.facts i).record.source = some p) (visit : (at_, v) ∈ p.visited)
      (called : (l.facts i).scopes.called? (at_, v) = some call)
      (needed : ⟨call, .internal target⟩ ∈ (l.facts i).requirements)
      (place : l.isOnDemand target ∨ call.declarator = none) :
    Writes l i at_ (l.facts target).exportsName (.replacing call.span (l.exportsOf target))
  | inlined {r : Reference} {call : RequireCall} {d : RequireDeclarator} {target : Nat}
      (inlines : l.Inlines i call d target) (use : r ∈ (l.facts i).scopes.referencesOf d.binding) :
    Writes l i r.scope (l.facts target).exportsName
      (renameOccurrence (l.facts i).record.source (l.facts target).exportsName r)

/-- An edit of the module at `i` that writes no such name. -/
inductive WritesNoName (l : Linked) (i : Nat) : Edit → Prop
  | typeofRequire {r : Reference} {span : Script.Span} (use : r ∈ (l.facts i).uses.require)
      (whole : r.usage = .typeof span) : WritesNoName l i (.replacing span "\"function\"")
  | typeofModule {r : Reference} {span : Script.Span} (eager : l.isOnDemand i = false)
      (use : r ∈ (l.facts i).uses.module) (whole : r.usage = .typeof span) :
    WritesNoName l i (.replacing span "\"object\"")
  | parent {r : Reference} {access : MemberAccess} (eager : l.isOnDemand i = false)
      (use : r ∈ (l.facts i).uses.module) (whole : r.usage = .member access)
      (parent : access.property = some "parent") :
    WritesNoName l i (.replacing access.span (parentText (l.facts i)))
  | external {call : RequireCall} {id : ModuleId}
      (needed : ⟨call, .external id⟩ ∈ (l.facts i).requirements) :
    WritesNoName l i (.replacing call.span ("require(" ++ id.literal ++ ")"))
  | cut {call : RequireCall} {d : RequireDeclarator} {target : Nat} {gone : List Script.Span} {e : Edit}
      (inlines : l.Inlines i call d target)
      (removed : declaratorEdit? (l.facts i).record.source gone d = some e) : WritesNoName l i e

theorem Writes.mem_moduleEdits {at_ : Nat} (h : l.Writes i at_ name e) : e ∈ moduleEdits l i := by
  -- the names of an eager module, and then the calls
  have heager (heager : l.isOnDemand i = false) (hmem : e ∈ exportsEdits (l.facts i) ++
      (l.facts i).uses.module.map (moduleEdit (l.facts i)) ++
        (l.renamedBindings i).flatMap (collisionEdits (l.facts i))) : e ∈ moduleEdits l i := by
    refine List.mem_append_left _ (List.mem_append_right _ ?_)
    simpa [heager] using hmem
  have hcall (hmem : e ∈ requirementEdits l (l.facts i) [] (l.facts i).requirements) :
      e ∈ moduleEdits l i := List.mem_append_right _ hmem
  cases h with
  | exports eager use =>
    exact heager eager (List.mem_append_left _ (List.mem_append_left _
      (List.mem_append_right _ (List.mem_map_of_mem use))))
  | moduleExports eager use whole =>
    refine heager eager (List.mem_append_left _ (List.mem_append_left _ (List.mem_append_left _ ?_)))
    exact List.mem_filterMap.mpr ⟨_, use, by rw [whole]; rfl⟩
  | module eager use named =>
    exact heager eager (List.mem_append_left _ (List.mem_append_right _ (List.mem_map_of_mem use)))
  | changed eager renamed use =>
    exact heager eager (List.mem_append_right _
      (List.mem_flatMap.mpr ⟨_, renamed, List.mem_map_of_mem use⟩))
  | call read visit called needed place => exact hcall (replacing_mem_requirementEdits needed place)
  | inlined inlines use =>
    exact hcall (mem_requirementEdits inlines.1 inlines.2.1 inlines.2.2 use)

section Build

variable {t : Table} {modules : List ModuleFacts} (hm : scanModules t = .ok modules) (hi : i < t.size)
include hm hi

theorem exists_called (hq : ⟨call, .internal target⟩ ∈ ((ofModules t modules).facts i).requirements) :
    ∃ p at_ v, Script.Program.parse? ((ofModules t modules).facts i).record.source = some p ∧
      (at_, v) ∈ p.visited ∧
      ((ofModules t modules).facts i).scopes.called? (at_, v) = some call := by
  obtain ⟨p, hp, hfacts⟩ := exists_program hm hi
  have hcall : call ∈ (Analysis.ofProgram p (t.get i).source).calls := by
    rw [hfacts] at hq
    obtain ⟨call', hcall', heq⟩ := List.mem_map.mp hq
    obtain rfl : call' = call := congrArg Requirement.call heq
    exact hcall'
  rw [Analysis.calls_ofProgram] at hcall
  obtain ⟨⟨at_, v⟩, hv, hcalled⟩ := List.mem_filterMap.mp hcall
  refine ⟨p, at_, v, ?_, hv, ?_⟩
  · rw [record_facts hm hi]
    exact hp
  · rw [hfacts]
    exact hcalled

/-- All edits of a module are of these kinds. -/
theorem writes_of_mem_moduleEdits (he : e ∈ moduleEdits (ofModules t modules) i) :
    (∃ at_ name, (ofModules t modules).Writes i at_ name e) ∨
      (ofModules t modules).WritesNoName i e := by
  let l := ofModules t modules
  rcases List.mem_append.mp he with he | he
  · rcases List.mem_append.mp he with he | he
    · obtain ⟨r, hr, hedit⟩ := List.mem_filterMap.mp he
      split at hedit
      next span husage =>
        cases hedit
        exact .inr (.typeofRequire hr husage)
      next => cases hedit
    · split at he
      next => cases he
      next hdemand =>
        have heager : l.isOnDemand i = false := by simpa using hdemand
        rcases List.mem_append.mp he with he | he
        · rcases List.mem_append.mp he with he | he
          · rcases List.mem_append.mp he with he | he
            · obtain ⟨r, hr, hedit⟩ := List.mem_filterMap.mp he
              obtain ⟨access, haccess, rfl⟩ := Option.map_eq_some_iff.mp hedit
              exact .inl ⟨_, _, .moduleExports heager hr haccess⟩
            · obtain ⟨r, hr, rfl⟩ := List.mem_map.mp he
              exact .inl ⟨_, _, .exports heager hr⟩
          · obtain ⟨r, hr, rfl⟩ := List.mem_map.mp he
            rcases moduleEdit_cases (l.facts i) r with ⟨span, husage, hedit⟩ |
              ⟨access, husage, hparent, hedit⟩ | hedit
            · exact .inr (hedit ▸ .typeofModule heager hr husage)
            · exact .inr (hedit ▸ .parent heager hr husage hparent)
            · exact .inl ⟨_, _, .module heager hr hedit⟩
        · obtain ⟨b, hb, he⟩ := List.mem_flatMap.mp he
          obtain ⟨r, hr, rfl⟩ := List.mem_map.mp he
          exact .inl ⟨_, _, .changed heager hb hr⟩
  · obtain ⟨q, hq, hyields⟩ := exists_yields he
    cases hyields with
    | external => exact .inr (.external hq)
    | call place =>
      obtain ⟨p, at_, v, hp, hv, hcalled⟩ := exists_called hm hi hq
      exact .inl ⟨_, _, .call hp hv hcalled hq place⟩
    | inlined eager declared use => exact .inl ⟨_, _, .inlined ⟨hq, eager, declared⟩ use⟩
    | cut eager declared removed => exact .inr (.cut ⟨hq, eager, declared⟩ removed)

end Build

end Linked

end FlatBundle
