import FlatBundle.Proofs.Distinct
import FlatBundle.Proofs.Scope.Trail
import FlatBundle.Proofs.Scope.Tree

/-!
The second way through a script: each lookup is an occurrence of what the innermost scope around it
binds, and the calls of the wrapper's `require` are kept.
-/

namespace FlatBundle

open Script (Span)

namespace ScopeTree

variable {t t' t'' : ScopeTree} {ls ms : List (Nat × Visit)} {s b at_ : Nat} {name : String}

/-- What a name that is looked up refers to; names that no scope declares have bindings too. -/
def referredBinding? (t : ScopeTree) (at_ : Nat) (name : String) : Option Nat :=
  t.findBinding at_ name <|> (t.scope wrapperScope).undeclared.lookup name

/-- The reference that a lookup makes. -/
def referred? (t : ScopeTree) : Nat × Visit → Option Reference
  | (at_, .refer name span shorthand usage) =>
    some ⟨span, at_, (t.referredBinding? at_ name).getD default, false, shorthand, usage⟩
  | _ => none

/-- The variable that gets the value of a call, if its name is bound at the call. -/
def declarator? (t : ScopeTree) (at_ : Nat) (site : DeclaratorSite) : Option RequireDeclarator :=
  (t.findBinding at_ site.name).map fun b => ⟨b, site.declaration, site.declarators, site.position⟩

/-- The call for a module that a visit makes, if its `require` is the wrapper's. -/
def called? (t : ScopeTree) : Nat × Visit → Option RequireCall
  | (at_, .call site) =>
    if t.findBinding at_ "require" = some requireBinding then
      some ⟨site.span, site.specifier, site.unpredictable, site.declarator.bind (t.declarator? at_)⟩
    else none
  | _ => none

/-- A name that is looked up, but that no scope around declares. -/
def unresolved? (t : ScopeTree) : Nat × Visit → Option String
  | (at_, .refer name _ _ _) => if t.findBinding at_ name = none then some name else none
  | _ => none

/-- Some lookup finds a name in no scope. -/
def LooksUpUndeclared (t : ScopeTree) (ls : List (Nat × Visit)) (name : String) : Prop :=
  ∃ at_ span shorthand usage, (at_, .refer name span shorthand usage) ∈ ls ∧
    t.findBinding at_ name = none

theorem not_mem_undeclaredNames_of_lookup
    (h : (t.scope wrapperScope).undeclared.lookup name = none) : name ∉ t.undeclaredNames := by
  intro hmem
  obtain ⟨e, he, rfl⟩ := List.mem_map.mp hmem
  have hother := List.lookup_eq_none_iff.mp h e he
  simp at hother

end ScopeTree

/-- The state `r'` comes from `r` by the lookups and calls among some visits. -/
structure ResolvedBy (r : Resolving) (ls : List (Nat × Visit)) (r' : Resolving) : Prop where
  sound : r'.tree.Sound
  same : r.tree.SameNames r'.tree
  grown : r.tree.Extends r'.tree
  bindings_le : r.tree.bindings.size ≤ r'.tree.bindings.size
  noted : ∀ at_ name span shorthand usage, (at_, .refer name span shorthand usage) ∈ ls →
    (r'.tree.referredBinding? at_ name).isSome
  references : r'.tree.references.toList =
    r.tree.references.toList ++ ls.filterMap r'.tree.referred?
  calls : r'.calls = r.calls ++ ls.filterMap r'.tree.called?
  undeclared : ∀ e ∈ (r'.tree.scope ScopeTree.wrapperScope).undeclared,
    e ∈ (r.tree.scope ScopeTree.wrapperScope).undeclared ∨
      r.tree.bindings.size ≤ e.2 ∧ r'.tree.LooksUpUndeclared ls e.1
  unresolved : ∀ used, r.tree.undeclaredNames = firstOccurrences used →
    r'.tree.undeclaredNames = firstOccurrences (used ++ ls.filterMap r'.tree.unresolved?)

section Resolving

variable {r r' r'' : Resolving} {ls ms : List (Nat × Visit)} {v : Visit} {vs : List Visit}

theorem ResolvedBy.refl (h : r.tree.Sound) : ResolvedBy r [] r :=
  ⟨h, .refl _, .refl _, Nat.le_refl _, nofun, by simp, by simp, fun _ he => .inl he, by simp⟩

theorem ResolvedBy.append (h : ResolvedBy r ls r') (h' : ResolvedBy r' ms r'') :
    ResolvedBy r (ls ++ ms) r'' := by
  have hfind (at_ : Nat) (name : String) :
      r''.tree.findBinding at_ name = r'.tree.findBinding at_ name :=
    h'.same.findBinding
  have hreferred {at_ b : Nat} {name : String} (hb : r'.tree.referredBinding? at_ name = some b) :
      r''.tree.referredBinding? at_ name = some b := by
    unfold ScopeTree.referredBinding? at hb ⊢
    rw [hfind]
    cases hfound : r'.tree.findBinding at_ name with
    | some c => rwa [hfound] at hb
    | none =>
      rw [hfound] at hb
      exact ScopeTree.lookup_of_isPrefix (h'.grown.undeclared _ h.sound.pos) hb
  refine ⟨h'.sound, h.same.trans h'.same, h.grown.trans h'.grown,
    Nat.le_trans h.bindings_le h'.bindings_le, fun at_ name span shorthand usage he => ?_, ?_, ?_,
    fun e he => ?_, fun used hused => ?_⟩
  · rcases List.mem_append.mp he with he | he
    · obtain ⟨b, hb⟩ := Option.isSome_iff_exists.mp (h.noted at_ name span shorthand usage he)
      exact Option.isSome_iff_exists.mpr ⟨b, hreferred hb⟩
    · exact h'.noted at_ name span shorthand usage he
  · have hsame : ls.filterMap r'.tree.referred? = ls.filterMap r''.tree.referred? := by
      refine List.filterMap_congr fun e he => ?_
      obtain ⟨at_, v⟩ := e
      cases v with
      | refer name span shorthand usage =>
        obtain ⟨b, hb⟩ := Option.isSome_iff_exists.mp (h.noted at_ name span shorthand usage he)
        rw [ScopeTree.referred?, ScopeTree.referred?, hb, hreferred hb]
      | enter | leave | declare | call => rfl
    rw [h'.references, h.references, hsame, List.filterMap_append, List.append_assoc]
  · have hsame : ls.filterMap r'.tree.called? = ls.filterMap r''.tree.called? := by
      refine List.filterMap_congr fun e _ => ?_
      obtain ⟨at_, v⟩ := e
      cases v with
      | call site =>
        have hdeclarator : r''.tree.declarator? at_ = r'.tree.declarator? at_ := by
          funext site
          rw [ScopeTree.declarator?, ScopeTree.declarator?, hfind]
        rw [ScopeTree.called?, ScopeTree.called?, hfind, hdeclarator]
      | enter | leave | declare | refer => rfl
    rw [h'.calls, h.calls, hsame, List.filterMap_append, List.append_assoc]
  · have hmono {ns : List (Nat × Visit)} {name : String} (hsub : ns ⊆ ls ++ ms)
        (hname : ∃ at_ span shorthand usage, (at_, .refer name span shorthand usage) ∈ ns ∧
          r''.tree.findBinding at_ name = none) :
        r''.tree.LooksUpUndeclared (ls ++ ms) name := by
      obtain ⟨at_, span, shorthand, usage, hmem, hnone⟩ := hname
      exact ⟨at_, span, shorthand, usage, hsub hmem, hnone⟩
    rcases h'.undeclared e he with he | ⟨hle, hname⟩
    · rcases h.undeclared e he with he | ⟨hle, hname⟩
      · exact .inl he
      · obtain ⟨at_, span, shorthand, usage, hmem, hnone⟩ := hname
        exact .inr ⟨hle, hmono (List.subset_append_left _ _)
          ⟨at_, span, shorthand, usage, hmem, (hfind _ _).trans hnone⟩⟩
    · exact .inr ⟨Nat.le_trans h.bindings_le hle, hmono (List.subset_append_right _ _) hname⟩
  · have hsame : r''.tree.unresolved? = r'.tree.unresolved? := by
      funext e
      obtain ⟨at_, v⟩ := e
      cases v with
      | refer name => rw [ScopeTree.unresolved?, ScopeTree.unresolved?, hfind]
      | enter | leave | declare | call => rfl
    have hnames := h'.unresolved _ (h.unresolved used hused)
    rw [hsame] at hnames
    rwa [List.filterMap_append, ← List.append_assoc, hsame]

theorem resolvedBy_refer {tree : ScopeTree} {b : Nat} {name : String} {span : Span}
    {shorthand : Bool} {usage : Usage} (hsound : tree.Sound)
    (hsame : r.tree.SameNames tree) (hgrown : r.tree.Extends tree)
    (hle : r.tree.bindings.size ≤ tree.bindings.size) (hlt : b < tree.bindings.size)
    (hreferences : tree.references = r.tree.references)
    (hb : tree.referredBinding? r.current name = some b)
    (hundeclared : ∀ e ∈ (tree.scope ScopeTree.wrapperScope).undeclared,
      e ∈ (r.tree.scope ScopeTree.wrapperScope).undeclared ∨
        r.tree.bindings.size ≤ e.2 ∧ e.1 = name ∧ r.tree.findBinding r.current name = none)
    (hnames : ∀ used, r.tree.undeclaredNames = firstOccurrences used → tree.undeclaredNames =
      firstOccurrences (used ++ if r.tree.findBinding r.current name = none then [name] else [])) :
    ResolvedBy r [(r.current, .refer name span shorthand usage)]
      { r with tree := tree.addReference ⟨span, r.current, b, false, shorthand, usage⟩ } := by
  have hadded : r.tree.SameNames
      (tree.addReference ⟨span, r.current, b, false, shorthand, usage⟩) :=
    hsame.trans ScopeTree.sameNames_addReference
  have hb' : (tree.addReference ⟨span, r.current, b, false, shorthand, usage⟩).referredBinding?
      r.current name = some b := by
    rw [← hb, ScopeTree.referredBinding?, ScopeTree.sameNames_addReference.findBinding]
    rfl
  refine ⟨hsound.addReference hlt, hadded, hgrown.trans ScopeTree.extends_addReference, ?_,
    fun at_ other ospan oshorthand ousage hmem => ?_, ?_, ?_, fun e he => ?_, fun used hused => ?_⟩
  · simpa [ScopeTree.addReference] using hle
  · cases List.mem_singleton.mp hmem
    rw [hb']
    rfl
  · rw [List.filterMap_cons, ScopeTree.referred?, hb']
    simp [ScopeTree.addReference, hreferences]
  · simp [ScopeTree.called?]
  · rcases hundeclared e he with he | ⟨hle, rfl, hnone⟩
    · exact .inl he
    · exact .inr ⟨hle, r.current, span, shorthand, usage, List.mem_singleton_self _,
        hadded.findBinding.trans hnone⟩
  · have hlist : [(r.current, Visit.refer name span shorthand usage)].filterMap
        (tree.addReference ⟨span, r.current, b, false, shorthand, usage⟩).unresolved? =
          if r.tree.findBinding r.current name = none then [name] else [] := by
      rw [List.filterMap_cons, ScopeTree.unresolved?, hadded.findBinding]
      by_cases hnone : r.tree.findBinding r.current name = none
      · rw [if_pos hnone, if_pos hnone]
        rfl
      · rw [if_neg hnone, if_neg hnone]
        rfl
    rw [hlist]
    exact hnames used hused

/-- The binding that a lookup gets, with the tree that has it. -/
def ScopeTree.settle (t : ScopeTree) (at_ : Nat) (name : String) : ScopeTree × Nat :=
  match t.findBinding at_ name with
  | some b => (t, b)
  | none => t.undeclaredBinding name

theorem Resolving.step_refer {tree : ScopeTree} {b : Nat} {name : String} {span : Span}
    {shorthand : Bool} {usage : Usage} (h : r.tree.settle r.current name = (tree, b)) :
    r.step (.refer name span shorthand usage) =
      { r with tree := tree.addReference ⟨span, r.current, b, false, shorthand, usage⟩ } := by
  have hstep : r.step (.refer name span shorthand usage) =
      { r with
        tree := (r.tree.settle r.current name).1.addReference
          ⟨span, r.current, (r.tree.settle r.current name).2, false, shorthand, usage⟩ } := rfl
  rw [hstep, h]

theorem Resolving.step_call {site : CallSite} : r.step (.call site) =
    { r with calls := r.calls ++ (r.tree.called? (r.current, .call site)).toList } := by
  simp only [step, call, ScopeTree.called?]
  split
  · rfl
  · simp

theorem resolvedBy_step (h : r.tree.Sound) : ResolvedBy r [(r.current, v)] (r.step v) := by
  cases v with
  | refer name span shorthand usage =>
    cases hfind : r.tree.findBinding r.current name with
    | some b =>
      have hb : r.tree.referredBinding? r.current name = some b := by
        rw [ScopeTree.referredBinding?, hfind]
        rfl
      have hsettled : r.tree.settle r.current name = (r.tree, b) := by
        rw [ScopeTree.settle, hfind]
      rw [Resolving.step_refer hsettled]
      exact resolvedBy_refer h (.refl _) (.refl _) (Nat.le_refl _) (h.lt_of_findBinding hfind) rfl hb
        (fun _ he => .inl he) fun used hused => by simpa [hfind] using hused
    | none =>
      cases hnoted : (r.tree.scope ScopeTree.wrapperScope).undeclared.lookup name with
      | some b =>
        have hb : r.tree.referredBinding? r.current name = some b := by
          rw [ScopeTree.referredBinding?, hfind, hnoted]
          rfl
        have hmem : (name, b) ∈ (r.tree.scope ScopeTree.wrapperScope).undeclared := by
          obtain ⟨front, back, heq, -⟩ := List.lookup_eq_some_iff.mp hnoted
          rw [heq]
          simp
        have hsettled : r.tree.settle r.current name = (r.tree, b) := by
          rw [ScopeTree.settle, hfind]
          exact ScopeTree.undeclaredBinding_of_noted hnoted
        rw [Resolving.step_refer hsettled]
        refine resolvedBy_refer h (.refl _) (.refl _) (Nat.le_refl _) (h.undeclared _ _ hmem) rfl hb
          (fun _ he => .inl he) fun used hused => ?_
        have hused' : name ∈ used := by
          rw [← mem_firstOccurrences, ← hused]
          exact List.mem_map_of_mem hmem
        rw [if_pos hfind, firstOccurrences_concat, if_pos (List.contains_iff_mem.mpr hused'), hused]
      | none =>
        have hsame := ScopeTree.sameNames_noteUndeclared h.pos name
        have hscope := @ScopeTree.scope_noteUndeclared r.tree ScopeTree.wrapperScope name h.pos
        have hsize : (r.tree.noteUndeclared name).bindings.size = r.tree.bindings.size + 1 :=
          ScopeTree.size_bindings_noteUndeclared
        have hsettled : r.tree.settle r.current name =
            (r.tree.noteUndeclared name, r.tree.bindings.size) := by
          rw [ScopeTree.settle, hfind]
          exact ScopeTree.undeclaredBinding_of_new hnoted
        rw [Resolving.step_refer hsettled]
        refine resolvedBy_refer h.noteUndeclared hsame (ScopeTree.extends_noteUndeclared h.pos)
          (by omega) (by omega) rfl ?_ (fun e he => ?_) fun used hused => ?_
        · rw [ScopeTree.referredBinding?, hsame.findBinding, hfind, hscope]
          simp [List.lookup_append, hnoted]
        · rw [hscope, if_pos rfl] at he
          rcases List.mem_append.mp he with he | he
          · exact .inl he
          · obtain rfl := List.mem_singleton.mp he
            exact .inr ⟨Nat.le_refl _, rfl, hfind⟩
        · have hunused : name ∉ used := by
            rw [← mem_firstOccurrences, ← hused]
            exact ScopeTree.not_mem_undeclaredNames_of_lookup hnoted
          rw [if_pos hfind, firstOccurrences_concat, if_neg (by simpa using hunused), ← hused,
            ScopeTree.undeclaredNames, hscope, if_pos rfl, List.map_append]
          rfl
  | call site =>
    rw [Resolving.step_call]
    refine ⟨h, .refl _, .refl _, Nat.le_refl _, fun _ _ _ _ _ hmem => by simp at hmem,
      by simp [ScopeTree.referred?], ?_, fun _ he => .inl he,
      fun used hused => by rwa [List.filterMap_cons_none rfl, List.filterMap_nil, List.append_nil]⟩
    simp only [List.filterMap_cons, List.filterMap_nil]
    cases r.tree.called? (r.current, .call site) <;> rfl
  | enter | leave | declare =>
    exact ⟨h, .refl _, .refl _, Nat.le_refl _, fun _ _ _ _ _ hmem => by simp at hmem,
      by simp [Resolving.step, ScopeTree.referred?], by simp [Resolving.step, ScopeTree.called?],
      fun _ he => .inl he,
      fun used hused => by rwa [List.filterMap_cons_none rfl, List.filterMap_nil, List.append_nil]⟩

/-- A trail runs along: the state has the same scopes open, and the same one opens next. -/
structure Resolving.Follows (r : Resolving) (tr : Trail) : Prop where
  stack : r.stack = tr.stack
  next : r.next = tr.next

namespace Resolving.Follows

variable {tr : Trail}

theorem current (h : r.Follows tr) : r.current = tr.current := by
  rw [Resolving.current, h.stack, Trail.current]

theorem step (h : r.Follows tr) : (r.step v).Follows (tr.step v) := by
  cases v with
  | call site =>
    rw [Resolving.step_call]
    exact ⟨h.stack, h.next⟩
  | enter | leave | declare | refer =>
    constructor <;> simp [Resolving.step, Resolving.refer, Trail.step, h.stack, h.next]

theorem foldl (h : r.Follows tr) : (vs.foldl Resolving.step r).Follows (tr.after vs) := by
  induction vs generalizing r tr with
  | nil => exact h
  | cons v vs ih => exact ih h.step

end Resolving.Follows

theorem follows_resolveAll {tree : ScopeTree} : (resolveAll tree vs).Follows (Trail.start.after vs) :=
  Resolving.Follows.foldl ⟨rfl, rfl⟩

theorem resolvedBy_resolveAll {tree : ScopeTree} (h : tree.Sound) :
    ResolvedBy ⟨tree, [ScopeTree.wrapperScope], ScopeTree.programScope, []⟩ (Trail.start.locate vs)
      (resolveAll tree vs) := by
  have run : ∀ (r : Resolving) (tr : Trail), r.Follows tr → r.tree.Sound →
      ResolvedBy r (tr.locate vs) (vs.foldl Resolving.step r) := by
    induction vs with
    | nil => exact fun r tr _ h => .refl h
    | cons v vs ih =>
      intro r tr hr h
      have hstep := resolvedBy_step (v := v) h
      rw [Trail.locate, ← hr.current]
      exact hstep.append (ih _ _ hr.step hstep.sound)
  exact run _ Trail.start ⟨rfl, rfl⟩ h

end Resolving

end FlatBundle
