import FlatBundle.Proofs.Distinct
import FlatBundle.Proofs.Scope.Trail
import FlatBundle.Proofs.Scope.Tree

/-!
The first way through a script: each declaration puts its name into a scope, and is an occurrence of
what the name is bound to there.
-/

namespace FlatBundle

open Script (Span)

namespace ScopeTree

variable {t t' : ScopeTree} {ls : List (Nat × Visit)} {s b at_ : Nat} {name : String} {span : Span}
  {place : DeclarationPlace} {shorthand : Bool} {usage : Usage}

/-- The reference that a declaration makes. -/
def declared? (t : ScopeTree) : Nat × Visit → Option Reference
  | (at_, .declare place name span shorthand) =>
    some ⟨span, at_, ((t.scope (t.declaringScope place at_)).bindings.lookup name).getD default, true,
      shorthand, .plain⟩
  | _ => none

/-- Some declaration puts a name into a scope. -/
def DeclaredIn (t : ScopeTree) (ls : List (Nat × Visit)) (s : Nat) (name : String) : Prop :=
  ∃ at_ place span shorthand, (at_, .declare place name span shorthand) ∈ ls ∧
    t.declaringScope place at_ = s

/-- The names that a scope binds, in the order of declaration. -/
def scopeNames (t : ScopeTree) (s : Nat) : List String :=
  (t.scope s).bindings.map Prod.fst

theorem mem_scopeNames_iff : name ∈ t.scopeNames s ↔ ((t.scope s).bindings.lookup name).isSome := by
  rw [scopeNames, List.lookup_isSome_iff, List.mem_map]
  exact exists_congr fun e => and_congr_right fun _ => eq_comm.trans beq_iff_eq.symm

/-- The name that a declaration puts into a scope. -/
def declaredName? (t : ScopeTree) (s : Nat) : Nat × Visit → Option String
  | (at_, .declare place name _ _) => if t.declaringScope place at_ = s then some name else none
  | _ => none

/-- The tree `t'` comes from `t` by a declaration of a name in a scope: the occurrence `r` of what the name
is bound to then. -/
structure Declares (t : ScopeTree) (s : Nat) (name : String) (r : Reference) (t' : ScopeTree) :
    Prop where
  sound : t'.Sound
  grown : t.Extends t'
  bound : (t'.scope s).bindings.lookup name = some r.binding
  references : t'.references.toList = t.references.toList ++ [r]
  size : t'.scopes.size = t.scopes.size
  names : ∀ a, t'.scopeNames a =
    if a = s ∧ name ∉ t.scopeNames a then t.scopeNames a ++ [name] else t.scopeNames a
  others : ∀ a other, ¬(a = s ∧ other = name) →
    (t'.scope a).bindings.lookup other = (t.scope a).bindings.lookup other
  undeclared : ∀ a, (t'.scope a).undeclared = (t.scope a).undeclared

theorem Sound.declare (h : t.Sound) (hs : s < t.scopes.size) :
    ∃ b, t.Declares s name ⟨span, at_, b, true, shorthand, .plain⟩
      (t.declare s name span at_ shorthand) := by
  cases hb : (t.scope s).bindings.lookup name with
  | some b =>
    rw [declare_of_bound hb]
    have hlt := (h.bound s _ (Sound.mem_of_lookup hb)).1
    have hmem : name ∈ t.scopeNames s := mem_scopeNames_iff.mpr (hb ▸ rfl)
    refine ⟨b, h.addReference hlt, extends_addReference, hb, by simp [ScopeTree.addReference], rfl,
      fun a => ?_, fun _ _ _ => rfl, fun _ => rfl⟩
    rw [if_neg (by rintro ⟨rfl, hnot⟩; exact hnot hmem)]
    rfl
  | none =>
    rw [declare_of_new hb]
    have hgrown := h.bindName hs hb
    have hsize : t.bindings.size < (t.bindName s name).bindings.size :=
      size_bindings_bindName ▸ Nat.lt_succ_self _
    have hscope (a : Nat) := @scope_bindName t a name s hs
    refine ⟨t.bindings.size, hgrown.addReference hsize,
      (extends_bindName hs).trans extends_addReference, ?_,
      by simp [ScopeTree.addReference, ScopeTree.bindName, modifyScope],
      by simp [ScopeTree.bindName], fun a => ?_, fun a other hne => ?_, fun a => ?_⟩
    · rw [scope_addReference, hscope, if_pos rfl, List.lookup_append, hb]
      simp
    · have hmem : name ∉ t.scopeNames s := by rw [mem_scopeNames_iff, hb]; exact Bool.false_ne_true
      rw [scopeNames, scope_addReference, hscope]
      by_cases ha : a = s
      · subst ha
        rw [if_pos rfl, if_pos ⟨rfl, hmem⟩, List.map_append]
        rfl
      · rw [if_neg ha, if_neg fun h => ha h.1]
        rfl
    · rw [scope_addReference, hscope]
      split
      · rename_i ha
        have hother : other ≠ name := fun heq => hne ⟨ha, heq⟩
        simp [List.lookup_append, List.lookup_cons, beq_false_of_ne hother]
      · rfl
    · rw [scope_addReference, hscope]
      split <;> rfl

/-- The tree `t'` comes from `t` by the declarations among some visits: each one is an occurrence of
what its name is bound to in the end, and nothing else binds names. -/
structure DeclaredBy (t : ScopeTree) (ls : List (Nat × Visit)) (t' : ScopeTree) : Prop where
  sound : t'.Sound
  grown : t.Extends t'
  places : ∀ e ∈ ls, e.1 < t'.scopes.size
  references : t'.references.toList = t.references.toList ++ ls.filterMap t'.declared?
  bound : ∀ s name, ((t'.scope s).bindings.lookup name).isSome ↔
    ((t.scope s).bindings.lookup name).isSome ∨ t'.DeclaredIn ls s name
  names : ∀ s used, t.scopeNames s = firstOccurrences used →
    t'.scopeNames s = firstOccurrences (used ++ ls.filterMap (t'.declaredName? s))
  undeclared : ∀ s, (t'.scope s).undeclared = (t.scope s).undeclared
  parents : ∀ s, t.scopes.size ≤ s → s < t'.scopes.size →
    ∃ at_ kind, (at_, .enter kind) ∈ ls ∧ (t'.scope s).parent = some at_

theorem DeclaredIn.append {ms : List (Nat × Visit)} :
    t.DeclaredIn (ls ++ ms) s name ↔ t.DeclaredIn ls s name ∨ t.DeclaredIn ms s name := by
  constructor
  · rintro ⟨at_, place, span, shorthand, he, hs⟩
    rcases List.mem_append.mp he with he | he
    · exact .inl ⟨at_, place, span, shorthand, he, hs⟩
    · exact .inr ⟨at_, place, span, shorthand, he, hs⟩
  · rintro (⟨at_, place, span, shorthand, he, hs⟩ | ⟨at_, place, span, shorthand, he, hs⟩)
    · exact ⟨at_, place, span, shorthand, List.mem_append_left _ he, hs⟩
    · exact ⟨at_, place, span, shorthand, List.mem_append_right _ he, hs⟩

theorem DeclaredBy.refl (h : t.Sound) : t.DeclaredBy [] t := by
  refine ⟨h, .refl t, nofun, by simp, fun s name => ?_, by simp, fun _ => rfl, fun s hle hlt => ?_⟩
  · simp [DeclaredIn]
  · omega

theorem DeclaredBy.append {t'' : ScopeTree} {ms : List (Nat × Visit)} (h : t.DeclaredBy ls t')
    (h' : t'.DeclaredBy ms t'') : t.DeclaredBy (ls ++ ms) t'' := by
  have hplace (e : Nat × Visit) (he : e ∈ ls) (place : DeclarationPlace) :
      t''.declaringScope place e.1 = t'.declaringScope place e.1 :=
    h'.grown.declaringScope h.sound.toNested h'.sound.toNested place (h.places e he)
  have hdeclared : t''.DeclaredIn ls = t'.DeclaredIn ls := by
    funext s name
    refine propext ⟨fun ⟨at_, place, span, shorthand, he, hs⟩ => ?_,
      fun ⟨at_, place, span, shorthand, he, hs⟩ => ?_⟩
    · exact ⟨at_, place, span, shorthand, he, (hplace _ he place).symm.trans hs⟩
    · exact ⟨at_, place, span, shorthand, he, (hplace _ he place).trans hs⟩
  refine ⟨h'.sound, h.grown.trans h'.grown, fun e he => ?_, ?_, fun s name => ?_, fun s used hused => ?_,
    fun s => (h'.undeclared s).trans (h.undeclared s), fun s hle hlt => ?_⟩
  · rcases List.mem_append.mp he with he | he
    · exact Nat.lt_of_lt_of_le (h.places e he) h'.grown.size_le
    · exact h'.places e he
  · have hsame : ls.filterMap t'.declared? = ls.filterMap t''.declared? := by
      refine List.filterMap_congr fun e he => ?_
      obtain ⟨at_, v⟩ := e
      cases v with
      | declare place name span shorthand =>
        have hin : t'.DeclaredIn ls (t'.declaringScope place at_) name :=
          ⟨at_, place, span, shorthand, he, rfl⟩
        obtain ⟨b, hb⟩ := Option.isSome_iff_exists.mp ((h.bound _ _).mpr (.inr hin))
        have hlt := h.sound.declaringScope_lt place (h.places _ he)
        rw [declared?, declared?, hplace _ he place, hb, h'.grown.lookup hlt hb]
      | enter | leave | refer | call => rfl
    rw [h'.references, h.references, hsame, List.filterMap_append, List.append_assoc]
  · rw [h'.bound, h.bound, DeclaredIn.append, hdeclared, or_assoc]
  · have hsame : ls.filterMap (t''.declaredName? s) = ls.filterMap (t'.declaredName? s) := by
      refine List.filterMap_congr fun e he => ?_
      obtain ⟨at_, v⟩ := e
      cases v with
      | declare place name span shorthand => rw [declaredName?, declaredName?, hplace _ he place]
      | enter | leave | refer | call => rfl
    rw [List.filterMap_append, ← List.append_assoc, hsame]
    exact h'.names s _ (h.names s used hused)
  · by_cases hs : s < t'.scopes.size
    · obtain ⟨at_, kind, he, hparent⟩ := h.parents s hle hs
      exact ⟨at_, kind, List.mem_append_left _ he, (h'.grown.parent s hs).trans hparent⟩
    · obtain ⟨at_, kind, he, hparent⟩ := h'.parents s (Nat.le_of_not_lt hs) hlt
      exact ⟨at_, kind, List.mem_append_right _ he, hparent⟩

end ScopeTree

section Declaring

variable {d : Declaring} {tr : Trail} {v : Visit} {vs : List Visit}

theorem Declaring.step_declare {place : DeclarationPlace} {name : String} {span : Span}
    {shorthand : Bool} : d.step (.declare place name span shorthand) =
      { d with tree :=
        d.tree.declare (d.tree.declaringScope place d.current) name span d.current shorthand } := by
  cases place <;> rfl

theorem declaredBy_step (h : d.tree.Sound) (hcurrent : d.current < d.tree.scopes.size) :
    d.tree.DeclaredBy [(d.current, v)] (d.step v).tree := by
  cases v with
  | enter kind =>
    have hnone : d.tree.scope d.tree.scopes.size = default := by simp [ScopeTree.scope]
    have hold (s : Nat) :
        ((d.tree.addScope d.current kind).scope s).bindings = (d.tree.scope s).bindings ∧
          ((d.tree.addScope d.current kind).scope s).undeclared = (d.tree.scope s).undeclared := by
      rw [ScopeTree.scope_addScope]
      split
      · rename_i hs
        rw [hs, hnone]
        exact ⟨rfl, rfl⟩
      · exact ⟨rfl, rfl⟩
    refine ⟨h.addScope hcurrent, ScopeTree.extends_addScope, ?_, ?_, fun s name => ?_, fun s used hused => ?_,
      fun s => (hold s).2, fun s hle hlt => ⟨d.current, kind, List.mem_singleton_self _, ?_⟩⟩
    · simpa [Declaring.step] using Nat.lt_succ_of_lt hcurrent
    · simp [Declaring.step, ScopeTree.addScope, ScopeTree.declared?]
    · simp [Declaring.step, hold, ScopeTree.DeclaredIn]
    · have hlist : [(d.current, Visit.enter kind)].filterMap
          ((d.step (.enter kind)).tree.declaredName? s) = [] := rfl
      rw [hlist, List.append_nil, ← hused]
      exact congrArg _ (hold s).1
    · have hs : s = d.tree.scopes.size := by
        have hsize : s < d.tree.scopes.size + 1 := by simpa [Declaring.step] using hlt
        omega
      simp [Declaring.step, ScopeTree.scope_addScope, hs]
  | declare place name span shorthand =>
    rw [Declaring.step_declare]
    dsimp only
    have hlt := h.declaringScope_lt place hcurrent
    obtain ⟨b, hd⟩ : ∃ b, d.tree.Declares (d.tree.declaringScope place d.current) name
        ⟨span, d.current, b, true, shorthand, .plain⟩ _ := h.declare hlt
    have hsize := hd.size
    have hplace := hd.grown.declaringScope h.toNested hd.sound.toNested place hcurrent
    refine ⟨hd.sound, hd.grown, ?_, ?_, fun s other => ?_, fun s used hused => ?_, hd.undeclared,
      fun s hle hlt => by omega⟩
    · simpa [hsize] using hcurrent
    · rw [hd.references, List.filterMap_cons, ScopeTree.declared?, hplace, hd.bound]
      rfl
    · by_cases hown : s = d.tree.declaringScope place d.current ∧ other = name
      · obtain ⟨rfl, rfl⟩ := hown
        rw [hd.bound]
        simpa using Or.inr ⟨d.current, place, span, shorthand, List.mem_singleton_self _, hplace⟩
      · rw [hd.others s other hown]
        refine ⟨.inl, fun hbound => hbound.resolve_right ?_⟩
        rintro ⟨_, _, _, _, hmem, hs⟩
        cases List.mem_singleton.mp hmem
        exact hown ⟨hs.symm.trans hplace, rfl⟩
    · have hmem : name ∈ d.tree.scopeNames s ↔ used.contains name := by
        rw [hused, mem_firstOccurrences, List.contains_iff_mem]
      rw [hd.names, List.filterMap_cons, ScopeTree.declaredName?, hplace, List.filterMap_nil]
      by_cases hs : s = d.tree.declaringScope place d.current
      · rw [if_pos hs.symm, firstOccurrences_concat, ← hused]
        by_cases hseen : used.contains name
        · rw [if_pos hseen, if_neg fun h => h.2 (hmem.mpr hseen)]
        · rw [if_neg hseen, if_pos ⟨hs, mt hmem.mp hseen⟩]
      · rw [if_neg (Ne.symm hs), if_neg fun h => hs h.1, hused]
        exact congrArg firstOccurrences (List.append_nil used).symm
  | leave | refer | call =>
    refine ⟨h, .refl d.tree, by simpa [Declaring.step] using hcurrent,
      by simp [Declaring.step, ScopeTree.declared?], fun s name => ?_, fun s used hused => ?_, fun _ => rfl,
      fun s hle hlt => absurd hle (Nat.not_le_of_lt hlt)⟩
    · simp [Declaring.step, ScopeTree.DeclaredIn]
    · exact hused.trans (congrArg firstOccurrences (List.append_nil used).symm)

theorem Declaring.size_step : (d.step v).tree.scopes.size =
    match v with
    | .enter _ => d.tree.scopes.size + 1
    | _ => d.tree.scopes.size := by
  cases v with
  | enter => simp [step]
  | declare place name span shorthand =>
    rw [step_declare]
    simp only [ScopeTree.declare]
    split <;> simp
  | leave | refer | call => rfl

/-- A trail runs along: the state has the same scopes open, and the same one opens next. -/
structure Declaring.Follows (d : Declaring) (tr : Trail) : Prop where
  stack : d.stack = tr.stack
  size : d.tree.scopes.size = tr.next
  opened : tr.Opened

namespace Declaring.Follows

theorem start : Follows ⟨ScopeTree.initial, [ScopeTree.wrapperScope]⟩ Trail.start :=
  ⟨rfl, rfl, Trail.opened_start⟩

theorem current (h : d.Follows tr) : d.current = tr.current := by
  rw [Declaring.current, h.stack, Trail.current]

theorem current_lt (h : d.Follows tr) : d.current < d.tree.scopes.size := by
  rw [h.current, h.size]
  exact h.opened.current_lt

theorem step (h : d.Follows tr) : (d.step v).Follows (tr.step v) := by
  refine ⟨?_, ?_, h.opened.step⟩
  · cases v <;> simp [Declaring.step, Trail.step, h.stack, h.size]
  · rw [Declaring.size_step]
    cases v <;> simp [Trail.step, h.size]

theorem foldl (h : d.Follows tr) : (vs.foldl Declaring.step d).Follows (tr.after vs) := by
  induction vs generalizing d tr with
  | nil => exact h
  | cons v vs ih => exact ih h.step

end Declaring.Follows

theorem declaredBy_foldl (hd : d.Follows tr) (h : d.tree.Sound) :
    d.tree.DeclaredBy (tr.locate vs) (vs.foldl Declaring.step d).tree := by
  induction vs generalizing d tr with
  | nil => exact .refl h
  | cons v vs ih =>
    have hstep := declaredBy_step (v := v) h hd.current_lt
    rw [Trail.locate, ← hd.current]
    exact hstep.append (ih hd.step hstep.sound)

theorem declaredBy_declareAll (vs : List Visit) :
    ScopeTree.initial.DeclaredBy (Trail.start.locate vs) (declareAll vs) :=
  declaredBy_foldl .start ScopeTree.sound_initial

end Declaring

/-- What is inside of a script is inside of its program. -/
theorem programScope_mem_chain {vs : List Visit} {s : Nat}
    (hvs : ∀ e ∈ (Trail.start.step (.enter .program)).locate vs, ScopeTree.programScope ≤ e.1)
    (hs : ScopeTree.programScope ≤ s)
    (hlt : s < (declareAll (.enter .program :: vs)).scopes.size) :
    ScopeTree.programScope ∈ (declareAll (.enter .program :: vs)).chain s := by
  let d : Declaring := ⟨ScopeTree.initial, [ScopeTree.wrapperScope]⟩
  have hopen : d.tree.DeclaredBy [(d.current, .enter .program)] (d.step (.enter .program)).tree :=
    declaredBy_step ScopeTree.sound_initial (by decide)
  have hrest : (d.step (.enter .program)).tree.DeclaredBy
      ((Trail.start.step (.enter .program)).locate vs) (declareAll (.enter .program :: vs)) :=
    declaredBy_foldl Declaring.Follows.start.step hopen.sound
  have hnested := hrest.sound.toNested
  induction s using Nat.strongRecOn with
  | ind s ih =>
    by_cases hone : s = ScopeTree.programScope
    · exact hone ▸ ScopeTree.mem_chain_self
    · have hsize : (d.step (.enter .program)).tree.scopes.size ≤ s := by
        have htwo : (d.step (.enter .program)).tree.scopes.size = ScopeTree.programScope + 1 := rfl
        omega
      obtain ⟨at_, kind, he, hparent⟩ := hrest.parents s hsize hlt
      have hat : at_ < s := hnested.parent_lt s at_ hparent
      rw [hnested.chain_of_parent hparent]
      exact List.mem_cons_of_mem _ (ih at_ hat (hvs _ he) (Nat.lt_trans hat hlt))

end FlatBundle
