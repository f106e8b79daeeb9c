import FlatBundle.Proofs.Scope.NameSpans
import Mathlib.Data.List.Forall2

/-!
The names that a script looks up, one by one: what each of them means, and which of them no scope declares.
-/

namespace FlatBundle

open Script (Span Node Kind)

/-- A name that is looked up in a scope. -/
structure Lookup where
  scope : Nat
  name : String
  span : Span
deriving DecidableEq, Repr

def Lookup.ofVisit? : Nat × Visit → Option Lookup
  | (at_, .refer name span _ _) => some ⟨at_, name, span⟩
  | _ => none

/-- The lookups on the way through a script. -/
def Script.Program.lookups (p : Script.Program) : List Lookup :=
  p.visited.filterMap Lookup.ofVisit?

namespace Script

/-- The name that a node stands for. -/
def Kind.reference? : Kind → Option String
  | .reference name => some name
  | _ => none

mutual

/-- The names in a node that stand for something, with their places, in the order of the script. -/
def Node.references : Node → List (String × Span)
  | .mk kind span children => kind.reference?.toList.map (·, span) ++ referencesOfAll children

def referencesOfAll : List Node → List (String × Span)
  | [] => []
  | n :: rest => n.references ++ referencesOfAll rest

end

end Script

open Script (referencesOfAll)

section Visits

variable {path : Path} {n : Node} {vs ws : List Visit}

/-- The name that a visit looks up. -/
def Visit.reference? : Visit → Option (String × Span)
  | .refer name span _ _ => some (name, span)
  | _ => none

theorem references_ownNameVisits {place : DeclarationPlace} :
    (ownNameVisits place n).filterMap Visit.reference? = [] := by
  unfold ownNameVisits
  cases ownName? n <;> rfl

theorem references_entering :
    (entering path n).filterMap Visit.reference? = n.kind.reference?.toList.map (·, n.span) := by
  have hbefore {place : DeclarationPlace} {scope : ScopeKind} :
      (ownNameVisits place n ++ [Visit.enter scope]).filterMap Visit.reference? = [] := by
    rw [List.filterMap_append, references_ownNameVisits]
    rfl
  have hafter {place : DeclarationPlace} {scope : ScopeKind} :
      (Visit.enter scope :: ownNameVisits place n).filterMap Visit.reference? = [] :=
    references_ownNameVisits
  unfold entering
  split
  case h_1 hk => rw [hk]; exact hbefore
  case h_2 hk => rw [hk]; exact hafter
  case h_3 hk => rw [hk]; exact hbefore
  case h_4 hk => rw [hk]; exact hafter
  case h_5 hk =>
    rw [hk]
    split <;> rfl
  case h_6 hk => rw [hk]; rfl
  case h_7 hk =>
    rw [hk]
    cases callSite? path n <;> rfl
  case h_8 hname _ =>
    have hnone : n.kind.reference? = none := by
      unfold Kind.reference?
      split
      next name hk => exact absurd hk (hname name)
      · rfl
    rw [hnone]
    cases scopeKind? n.kind <;> rfl

theorem references_leaving : (leaving n).filterMap Visit.reference? = [] := by
  unfold leaving
  cases scopeKind? n.kind <;> rfl

mutual

/-- The way through a node looks up the names in it, each one once and in their order. -/
theorem references_visits (path : Path) :
    (n : Node) → (visits path n).filterMap Visit.reference? = n.references
  | .mk kind span children => by
    have hchildren := references_childVisits path (.mk kind span children) 0 children
    rw [visits, List.filterMap_append, List.filterMap_append, references_entering, references_leaving, hchildren,
      List.append_nil]
    rfl

theorem references_childVisits (path : Path) (parent : Node) (position : Nat) :
    (ns : List Node) → (childVisits path parent position ns).filterMap Visit.reference? = referencesOfAll ns
  | [] => rfl
  | n :: rest => by
    rw [childVisits, List.filterMap_append, references_visits, references_childVisits, referencesOfAll]

end

/-- A script looks up each name in it that stands for something, once and in their order. -/
theorem map_lookups (p : Script.Program) :
    p.lookups.map (fun l => (l.name, l.span)) = p.tree.references := by
  have hvisit : ∀ e : Nat × Visit, (Lookup.ofVisit? e).map (fun l => (l.name, l.span)) = e.2.reference? := by
    rintro ⟨at_, v⟩
    cases v <;> rfl
  rw [Script.Program.lookups, List.map_filterMap, List.filterMap_congr fun e _ => hvisit e]
  rw [← references_visits, ← Trail.map_locate .start (visits [] p.tree), List.filterMap_map]
  rfl

end Visits

namespace ScopeTree

variable {t : ScopeTree} {ls : List (Nat × Visit)} {s b : Nat} {name : String}

instance : Decidable (t.DeclaredIn ls s name) :=
  decidable_of_iff (∃ e ∈ ls, (t.declaration? s name e).isSome) (by
    constructor
    · rintro ⟨⟨at_, v⟩, he, hv⟩
      cases v with
      | declare place other span shorthand =>
        obtain ⟨rfl, hs⟩ : other = name ∧ t.declaringScope place at_ = s := by
          simpa [declaration?] using hv
        exact ⟨at_, place, span, shorthand, he, hs⟩
      | enter | leave | refer | call => cases hv
    · rintro ⟨at_, place, span, shorthand, he, hs⟩
      exact ⟨_, he, by simp [declaration?, hs]⟩)

/-- A scope has a name: some declaration, wherever it is, puts the name there, or every module receives it. -/
def Has (t : ScopeTree) (ls : List (Nat × Visit)) (s : Nat) (name : String) : Prop :=
  s = wrapperScope ∧ name ∈ wrapperNames ∨ t.DeclaredIn ls s name

instance : Decidable (t.Has ls s name) :=
  inferInstanceAs (Decidable (_ ∨ _))

/-- No scope around has a name. -/
def Lacks (t : ScopeTree) (ls : List (Nat × Visit)) (s : Nat) (name : String) : Prop :=
  ∀ a ∈ t.chain s, ¬t.Has ls a name

instance : Decidable (t.Lacks ls s name) :=
  inferInstanceAs (Decidable (∀ a ∈ t.chain s, ¬t.Has ls a name))

/-- What a name means in a scope: what the innermost scope around that has it binds or, if there is none, the
only binding of this name among those that no scope declares. -/
inductive Means (t : ScopeTree) (ls : List (Nat × Visit)) (s : Nat) (name : String) (b : Nat) : Prop
  | declared {inner outer : List Nat} {owner : Nat} (around : t.chain s = inner ++ owner :: outer)
    (innermost : ∀ a ∈ inner, ¬t.Has ls a name) (has : t.Has ls owner name)
    (bound : (t.scope owner).bindings.lookup name = some b)
  | undeclared (lacks : t.Lacks ls s name)
    (only : (t.scope wrapperScope).undeclared.filter (·.1 == name) = [(name, b)])

end ScopeTree

/-- In a list without repeated keys, a key has one entry. -/
theorem filter_eq_singleton_of_lookup {xs : List (String × Nat)} {name : String} {b : Nat}
    (hnodup : (xs.map Prod.fst).Nodup) (h : xs.lookup name = some b) :
    xs.filter (·.1 == name) = [(name, b)] := by
  obtain ⟨front, back, rfl, hfront⟩ := List.lookup_eq_some_iff.mp h
  rw [List.map_append, List.map_cons, List.nodup_append, List.nodup_cons] at hnodup
  have hback : ∀ e ∈ back, e.1 ≠ name := by
    intro e he heq
    exact hnodup.2.1.1 (List.mem_map.mpr ⟨e, he, heq⟩)
  rw [List.filter_append, List.filter_cons_of_pos (by simp),
    List.filter_eq_nil_iff.mpr fun e he => by simpa using (bne_iff_ne.mp (hfront e he)).symm,
    List.filter_eq_nil_iff.mpr fun e he => by simpa using hback e he, List.nil_append]

namespace Analysis

variable {p : Script.Program} {source : String} {s : Nat} {name : String}

theorem has_iff_isSome_lookup : (ofProgram p source).scopes.Has p.visited s name ↔
    (((ofProgram p source).scopes.scope s).bindings.lookup name).isSome :=
  bound_ofProgram.symm

theorem not_has_iff : ¬(ofProgram p source).scopes.Has p.visited s name ↔
    ((ofProgram p source).scopes.scope s).bindings.lookup name = none := by
  rw [has_iff_isSome_lookup, Option.not_isSome_iff_eq_none]

theorem findBinding_eq_none_iff : (ofProgram p source).scopes.findBinding s name = none ↔
    (ofProgram p source).scopes.Lacks p.visited s name := by
  rw [ScopeTree.findBinding, List.findSome?_eq_none_iff]
  simp only [ScopeTree.Lacks, not_has_iff]

/-- The names that no scope declares are listed as they are looked up first. -/
theorem undeclaredNames_eq : (ofProgram p source).scopes.undeclaredNames =
    firstOccurrences (p.visited.filterMap (ofProgram p source).scopes.unresolved?) := by
  obtain ⟨r, hr, hscopes, -⟩ := @resolvedBy_ofProgram p source
  have hfirst : (declareAll (visits [] p.tree)).undeclaredNames = firstOccurrences [] := by
    rw [ScopeTree.undeclaredNames, (declaredBy_declareAll _).undeclared]
    rfl
  exact hscopes ▸ hr.unresolved [] hfirst

theorem means_of_refer {span : Span} {shorthand : Bool} {usage : Usage} (source : String)
    (h : (s, .refer name span shorthand usage) ∈ p.visited) : (ofProgram p source).scopes.Means p.visited s name
      (((ofProgram p source).scopes.referredBinding? s name).getD default) := by
  cases hfind : (ofProgram p source).scopes.findBinding s name with
  | some b =>
    obtain ⟨inner, owner, outer, haround, howner, hinner⟩ := ScopeTree.findBinding_eq_some_iff.mp hfind
    rw [ScopeTree.referredBinding?, hfind]
    exact .declared haround (fun a ha => not_has_iff.mpr (hinner a ha))
      (has_iff_isSome_lookup.mpr (howner ▸ rfl)) howner
  | none =>
    obtain ⟨b, hb⟩ := Option.isSome_iff_exists.mp (isSome_referredBinding? source h)
    rw [hb]
    rw [ScopeTree.referredBinding?, hfind, Option.orElse_eq_orElse, Option.orElse_none] at hb
    have hnodup : (ofProgram p source).scopes.undeclaredNames.Nodup := by
      rw [undeclaredNames_eq]
      exact (pairwise_firstOccurrences _).imp fun h heq => absurd (heq ▸ h) (Nat.lt_irrefl _)
    exact .undeclared (findBinding_eq_none_iff.mp hfind) (filter_eq_singleton_of_lookup hnodup hb)

/-- Each name in a script that stands for something is recorded once, in the order of the script, with what the
innermost scope around it declares. Those that no scope declares are listed as they come first. -/
theorem lookups_ofProgram (p : Script.Program) (source : String) :
    p.lookups.map (fun l => (l.name, l.span)) = p.tree.references ∧
    List.Forall₂ (fun l r => r.span = l.span ∧ r.scope = l.scope ∧
        ScopeTree.wrapperScope ∈ (ofProgram p source).scopes.chain l.scope ∧
        (ofProgram p source).scopes.Means p.visited l.scope l.name r.binding)
      p.lookups ((ofProgram p source).scopes.references.toList.filter (!·.declares)) ∧
    (ofProgram p source).scopes.undeclaredNames = firstOccurrences ((p.lookups.filter fun l =>
      decide ((ofProgram p source).scopes.Lacks p.visited l.scope l.name)).map Lookup.name) := by
  refine ⟨map_lookups p, ?_, ?_⟩
  · have hvisited : List.Forall₂ (fun e e' => e = e' ∧ e ∈ p.visited) p.visited p.visited :=
      List.forall₂_same.mpr fun e he => ⟨rfl, he⟩
    rw [filter_declares.2, Script.Program.lookups]
    refine List.rel_filterMap ?_ hvisited
    rintro ⟨at_, v⟩ _ ⟨rfl, he⟩
    cases v with
    | refer name span shorthand usage =>
      exact .some ⟨rfl, rfl, sound_scopes.wrapper_mem_chain (lt_size_of_visited source he),
        means_of_refer source he⟩
    | enter | leave | declare | call => exact .none
  · have hname : ∀ e : Nat × Visit, (ofProgram p source).scopes.unresolved? e =
        ((Lookup.ofVisit? e).filter fun l =>
          decide ((ofProgram p source).scopes.Lacks p.visited l.scope l.name)).map Lookup.name := by
      rintro ⟨at_, v⟩
      cases v with
      | refer name span shorthand usage =>
        rw [ScopeTree.unresolved?, Lookup.ofVisit?, Option.filter_some]
        by_cases hlacks : (ofProgram p source).scopes.Lacks p.visited at_ name
        · rw [if_pos (findBinding_eq_none_iff.mpr hlacks), if_pos (decide_eq_true hlacks)]
          rfl
        · rw [if_neg (mt findBinding_eq_none_iff.mp hlacks), if_neg (by simpa using hlacks)]
          rfl
      | enter | leave | declare | call => rfl
    rw [undeclaredNames_eq, Script.Program.lookups, List.filter_filterMap, List.map_filterMap]
    simp only [hname]

end Analysis

end FlatBundle
