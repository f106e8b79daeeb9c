import FlatBundle.Proofs.Scope.Declaring
import FlatBundle.Proofs.Scope.Resolving
import FlatBundle.Proofs.Scope.Visit
import FlatBundle.Proofs.Script.Program

/-!
The names of a module and all places where they occur, read off the way through its script: a
declaration belongs to the scope that it puts its name into, and a name that is looked up is the one that
the innermost scope around it binds.
-/

namespace FlatBundle

open Script (Span)

namespace Analysis

variable {p : Script.Program} {source : String} {s b : Nat} {name : String}

theorem resolvedBy_ofProgram : ∃ r, ResolvedBy
    ⟨declareAll (visits [] p.tree), [ScopeTree.wrapperScope], ScopeTree.programScope, []⟩ p.visited r ∧
      (ofProgram p source).scopes = r.tree ∧ (ofProgram p source).calls = r.calls := by
  rw [ofProgram_eq]
  exact ⟨_, resolvedBy_resolveAll (declaredBy_declareAll _).sound, rfl, rfl⟩

theorem sound_scopes : (ofProgram p source).scopes.Sound := by
  obtain ⟨r, h, hscopes, -⟩ := @resolvedBy_ofProgram p source
  exact hscopes ▸ h.sound

theorem lt_size_of_visited (source : String) {at_ : Nat} {v : Visit} (he : (at_, v) ∈ p.visited) :
    at_ < (ofProgram p source).scopes.scopes.size := by
  obtain ⟨r, hr, hscopes, -⟩ := @resolvedBy_ofProgram p source
  rw [hscopes, hr.same.size]
  exact (declaredBy_declareAll _).places _ he

/-- The occurrences of names: the declarations first and then the lookups, each in source order. -/
theorem references_ofProgram :
    (ofProgram p source).scopes.references.toList =
      p.visited.filterMap (ofProgram p source).scopes.declared? ++
        p.visited.filterMap (ofProgram p source).scopes.referred? := by
  obtain ⟨r, h, hscopes, -⟩ := @resolvedBy_ofProgram p source
  have hdeclared := (declaredBy_declareAll (visits [] p.tree)).references
  have hsame : (declareAll (visits [] p.tree)).declared? = r.tree.declared? := by
    funext e
    obtain ⟨at_, v⟩ := e
    cases v with
    | declare => rw [ScopeTree.declared?, ScopeTree.declared?, h.same.declaringScope, h.same.bindings]
    | enter | leave | refer | call => rfl
  rw [hscopes, h.references, hdeclared, hsame]
  rfl

theorem declares_of_declared? {t : ScopeTree} {e : Nat × Visit} {r : Reference} (h : t.declared? e = some r) :
    r.declares = true := by
  obtain ⟨at_, v⟩ := e
  cases v <;> cases h
  rfl

theorem declares_of_referred? {t : ScopeTree} {e : Nat × Visit} {r : Reference} (h : t.referred? e = some r) :
    r.declares = false := by
  obtain ⟨at_, v⟩ := e
  cases v <;> cases h
  rfl

/-- The occurrences that the first way through a script adds, and those that the second one does. -/
theorem filter_declares :
    (ofProgram p source).scopes.references.toList.filter (·.declares) =
        p.visited.filterMap (ofProgram p source).scopes.declared? ∧
      (ofProgram p source).scopes.references.toList.filter (!·.declares) =
        p.visited.filterMap (ofProgram p source).scopes.referred? := by
  have hdeclared : ∀ r ∈ p.visited.filterMap (ofProgram p source).scopes.declared?, r.declares = true := by
    intro r hr
    obtain ⟨e, -, he⟩ := List.mem_filterMap.mp hr
    exact declares_of_declared? he
  have hreferred : ∀ r ∈ p.visited.filterMap (ofProgram p source).scopes.referred?, r.declares = false := by
    intro r hr
    obtain ⟨e, -, he⟩ := List.mem_filterMap.mp hr
    exact declares_of_referred? he
  rw [references_ofProgram, List.filter_append, List.filter_append, List.filter_eq_self.mpr hdeclared,
    List.filter_eq_nil_iff.mpr (by simpa using hreferred), List.filter_eq_nil_iff.mpr (by simpa using hdeclared),
    List.filter_eq_self.mpr (by simpa using hreferred), List.append_nil, List.nil_append]
  exact ⟨rfl, rfl⟩

theorem calls_ofProgram :
    (ofProgram p source).calls = p.visited.filterMap (ofProgram p source).scopes.called? := by
  obtain ⟨r, h, hscopes, hcalls⟩ := @resolvedBy_ofProgram p source
  rw [hcalls, hscopes, h.calls]
  rfl

/-- A scope binds the names that are declared in it, and the wrapper what every module receives. -/
theorem bound_ofProgram :
    (((ofProgram p source).scopes.scope s).bindings.lookup name).isSome ↔
      s = ScopeTree.wrapperScope ∧ name ∈ ScopeTree.wrapperNames ∨
        (ofProgram p source).scopes.DeclaredIn p.visited s name := by
  obtain ⟨r, h, hscopes, -⟩ := @resolvedBy_ofProgram p source
  have hbound := (declaredBy_declareAll (visits [] p.tree)).bound s name
  have hin : (declareAll (visits [] p.tree)).DeclaredIn = r.tree.DeclaredIn := by
    funext ls s name
    simp only [ScopeTree.DeclaredIn, h.same.declaringScope]
  have hinitial : ((ScopeTree.initial.scope s).bindings.lookup name).isSome ↔
      s = ScopeTree.wrapperScope ∧ name ∈ ScopeTree.wrapperNames := by
    cases s with
    | zero =>
      have hnames : (ScopeTree.initial.scope 0).bindings = ScopeTree.wrapperNames.zipIdx := rfl
      have hmem := List.mem_map (f := Prod.fst) (b := name) (l := ScopeTree.wrapperNames.zipIdx)
      rw [List.zipIdx_map_fst] at hmem
      rw [hnames, List.lookup_isSome_iff, hmem]
      simp only [ScopeTree.wrapperScope, true_and, beq_iff_eq]
      exact exists_congr fun e => and_congr_right fun _ => eq_comm
    | succ s =>
      have hnone : (ScopeTree.initial.scope (s + 1)).bindings = [] := rfl
      simp [hnone, ScopeTree.wrapperScope]
  rw [hscopes, h.same.bindings, hbound, hinitial, hin]
  rfl

/-- The names of the wrapper that no scope declares are looked up somewhere where nothing binds them,
and have bindings of their own. -/
theorem undeclared_ofProgram {e : String × Nat}
    (he : e ∈ ((ofProgram p source).scopes.scope ScopeTree.wrapperScope).undeclared) :
    (ofProgram p source).scopes.LooksUpUndeclared p.visited e.1 ∧
      ∀ s name, ((ofProgram p source).scopes.scope s).bindings.lookup name ≠ some e.2 := by
  obtain ⟨r, h, hscopes, -⟩ := @resolvedBy_ofProgram p source
  have hdeclared := declaredBy_declareAll (visits [] p.tree)
  rw [hscopes] at he ⊢
  rcases h.undeclared e he with he | ⟨hle, hlooked⟩
  · rw [hdeclared.undeclared] at he
    cases he
  · refine ⟨hlooked, fun s name hb => ?_⟩
    rw [h.same.bindings] at hb
    have hlt := (hdeclared.sound.bound s _ (ScopeTree.Sound.mem_of_lookup hb)).1
    exact absurd hle (Nat.not_le_of_lt hlt)

theorem isSome_referredBinding? (source : String) {at_ : Nat} {span : Span} {shorthand : Bool} {usage : Usage}
    (h : (at_, .refer name span shorthand usage) ∈ p.visited) :
    ((ofProgram p source).scopes.referredBinding? at_ name).isSome := by
  obtain ⟨r, hr, hscopes, -⟩ := @resolvedBy_ofProgram p source
  exact hscopes ▸ hr.noted at_ name span shorthand usage h

/-- The names that no scope declares are those that some lookup finds in no scope. -/
theorem mem_undeclaredNames_iff : name ∈ (ofProgram p source).scopes.undeclaredNames ↔
    (ofProgram p source).scopes.LooksUpUndeclared p.visited name := by
  constructor
  · intro hmem
    obtain ⟨e, he, rfl⟩ := List.mem_map.mp hmem
    exact (undeclared_ofProgram he).1
  · rintro ⟨at_, span, shorthand, usage, hvisit, hnone⟩
    obtain ⟨b, hb⟩ := Option.isSome_iff_exists.mp (isSome_referredBinding? source hvisit)
    rw [ScopeTree.referredBinding?, hnone, Option.orElse_eq_orElse, Option.orElse_none] at hb
    obtain ⟨front, back, heq, -⟩ := List.lookup_eq_some_iff.mp hb
    rw [ScopeTree.undeclaredNames, heq]
    simp

theorem not_mem_undeclaredNames (source : String) (h : name ∈ ScopeTree.wrapperNames) :
    name ∉ (ofProgram p source).scopes.undeclaredNames := by
  intro hmem
  have hbound : (((ofProgram p source).scopes.scope ScopeTree.wrapperScope).bindings.lookup
      name).isSome := bound_ofProgram.mpr (.inl ⟨rfl, h⟩)
  obtain ⟨at_, _, _, _, hvisit, hnone⟩ := mem_undeclaredNames_iff.mp hmem
  have hchain := sound_scopes.wrapper_mem_chain (lt_size_of_visited source hvisit)
  have hnone := List.findSome?_eq_none_iff.mp hnone _ hchain
  rw [hnone] at hbound
  cases hbound

end Analysis

namespace ScopeTree

/-- Where a binding is declared. -/
def declaringSpans (t : ScopeTree) (b : Nat) : List Span :=
  ((t.referencesOf b).filter (·.declares)).map (·.span)

/-- Where a binding is looked up. -/
def lookupSpans (t : ScopeTree) (b : Nat) : List Span :=
  ((t.referencesOf b).filter (!·.declares)).map (·.span)

/-- The place of a declaration of a name in a scope. -/
def declaration? (t : ScopeTree) (s : Nat) (name : String) : Nat × Visit → Option Span
  | (at_, .declare place other span _) =>
    if other = name ∧ t.declaringScope place at_ = s then some span else none
  | _ => none

/-- The place of a lookup that finds a binding. -/
def lookup? (t : ScopeTree) (b : Nat) : Nat × Visit → Option Span
  | (at_, .refer name span _ _) => if t.findBinding at_ name = some b then some span else none
  | _ => none

end ScopeTree

namespace Analysis

variable {p : Script.Program} {source : String} {s b : Nat} {name : String}

theorem declared?_of_bound {e : Nat × Visit} (he : e ∈ p.visited)
    (hb : ((ofProgram p source).scopes.scope s).bindings.lookup name = some b) :
    (((ofProgram p source).scopes.declared? e).filter (·.binding == b)).map (·.span) =
      (ofProgram p source).scopes.declaration? s name e := by
  let t := (ofProgram p source).scopes
  obtain ⟨at_, v⟩ := e
  cases v with
  | declare place other span shorthand =>
    have hin : t.DeclaredIn p.visited (t.declaringScope place at_) other :=
      ⟨at_, place, span, shorthand, he, rfl⟩
    obtain ⟨c, hc⟩ := Option.isSome_iff_exists.mp (bound_ofProgram.mpr (.inr hin))
    have hiff : c = b ↔ other = name ∧ t.declaringScope place at_ = s := by
      constructor
      · rintro rfl
        obtain ⟨hs, hname⟩ := sound_scopes.eq_of_lookup hc hb
        exact ⟨hname, hs⟩
      · rintro ⟨rfl, rfl⟩
        exact Option.some.inj (hc.symm.trans hb)
    rw [ScopeTree.declared?, ScopeTree.declaration?, hc, Option.filter_some]
    by_cases hcb : c = b
    · rw [if_pos (hiff.mp hcb)]
      simp [hcb]
    · rw [if_neg (mt hiff.mpr hcb)]
      simp [hcb]
  | enter | leave | refer | call => rfl

theorem referred?_of_bound {e : Nat × Visit} (he : e ∈ p.visited)
    (hb : ((ofProgram p source).scopes.scope s).bindings.lookup name = some b) :
    (((ofProgram p source).scopes.referred? e).filter (·.binding == b)).map (·.span) =
      (ofProgram p source).scopes.lookup? b e := by
  let t := (ofProgram p source).scopes
  obtain ⟨at_, v⟩ := e
  cases v with
  | refer other span shorthand usage =>
    rw [ScopeTree.referred?, ScopeTree.lookup?, Option.filter_some]
    cases hfind : t.findBinding at_ other with
    | some c =>
      rw [ScopeTree.referredBinding?, hfind]
      by_cases hcb : c = b <;> simp [hcb]
    | none =>
      obtain ⟨c, hc⟩ := Option.isSome_iff_exists.mp (isSome_referredBinding? source he)
      have hmem : (other, c) ∈ (t.scope ScopeTree.wrapperScope).undeclared := by
        have hlookup := hc
        rw [ScopeTree.referredBinding?, hfind] at hlookup
        obtain ⟨front, back, heq, -⟩ := List.lookup_eq_some_iff.mp hlookup
        rw [heq]
        simp
      -- a name that no scope declares has a binding too, but one that no scope binds
      have hne : c ≠ b := by
        rintro rfl
        exact (undeclared_ofProgram hmem).2 s name hb
      rw [hc]
      simp [hne]
  | enter | leave | declare | call => rfl

/-- The occurrences of what a scope binds are the declarations of the name in the scope, and the
lookups that find it. -/
theorem occurrences_of_bound
    (hb : ((ofProgram p source).scopes.scope s).bindings.lookup name = some b) :
    (ofProgram p source).scopes.declaringSpans b =
      p.visited.filterMap ((ofProgram p source).scopes.declaration? s name) ∧
    (ofProgram p source).scopes.lookupSpans b =
      p.visited.filterMap ((ofProgram p source).scopes.lookup? b) := by
  let t := (ofProgram p source).scopes
  let declaring := (p.visited.filterMap t.declared?).filter (·.binding == b)
  let referring := (p.visited.filterMap t.referred?).filter (·.binding == b)
  have hall : t.referencesOf b = declaring ++ referring := by
    have hreferences : t.references.toList = _ := references_ofProgram
    rw [sound_scopes.referencesOf_eq, hreferences, List.filter_append]
  have hdeclares : ∀ r ∈ declaring, r.declares = true := by
    intro r hr
    obtain ⟨e, -, he⟩ := List.mem_filterMap.mp (List.mem_filter.mp hr).1
    exact declares_of_declared? he
  have hrefers : ∀ r ∈ referring, r.declares = false := by
    intro r hr
    obtain ⟨e, -, he⟩ := List.mem_filterMap.mp (List.mem_filter.mp hr).1
    exact declares_of_referred? he
  have hfirst : (t.referencesOf b).filter (·.declares) = declaring := by
    rw [hall, List.filter_append, List.filter_eq_self.mpr hdeclares,
      List.filter_eq_nil_iff.mpr (by simpa using hrefers), List.append_nil]
  have hsecond : (t.referencesOf b).filter (!·.declares) = referring := by
    rw [hall, List.filter_append, List.filter_eq_nil_iff.mpr (by simpa using hdeclares),
      List.filter_eq_self.mpr (by simpa using hrefers), List.nil_append]
  constructor
  · rw [ScopeTree.declaringSpans, hfirst]
    simp only [declaring, List.filter_filterMap, List.map_filterMap]
    exact List.filterMap_congr fun e he => declared?_of_bound he hb
  · rw [ScopeTree.lookupSpans, hsecond]
    simp only [referring, List.filter_filterMap, List.map_filterMap]
    exact List.filterMap_congr fun e he => referred?_of_bound he hb

end Analysis

namespace Analysis

variable {p : Script.Program} {source : String} {at_ b : Nat} {v : Visit}

/-- Whatever happens in a script, but for the opening of scopes, happens inside of its program. -/
theorem programScope_mem_chain (source : String) (hp : p.tree.kind = .program) (he : (at_, v) ∈ p.visited)
    (hv : ∀ kind, v ≠ .enter kind) :
    ScopeTree.programScope ∈ (ofProgram p source).scopes.chain at_ := by
  obtain ⟨r, hr, hscopes, -⟩ := @resolvedBy_ofProgram p source
  obtain ⟨vs, hvisits, hplaces⟩ := p.exists_visits hp
  have hlt : at_ < (declareAll (visits [] p.tree)).scopes.size := (declaredBy_declareAll _).places _ he
  have hat : ScopeTree.programScope ≤ at_ := by
    rw [Script.Program.visited, hvisits, Trail.locate] at he
    rcases List.mem_cons.mp he with heq | he
    · exact absurd (Prod.mk.inj heq).2 (hv _)
    · exact hplaces _ he
  rw [hscopes, hr.same.chain]
  rw [hvisits] at hlt ⊢
  exact FlatBundle.programScope_mem_chain hplaces hat hlt

/-- A program that declares a name of its own hides what the wrapper calls so. -/
theorem findBinding_ne_of_declared {name : String} (hp : p.tree.kind = .program)
    (he : (at_, v) ∈ p.visited) (hv : ∀ kind, v ≠ .enter kind)
    (hown : ((ofProgram p source).scopes.scope ScopeTree.programScope).bindings.lookup name ≠ none)
    (hb : ((ofProgram p source).scopes.scope ScopeTree.wrapperScope).bindings.lookup name = some b) :
    (ofProgram p source).scopes.findBinding at_ name ≠ some b := by
  intro hfind
  obtain ⟨inner, owner, outer, hchain, howner, hinner⟩ := ScopeTree.findBinding_eq_some_iff.mp hfind
  obtain ⟨rfl, -⟩ := sound_scopes.eq_of_lookup hb howner
  have hmem := programScope_mem_chain source hp he hv
  have hsound : (ofProgram p source).scopes.Sound := sound_scopes
  exact hown (hinner _ (hsound.mem_inner hchain hmem (by decide)))

/-- What every module receives keeps its bindings. -/
theorem lookup_wrapper {name : String}
    (h : (ScopeTree.initial.scope ScopeTree.wrapperScope).bindings.lookup name = some b) :
    ((ofProgram p source).scopes.scope ScopeTree.wrapperScope).bindings.lookup name = some b := by
  obtain ⟨r, hr, hscopes, -⟩ := @resolvedBy_ofProgram p source
  rw [hscopes, hr.same.bindings]
  exact (declaredBy_declareAll _).grown.lookup (by decide) h

theorem lookup_require : ((ofProgram p source).scopes.scope ScopeTree.wrapperScope).bindings.lookup
    "require" = some ScopeTree.requireBinding :=
  lookup_wrapper rfl

/-- A module that declares `require` at its top level calls for no other module. -/
theorem calls_of_declared_require (hp : p.tree.kind = .program)
    (hown : ((ofProgram p source).scopes.scope ScopeTree.programScope).bindings.lookup "require" ≠
      none) : (ofProgram p source).calls = [] := by
  rw [calls_ofProgram]
  refine List.filterMap_eq_nil_iff.mpr fun e he => ?_
  obtain ⟨at_, v⟩ := e
  cases v with
  | call site =>
    have hne := findBinding_ne_of_declared hp he nofun hown lookup_require
    rw [ScopeTree.called?, if_neg hne]
  | enter | leave | declare | refer => rfl

theorem isIdentifierName_of_bound (source : String) {text : List Char} {s : Nat} {name : String}
    (hp : p.Spanned text) (hs : s ≠ ScopeTree.wrapperScope)
    (hb : ((ofProgram p source).scopes.scope s).bindings.lookup name ≠ none) :
    Text.isIdentifierName name.toList := by
  have hbound := bound_ofProgram.mp (Option.isSome_iff_ne_none.mpr hb)
  obtain ⟨at_, place, span, shorthand, he, -⟩ := hbound.resolve_left fun h => hs h.1
  have hv : Visit.declare place name span shorthand ∈ visits [] p.tree := Trail.mem_of_mem_locate he
  obtain ⟨children, hsite⟩ := placed_visits [] nofun p.tree (fun _ hm => hm) _ hv
  obtain ⟨lo, hi, hlaid⟩ := hp.laidOut
  exact (hlaid.site_of_siteIn hsite).identifier

end Analysis

end FlatBundle
