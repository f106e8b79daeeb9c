import FlatBundle.Proofs.Scope.Spots
import FlatBundle.Proofs.Script.FormedProgram

/-!
Where the names of a script are declared, and which scopes they belong to.
-/

namespace FlatBundle

open Script (Span Node Kind Formed)

/-- What declares a name. -/
inductive Declarer
  | var
  | lexical
  | parameter
  | catchParameter
  | importName
  | functionDeclaration
  | functionExpression
  | classDeclaration
  | classExpression
deriving DecidableEq, Repr

/-- The kind of the scope that opens just for what declares a name. -/
def Declarer.scope? : Declarer → Option ScopeKind
  | .parameter | .functionExpression => some .function
  | .catchParameter => some .catch
  | .classExpression => some .classBody
  | .var | .lexical | .importName | .functionDeclaration | .classDeclaration => none

/-- The scopes of which the innermost one is due to have the name. -/
def Declarer.takes : Declarer → ScopeKind → Bool
  | .var, kind | .functionDeclaration, kind => kind.holdsVars
  | .lexical, _ | .importName, _ | .classDeclaration, _ => true
  | declarer, kind => declarer.scope? == some kind

/-- What declares a name in a pattern, which a path leads to. -/
def declarer? : Path → Option Declarer
  | [] => none
  | f :: outer =>
    match f.node.kind with
    | .declarator .var => some .var
    | .declarator .lexical => some .lexical
    | .parameters => some .parameter
    | .catchParameter => some .catchParameter
    | .importDeclaration => some .importName
    | .arrayPattern | .objectPattern | .patternMember _ | .patternDefault | .patternRest => declarer? outer
    | _ => none

/-- A declared name, with the scopes around it from the inside out. -/
structure Declaration where
  name : String
  span : Span
  declarer : Declarer
  path : Path
  scopes : List (Nat × ScopeKind)

/-- The own name of a function or class. -/
def Spot.ownDeclaration? (e : Spot) (declarer : Declarer) (scopes : List (Nat × ScopeKind)) :
    Option Declaration :=
  (ownName? e.node).map fun (name, span) => ⟨name, span, declarer, e.path, scopes⟩

/-- What is declared at a spot. The names of functions and classes that are values stand in their own scopes. -/
def Spot.declaration? (e : Spot) : Option Declaration :=
  match e.node.kind with
  | .binding name =>
    if isOwnName e.path then none
    else (declarer? e.path).map fun declarer => ⟨name, e.node.span, declarer, e.path, e.scopes⟩
  | .function .declaration _ _ _ => e.ownDeclaration? .functionDeclaration e.scopes
  | .function .expression _ _ _ => e.ownDeclaration? .functionExpression e.inside
  | .classDef .declaration _ => e.ownDeclaration? .classDeclaration e.scopes
  | .classDef .expression _ => e.ownDeclaration? .classExpression e.inside
  | _ => none

/-- All declarations of a script, in the order of the way through it. -/
def Script.Program.declarations (p : Script.Program) : List Declaration :=
  p.spots.filterMap Spot.declaration?

namespace Declaration

def current (d : Declaration) : Nat :=
  (d.scopes.map Prod.fst).headD ScopeTree.wrapperScope

/-- The innermost scope of some kinds. -/
def nearest (d : Declaration) (takes : ScopeKind → Bool) : Nat :=
  ((d.scopes.find? fun o => takes o.2).map Prod.fst).getD ScopeTree.wrapperScope

/-- The scope that the name belongs to by what declares it. -/
def owner (d : Declaration) : Nat :=
  d.nearest d.declarer.takes

/-- The name belongs to the scope of the script: variables and functions outside of all functions and static
blocks, and what else is declared in that scope itself. -/
def isTop (d : Declaration) : Bool :=
  match d.declarer with
  | .var | .functionDeclaration => d.scopes.all fun o => o.2 != .function && o.2 != .staticBlock
  | .lexical | .importName | .classDeclaration => d.scopes.head?.any (·.2 == .program)
  | .parameter | .catchParameter | .functionExpression | .classExpression => false

/-- How the name is declared. An import counts as what it is in the middle of. -/
def place (d : Declaration) : DeclarationPlace :=
  match d.declarer with
  | .var | .functionDeclaration => .variable
  | .importName => declarationPlace d.path
  | .lexical | .classDeclaration => .here
  | .parameter | .catchParameter | .functionExpression | .classExpression => .here

/-- The scope that gets the name. -/
def holder (d : Declaration) : Nat :=
  match d.place with
  | .variable => d.nearest ScopeKind.holdsVars
  | .here => d.current

/-- An import that stands in the value of a variable, in a scope there that holds no variables. -/
def IsStray (d : Declaration) : Prop :=
  d.declarer = .importName ∧ declarationPlace d.path = .variable ∧ d.scopes.head?.all (!·.2.holdsVars)

instance {d : Declaration} : Decidable d.IsStray :=
  inferInstanceAs (Decidable (_ ∧ _ ∧ _))

end Declaration

/-- The script binds the names that belong to its own scope, as they are declared first, and each declaration is
an occurrence of what the scope that it belongs to binds. -/
def Script.Program.BindsByRules (p : Script.Program) (t : ScopeTree) : Prop :=
  t.programBindings.map Prod.fst =
      firstOccurrences ((p.declarations.filter (·.isTop)).map Declaration.name) ∧
    (t.references.toList.filter (·.declares)).map (fun r => (r.span, some r.binding)) =
      p.declarations.map fun d => (d.span, (t.scope d.owner).bindings.lookup d.name)

instance {p : Script.Program} {t : ScopeTree} : Decidable (p.BindsByRules t) :=
  inferInstanceAs (Decidable (_ ∧ _))

variable {root n : Node} {path : Path} {e : Spot} {d : Declaration} {t : ScopeTree}

section Patterns

theorem holds_of_admits {kind inner : Kind} (h : kind.admits inner) (hpart : inner.isPatternPart) :
    kind.holdsPatterns ∨ kind.holdsNames ∧ inner.name?.isSome := by
  cases inner with
  | binding name => exact (Bool.or_eq_true_iff.mp h).imp_right fun hnames => ⟨hnames, rfl⟩
  | arrayPattern | objectPattern | patternMember | patternDefault | patternRest => exact .inl h
  | _ => cases hpart

/-- A part of a pattern stands where something declares the names in it, or else is the own name of a function or
class. -/
theorem isSome_declarer? (hroot : Formed root) (hprogram : root.kind = .program) (h : PathTo root path n)
    (hn : n.kind.isPatternPart) : (declarer? path).isSome ∨ n.kind.name?.isSome ∧ isOwnName path := by
  induction h with
  | root =>
    rw [hprogram] at hn
    cases hn
  | @child outer parent n k houter hk ih =>
    have hadmits := (houter.formed hroot).admits (List.mem_of_getElem? hk)
    have hholds := holds_of_admits hadmits hn
    obtain ⟨kind, span, children⟩ := parent
    cases kind with
    | declarator kind => cases kind <;> exact .inl rfl
    | parameters | catchParameter | importDeclaration => exact .inl rfl
    | arrayPattern | objectPattern | patternMember | patternDefault | patternRest =>
      -- what declares a part of a pattern declares the names in it
      exact .inl ((ih rfl).resolve_right fun ⟨hname, _⟩ => nomatch hname)
    | function | classDef => exact hholds.elim nofun fun ⟨_, hname⟩ => .inr ⟨hname, rfl⟩
    | _ => exact hholds.elim nofun fun ⟨hnames, _⟩ => nomatch hnames

theorem declarationPlace_of_declarer? {declarer : Declarer} (h : declarer? path = some declarer) :
    declarationPlace path = .variable ∧ declarer = .var ∨ declarer = .importName ∨
      declarationPlace path = .here ∧ (declarer = .lexical ∨ declarer = .parameter ∨ declarer = .catchParameter) := by
  induction path with
  | nil => cases h
  | cons f outer ih =>
    obtain ⟨⟨kind, span, children⟩, k⟩ := f
    cases kind with
    | declarator kind =>
      cases kind with
      | var => cases h; exact .inl ⟨rfl, rfl⟩
      | lexical => cases h; exact .inr (.inr ⟨rfl, .inl rfl⟩)
    | parameters => cases h; exact .inr (.inr ⟨rfl, .inr (.inl rfl)⟩)
    | catchParameter => cases h; exact .inr (.inr ⟨rfl, .inr (.inr rfl)⟩)
    | importDeclaration => cases h; exact .inr (.inl rfl)
    | arrayPattern | objectPattern | patternMember | patternDefault | patternRest => exact ih h
    | _ => cases h

end Patterns

section Scopes

/-- The kind of the scope that opens around parameters. -/
def paramScope? : Kind → Option ScopeKind
  | .parameters => some .function
  | .catchParameter => some .catch
  | _ => none

theorem scopeKind?_of_admits {kind inner : Kind} {opened : ScopeKind} (h : kind.admits inner)
    (hinner : paramScope? inner = some opened) : scopeKind? kind = some opened := by
  cases inner <;> cases hinner
  case parameters =>
    have hfunction : kind.isFunction := h
    cases kind <;> first | rfl | cases hfunction
  case catchParameter =>
    have hcatch : kind.isCatchClause := h
    cases kind <;> first | rfl | cases hcatch

/-- Parameters stand in the scope that opens around them. -/
theorem Script.Program.scopes_of_param {p : Script.Program} {opened : ScopeKind} (hp : p.tree.kind = .program)
    (hformed : Formed p.tree) (he : e ∈ p.spots)
    (h : (declarer? e.path).bind Declarer.scope? = some opened) :
    ∃ s outer, e.scopes = (s, opened) :: outer := by
  -- the patterns between the parameters and a name open no scope, so that the parts of a pattern pass it on
  let motive (e : Spot) : Prop := ∀ opened, paramScope? e.node.kind = some opened ∨
    (declarer? e.path).bind Declarer.scope? = some opened → ∃ s outer, e.scopes = (s, opened) :: outer
  have hmotive : motive e := by
    refine forall_spots (motive := motive) (fun opened h => ?_) (fun e he ih k m next hk _ opened h => ?_) e he
    · rw [hp] at h
      exact h.elim nofun nofun
    · rcases h with hm | hpath
      · have hadmits := ((p.pathTo_of_mem_spots he).formed hformed).admits (List.mem_of_getElem? hk)
        refine ⟨e.next, e.scopes, ?_⟩
        rw [Spot.inside, scopesIn, scopeKind?_of_admits hadmits hm]
        rfl
      · have ih := ih opened
        obtain ⟨path, ⟨kind, span, children⟩, scopes, next'⟩ := e
        cases kind with
        | arrayPattern | objectPattern | patternMember | patternDefault | patternRest => exact ih (.inr hpath)
        | parameters | catchParameter => exact ih (.inl hpath)
        | declarator kind => cases kind <;> cases hpath
        | _ => cases hpath
  exact hmotive opened (.inr h)

end Scopes

section Visits

/-- What happens is that a name is declared. -/
def Visit.isDeclare : Visit → Bool
  | .declare _ _ _ _ => true
  | _ => false

variable {β : Type} {f : Nat × Visit → Option β} {g : Declaration → Option β} {declarer : Declarer} {kind : ScopeKind}
  {scopes : List (Nat × ScopeKind)} {place : DeclarationPlace}

theorem filterMap_ownNameVisits {tr : Trail} (hg : ∀ name span shorthand,
      f (tr.current, .declare place name span shorthand) = g ⟨name, span, declarer, e.path, scopes⟩) :
    (tr.locate (ownNameVisits place e.node)).filterMap f =
      (e.ownDeclaration? declarer scopes).toList.filterMap g := by
  unfold ownNameVisits Spot.ownDeclaration?
  cases ownName? e.node with
  | none => rfl
  | some own =>
    obtain ⟨name, span⟩ := own
    rw [Trail.locate, Trail.locate, Option.map_some, Option.toList_some, List.filterMap_cons, List.filterMap_cons,
      hg name span false]
    rfl

variable (hf : ∀ at_ v, Visit.isDeclare v = false → f (at_, v) = none)
  (hg : ∀ d shorthand, f (d.current, .declare d.place d.name d.span shorthand) = g d)
include hf hg

theorem filterMap_nameBefore
    (hplace : ∀ name span, Declaration.place ⟨name, span, declarer, e.path, e.scopes⟩ = place) :
    (e.trail.locate (ownNameVisits place e.node ++ [.enter kind])).filterMap f =
      (e.ownDeclaration? declarer e.scopes).toList.filterMap g := by
  have hname (name : String) (span : Span) (shorthand : Bool) :
      f (e.trail.current, .declare place name span shorthand) = g ⟨name, span, declarer, e.path, e.scopes⟩ := by
    rw [← hplace name span]
    exact hg ⟨name, span, declarer, e.path, e.scopes⟩ shorthand
  rw [Trail.locate_append, List.filterMap_append, filterMap_ownNameVisits hname, Trail.locate, Trail.locate,
    List.filterMap_cons_none (hf _ (.enter kind) rfl), List.filterMap_nil, List.append_nil]

theorem filterMap_nameAfter (hkind : scopeKind? e.node.kind = some kind)
    (hplace : ∀ name span, Declaration.place ⟨name, span, declarer, e.path, e.inside⟩ = .here) :
    (e.trail.locate (.enter kind :: ownNameVisits .here e.node)).filterMap f =
      (e.ownDeclaration? declarer e.inside).toList.filterMap g := by
  have hcurrent : (e.trail.step (.enter kind)).current = (e.inside.map Prod.fst).headD ScopeTree.wrapperScope := by
    rw [Spot.inside, scopesIn, hkind]
    rfl
  rw [Trail.locate, List.filterMap_cons_none (hf _ (.enter kind) rfl)]
  refine filterMap_ownNameVisits fun name span shorthand => ?_
  rw [hcurrent, ← hplace name span]
  exact hg ⟨name, span, declarer, e.path, e.inside⟩ shorthand

/-- What is declared on entering a spot is its declaration. -/
theorem Spot.filterMap_located
    (hdeclarer : ∀ name, e.node.kind = .binding name → (declarer? e.path).isSome ∨ isOwnName e.path) :
    e.located.filterMap f = e.declaration?.toList.filterMap g := by
  unfold Spot.located entering Spot.declaration?
  split
  case h_1 hk =>
    rw [hk]
    exact filterMap_nameBefore hf hg fun _ _ => rfl
  case h_2 hk =>
    rw [hk]
    exact filterMap_nameAfter hf hg (by rw [hk]; rfl) fun _ _ => rfl
  case h_3 hk =>
    rw [hk]
    exact filterMap_nameBefore hf hg fun _ _ => rfl
  case h_4 hk =>
    rw [hk]
    exact filterMap_nameAfter hf hg (by rw [hk]; rfl) fun _ _ => rfl
  case h_5 name hk =>
    rw [hk]
    dsimp only
    split
    next => rfl
    next hnot =>
      obtain ⟨declarer, hd⟩ := Option.isSome_iff_exists.mp ((hdeclarer name hk).resolve_right hnot)
      let d : Declaration := ⟨name, e.node.span, declarer, e.path, e.scopes⟩
      have hplace : declarationPlace e.path = d.place := by
        rcases declarationPlace_of_declarer? hd with ⟨hp, rfl⟩ | rfl | ⟨hp, rfl | rfl | rfl⟩
        · exact hp
        · rfl
        · exact hp
        · exact hp
        · exact hp
      have hvisit : f (e.trail.current, .declare d.place name e.node.span (isShorthandBinding e.path)) = g d :=
        hg d _
      rw [hd, hplace, Trail.locate, Trail.locate, List.filterMap_cons, hvisit]
      rfl
  case h_6 hk =>
    rw [hk]
    exact List.filterMap_cons_none (hf _ _ rfl)
  case h_7 hk =>
    rw [hk]
    cases callSite? e.path e.node with
    | none => rfl
    | some site => exact List.filterMap_cons_none (hf _ _ rfl)
  case h_8 hfd hfe hcd hce hb hr hc =>
    have hentering : (e.trail.locate ((scopeKind? e.node.kind).toList.map .enter)).filterMap f = [] := by
      cases scopeKind? e.node.kind with
      | none => rfl
      | some kind => exact List.filterMap_cons_none (hf _ _ rfl)
    rw [hentering]
    split
    next name hk => exact absurd hk (hb name)
    next hk => exact absurd hk (hfd _ _ _)
    next hk => exact absurd hk (hfe _ _ _)
    next hk => exact absurd hk (hcd _)
    next hk => exact absurd hk (hce _)
    next => rfl

/-- The declarations are what the way through a script declares. -/
theorem Script.Program.filterMap_declarations {p : Script.Program} (hp : p.tree.kind = .program)
    (hformed : Formed p.tree) : p.visited.filterMap f = p.declarations.filterMap g := by
  rw [p.filterMap_visited fun at_ => hf at_ _ rfl, declarations, List.filterMap_filterMap,
    List.filterMap_eq_flatMap_toList]
  refine List.flatMap_congr fun e he => ?_
  have hpath := p.pathTo_of_mem_spots he
  rw [Spot.filterMap_located hf hg fun name hk => ?_]
  · cases e.declaration? with
    | none => rfl
    | some d => cases hgd : g d <;> simp [hgd]
  · exact (isSome_declarer? hformed hp hpath (by rw [hk]; rfl)).imp_right And.right

end Visits

section InTree

/-- The scopes around a declaration are scopes of a tree. Those in a script are in the one of the script, and the
innermost one may be open just for what declares the name. -/
structure Declaration.InTree (t : ScopeTree) (d : Declaration) : Prop where
  chain : (t.chain d.current).map (fun s => (s, (t.scope s).kind)) = d.scopes
  inner : ∃ inner,
    d.scopes = inner ++ [(ScopeTree.programScope, .program), (ScopeTree.wrapperScope, .wrapper)] ∧
      ∀ o ∈ inner, o.2 ≠ .wrapper ∧ o.2 ≠ .program
  own : ∀ kind, d.declarer.scope? = some kind → ∃ s outer, d.scopes = (s, kind) :: outer

theorem ownDeclaration?_eq_some {declarer : Declarer} {scopes : List (Nat × ScopeKind)}
    (h : e.ownDeclaration? declarer scopes = some d) : d.declarer = declarer ∧ d.scopes = scopes := by
  obtain ⟨own, -, rfl⟩ := Option.map_eq_some_iff.mp h
  exact ⟨rfl, rfl⟩

theorem declaration?_eq_some (h : e.declaration? = some d) : e.node.kind ≠ .program ∧
    (d.scopes = e.scopes ∧ (declarer? e.path = some d.declarer ∨ d.declarer.scope? = none) ∨
      d.scopes = e.inside ∧ d.declarer.scope? = scopeKind? e.node.kind) := by
  unfold Spot.declaration? at h
  split at h
  next name hk =>
    split at h
    next => cases h
    next =>
      obtain ⟨declarer, hdeclarer, rfl⟩ := Option.map_eq_some_iff.mp h
      exact ⟨by rw [hk]; nofun, .inl ⟨rfl, .inl hdeclarer⟩⟩
  next hk =>
    obtain ⟨hdeclarer, hscopes⟩ := ownDeclaration?_eq_some h
    exact ⟨by rw [hk]; nofun, .inl ⟨hscopes, .inr (by rw [hdeclarer]; rfl)⟩⟩
  next hk =>
    obtain ⟨hdeclarer, hscopes⟩ := ownDeclaration?_eq_some h
    exact ⟨by rw [hk]; nofun, .inr ⟨hscopes, by rw [hdeclarer, hk]; rfl⟩⟩
  next hk =>
    obtain ⟨hdeclarer, hscopes⟩ := ownDeclaration?_eq_some h
    exact ⟨by rw [hk]; nofun, .inl ⟨hscopes, .inr (by rw [hdeclarer]; rfl)⟩⟩
  next hk =>
    obtain ⟨hdeclarer, hscopes⟩ := ownDeclaration?_eq_some h
    exact ⟨by rw [hk]; nofun, .inr ⟨hscopes, by rw [hdeclarer, hk]; rfl⟩⟩
  next => cases h

theorem Analysis.inTree_of_mem_declarations {p : Script.Program} (source : String) (hp : p.tree.kind = .program)
    (hformed : Formed p.tree) (hd : d ∈ p.declarations) : d.InTree (ofProgram p source).scopes := by
  obtain ⟨e, he, hdeclared⟩ := List.mem_filterMap.mp hd
  obtain ⟨hkind, hcases⟩ := declaration?_eq_some hdeclared
  have hchain := chain_of_mem_spots source he
  obtain ⟨-, hinner⟩ := (p.exists_inner hp hformed he).resolve_left fun h => hkind h.1
  rcases hcases with ⟨hd, hdeclarer⟩ | ⟨hd, hdeclarer⟩
  · refine ⟨?_, hd ▸ hinner, fun kind hown => ?_⟩
    · rw [Declaration.current, hd]
      exact hchain
    · rcases hdeclarer with hdeclarer | hnone
      · have hscope : (declarer? e.path).bind Declarer.scope? = some kind := by rw [hdeclarer]; exact hown
        rw [hd]
        exact p.scopes_of_param hp hformed he hscope
      · cases hnone.symm.trans hown
  · refine ⟨?_, hd ▸ e.exists_inside hkind hinner, fun kind hown => ?_⟩
    · rw [Declaration.current, hd]
      exact chain_of_inside source he hchain
    · refine ⟨e.next, e.scopes, ?_⟩
      rw [hd, Spot.inside, scopesIn, ← hdeclarer, hown]
      rfl

namespace Declaration

variable {takes : ScopeKind → Bool} {s : Nat} {kind : ScopeKind} {outer : List (Nat × ScopeKind)}
  {o : Nat × ScopeKind}

theorem nearest_eq (h : d.scopes.find? (fun o => takes o.2) = some o) : d.nearest takes = o.1 := by
  rw [nearest, h]
  rfl

theorem nearest_eq_current (h : d.scopes = (s, kind) :: outer) (htakes : takes kind) :
    d.nearest takes = d.current := by
  have hfind : d.scopes.find? (fun o => takes o.2) = some (s, kind) := by
    rw [h, List.find?_cons, htakes]
  rw [nearest_eq hfind, current, h]
  rfl

theorem InTree.kind_of_mem (h : d.InTree t) (ho : o ∈ d.scopes) : (t.scope o.1).kind = o.2 := by
  rw [← h.chain] at ho
  obtain ⟨s, -, rfl⟩ := List.mem_map.mp ho
  rfl

theorem InTree.program_mem (h : d.InTree t) : (ScopeTree.programScope, .program) ∈ d.scopes := by
  obtain ⟨inner, hscopes, -⟩ := h.inner
  rw [hscopes]
  simp

theorem InTree.exists_head (h : d.InTree t) : ∃ s kind outer, d.scopes = (s, kind) :: outer := by
  obtain ⟨⟨s, kind⟩, outer, hscopes⟩ := List.exists_cons_of_ne_nil (List.ne_nil_of_mem h.program_mem)
  exact ⟨s, kind, outer, hscopes⟩

/-- The only scope of the kind of scripts is the one of the script. -/
theorem InTree.eq_program_iff (h : d.InTree t) (ho : o ∈ d.scopes) :
    o.1 = ScopeTree.programScope ↔ o.2 = .program := by
  constructor
  · intro hs
    rw [← h.kind_of_mem ho, hs, h.kind_of_mem h.program_mem]
  · intro hkind
    obtain ⟨inner, hscopes, hinner⟩ := h.inner
    rw [hscopes] at ho
    rcases List.mem_append.mp ho with ho | ho
    · exact absurd hkind (hinner o ho).2
    · rcases List.mem_cons.mp ho with rfl | ho
      · rfl
      · obtain rfl := List.mem_singleton.mp ho
        cases hkind

/-- Some scope around is due to have the name. -/
theorem InTree.exists_owner (h : d.InTree t) :
    ∃ o ∈ d.scopes, d.scopes.find? (fun o => d.declarer.takes o.2) = some o ∧ d.owner = o.1 := by
  have htakes : ∃ o ∈ d.scopes, d.declarer.takes o.2 := by
    cases hscope : d.declarer.scope? with
    | none =>
      refine ⟨_, h.program_mem, ?_⟩
      cases hdeclarer : d.declarer <;> first | rfl | (rw [hdeclarer] at hscope; cases hscope)
    | some kind =>
      obtain ⟨s, outer, hscopes⟩ := h.own kind hscope
      refine ⟨(s, kind), hscopes ▸ List.mem_cons_self, ?_⟩
      cases hdeclarer : d.declarer <;> rw [hdeclarer] at hscope <;> cases hscope <;> rfl
  obtain ⟨o, hfind⟩ := Option.isSome_iff_exists.mp (List.find?_isSome.mpr htakes)
  exact ⟨o, List.mem_of_find?_eq_some hfind, hfind, nearest_eq hfind⟩

/-- No function or static block is around just if the innermost scope that holds variables is the one of the
script. -/
theorem InTree.outside_iff (h : d.InTree t) (hfind : d.scopes.find? (fun o => o.2.holdsVars) = some o) :
    (d.scopes.all fun o => o.2 != .function && o.2 != .staticBlock) = true ↔ o.2 = .program := by
  obtain ⟨inner, hscopes, hinner⟩ := h.inner
  rw [hscopes, List.find?_append] at hfind
  rw [hscopes, List.all_eq_true]
  constructor
  · intro hall
    have hnone : inner.find? (fun o => o.2.holdsVars) = none := by
      refine List.find?_eq_none.mpr fun o ho hvars => ?_
      obtain ⟨hwrapper, hprogram⟩ := hinner o ho
      have hother := hall o (List.mem_append_left _ ho)
      cases hkind : o.2 <;> simp_all [ScopeKind.holdsVars]
    rw [hnone] at hfind
    cases hfind
    rfl
  · intro hkind o' ho'
    rcases List.mem_append.mp ho' with ho' | ho'
    · have hnone : inner.find? (fun o => o.2.holdsVars) = none := by
        cases hinside : inner.find? fun o => o.2.holdsVars with
        | none => rfl
        | some o'' =>
          rw [hinside] at hfind
          cases hfind
          exact absurd hkind (hinner o (List.mem_of_find?_eq_some hinside)).2
      have hvars := List.find?_eq_none.mp hnone o' ho'
      cases hkind' : o'.2 <;> simp_all [ScopeKind.holdsVars]
    · rcases List.mem_cons.mp ho' with rfl | ho'
      · rfl
      · obtain rfl := List.mem_singleton.mp ho'
        rfl

theorem InTree.isTop_iff (h : d.InTree t) : d.isTop = true ↔ d.owner = ScopeTree.programScope := by
  obtain ⟨o, ho, hfind, howner⟩ := h.exists_owner
  rw [howner, h.eq_program_iff ho]
  have htakes := List.find?_some hfind
  have hdirect (hall : ∀ kind, d.declarer.takes kind) :
      d.scopes.head?.any (·.2 == .program) = true ↔ o.2 = .program := by
    obtain ⟨s, kind, outer, hscopes⟩ := h.exists_head
    rw [hscopes, List.find?_cons, hall kind] at hfind
    cases hfind
    rw [hscopes]
    exact beq_iff_eq
  unfold isTop
  cases hdeclarer : d.declarer with
  | var | functionDeclaration =>
    rw [hdeclarer] at hfind
    exact h.outside_iff hfind
  | lexical | importName | classDeclaration => exact hdirect fun kind => by rw [hdeclarer]; rfl
  | parameter | catchParameter | functionExpression | classExpression =>
    rw [hdeclarer] at htakes
    refine ⟨nofun, fun hprogram => ?_⟩
    rw [hprogram] at htakes
    exact absurd htakes (by decide)

theorem InTree.varScope_eq (h : d.InTree t) : t.varScope d.current = d.nearest ScopeKind.holdsVars := by
  have hfind : d.scopes.find? (fun o => o.2.holdsVars) =
      ((t.chain d.current).find? fun s => (t.scope s).kind.holdsVars).map fun s => (s, (t.scope s).kind) := by
    rw [← h.chain, List.find?_map]
    rfl
  rw [ScopeTree.varScope, nearest, hfind, Option.map_map]
  exact congrArg (·.getD ScopeTree.wrapperScope) (Option.map_id' ..).symm

theorem InTree.declaringScope_eq (h : d.InTree t) : t.declaringScope d.place d.current = d.holder := by
  unfold ScopeTree.declaringScope holder
  cases d.place
  case «variable» => exact h.varScope_eq
  case here => rfl

/-- Where the innermost scope holds no variables, the nearest one that does is another one. -/
theorem InTree.nearest_eq_current_iff (h : d.InTree t) :
    d.nearest ScopeKind.holdsVars = d.current ↔ ¬d.scopes.head?.all fun o => !o.2.holdsVars := by
  obtain ⟨s, kind, outer, hscopes⟩ := h.exists_head
  have hcurrent : d.current = s := by rw [current, hscopes]; rfl
  cases hvars : kind.holdsVars with
  | true => exact iff_of_true (nearest_eq_current hscopes hvars) (by simp [hscopes, hvars])
  | false =>
    refine iff_of_false (fun heq => ?_) (by simp [hscopes, hvars])
    have hsome : (d.scopes.find? fun o => o.2.holdsVars).isSome := List.find?_isSome.mpr ⟨_, h.program_mem, rfl⟩
    obtain ⟨o, hfind⟩ := Option.isSome_iff_exists.mp hsome
    have hs : o.1 = s := (nearest_eq hfind).symm.trans (heq.trans hcurrent)
    have hkind : o.2 = kind := by
      rw [← h.kind_of_mem (List.mem_of_find?_eq_some hfind), hs]
      exact h.kind_of_mem (o := (s, kind)) (hscopes ▸ List.mem_cons_self)
    have hheld := List.find?_some hfind
    rw [hkind, hvars] at hheld
    cases hheld

/-- The scope that gets a name is the one that is due to have it, but for stray imports. -/
theorem InTree.owner_eq_holder_iff (h : d.InTree t) : d.owner = d.holder ↔ ¬d.IsStray := by
  obtain ⟨s, kind, outer, hscopes⟩ := h.exists_head
  have hother (hne : d.declarer ≠ .importName) : ¬d.IsStray := fun hstray => hne hstray.1
  rw [owner, holder, place]
  cases hdeclarer : d.declarer with
  | var | functionDeclaration => exact iff_of_true rfl (hother (by rw [hdeclarer]; nofun))
  | lexical | classDeclaration =>
    exact iff_of_true (nearest_eq_current hscopes rfl) (hother (by rw [hdeclarer]; nofun))
  | parameter | catchParameter | functionExpression | classExpression =>
    obtain ⟨s, outer, hscopes⟩ := h.own _ (by rw [hdeclarer]; rfl)
    exact iff_of_true (nearest_eq_current hscopes rfl) (hother (by rw [hdeclarer]; nofun))
  | importName =>
    have hcurrent : d.nearest Declarer.importName.takes = d.current := nearest_eq_current hscopes rfl
    rw [hcurrent, IsStray, hdeclarer]
    dsimp only
    split
    next hplace =>
      rw [hplace, eq_comm, h.nearest_eq_current_iff]
      exact not_congr ⟨fun hall => ⟨rfl, rfl, hall⟩, fun hstray => hstray.2.2⟩
    next hplace =>
      rw [hplace]
      exact iff_of_true rfl nofun

end Declaration

end InTree

/-- What a declared name is an occurrence of, in the scope that it is declared in. -/
def ScopeTree.declaredAs? (t : ScopeTree) : Nat × Visit → Option (Span × Nat × Option Nat)
  | (at_, .declare place name span _) =>
    some (span, at_, (t.scope (t.declaringScope place at_)).bindings.lookup name)
  | _ => none

namespace Analysis

variable {p : Script.Program} {source : String}

/-- The names of a scope, as they are declared first. -/
theorem scopeNames_ofProgram (p : Script.Program) (source : String) (s : Nat) :
    (ofProgram p source).scopes.scopeNames s =
      firstOccurrences ((if s = ScopeTree.wrapperScope then ScopeTree.wrapperNames else []) ++
        p.visited.filterMap ((ofProgram p source).scopes.declaredName? s)) := by
  obtain ⟨r, h, hscopes, -⟩ := @resolvedBy_ofProgram p source
  have hinitial : ScopeTree.initial.scopeNames s =
      firstOccurrences (if s = ScopeTree.wrapperScope then ScopeTree.wrapperNames else []) := by
    cases s <;> rfl
  have hsame : (declareAll (visits [] p.tree)).declaredName? s = r.tree.declaredName? s := by
    funext ⟨at_, v⟩
    cases v with
    | declare => rw [ScopeTree.declaredName?, ScopeTree.declaredName?, h.same.declaringScope]
    | enter | leave | refer | call => rfl
  have hnames := (declaredBy_declareAll (visits [] p.tree)).names s _ hinitial
  rw [hsame] at hnames
  rw [hscopes, ScopeTree.scopeNames, h.same.bindings]
  exact hnames

section Holders

variable (hp : p.tree.kind = .program) (hformed : Formed p.tree)
include hp hformed

/-- A declaration is an occurrence of what its holder binds. -/
theorem map_declares (source : String) :
    ((ofProgram p source).scopes.references.toList.filter (·.declares)).map
        (fun r => (r.span, r.scope, some r.binding)) =
      p.declarations.map fun d =>
        (d.span, d.current, ((ofProgram p source).scopes.scope d.holder).bindings.lookup d.name) := by
  let t := (ofProgram p source).scopes
  let occurrence (d : Declaration) (holder : Nat) := (d.span, d.current, (t.scope holder).bindings.lookup d.name)
  have hdeclared : p.visited.filterMap t.declaredAs? =
      p.declarations.filterMap fun d => some (occurrence d (t.declaringScope d.place d.current)) := by
    refine Script.Program.filterMap_declarations (fun at_ v hv => ?_) (fun _ _ => rfl) hp hformed
    cases v with
    | declare => cases hv
    | enter | leave | refer | call => rfl
  have hholder : ∀ d ∈ p.declarations,
      some (occurrence d (t.declaringScope d.place d.current)) = some (occurrence d d.holder) := by
    intro d hd
    rw [(inTree_of_mem_declarations source hp hformed hd).declaringScope_eq]
  rw [filter_declares.1, List.map_filterMap, ← List.filterMap_eq_map']
  refine Eq.trans (List.filterMap_congr fun o ho => ?_) (hdeclared.trans (List.filterMap_congr hholder))
  obtain ⟨at_, v⟩ := o
  cases v with
  | declare place name span shorthand =>
    have hbound : ((t.scope (t.declaringScope place at_)).bindings.lookup name).isSome :=
      bound_ofProgram.mpr (.inr ⟨at_, place, span, shorthand, ho, rfl⟩)
    obtain ⟨b, hb⟩ := Option.isSome_iff_exists.mp hbound
    change some (span, at_, some (((t.scope (t.declaringScope place at_)).bindings.lookup name).getD default)) =
      some (span, at_, (t.scope (t.declaringScope place at_)).bindings.lookup name)
    rw [hb]
    rfl
  | enter | leave | refer | call => rfl

/-- A scope binds the names that it holds. -/
theorem names_eq (source : String) {s : Nat} (hs : s ≠ ScopeTree.wrapperScope) :
    ((ofProgram p source).scopes.scope s).bindings.map Prod.fst =
      firstOccurrences ((p.declarations.filter (·.holder = s)).map Declaration.name) := by
  let t := (ofProgram p source).scopes
  have hnames := scopeNames_ofProgram p source s
  rw [if_neg hs, List.nil_append] at hnames
  refine hnames.trans (congrArg firstOccurrences ?_)
  have hdeclared : p.visited.filterMap (t.declaredName? s) = p.declarations.filterMap fun d =>
      if t.declaringScope d.place d.current = s then some d.name else none := by
    refine Script.Program.filterMap_declarations (fun at_ v hv => ?_) (fun _ _ => rfl) hp hformed
    cases v with
    | declare => cases hv
    | enter | leave | refer | call => rfl
  rw [hdeclared, ← List.filterMap_eq_map', List.filterMap_filter]
  refine List.filterMap_congr fun d hd => ?_
  rw [(inTree_of_mem_declarations source hp hformed hd).declaringScope_eq]
  simp only [decide_eq_true_eq]

end Holders

/-- Each declaration is an occurrence of what its holder binds, and a scope has the names of those that it holds.
The scopes that hold names are those that they belong to if no import is a stray one. -/
theorem bindsByRules_iff (h : Script.Program.parse? source = some p) :
    let t := (ofProgram p source).scopes
    (∀ d ∈ p.declarations, (t.chain d.current).map (fun s => (s, (t.scope s).kind)) = d.scopes) ∧
    (t.references.toList.filter (·.declares)).map (fun r => (r.span, r.scope, some r.binding)) =
      p.declarations.map (fun d => (d.span, d.current, (t.scope d.holder).bindings.lookup d.name)) ∧
    (∀ s ≠ ScopeTree.wrapperScope, (t.scope s).bindings.map Prod.fst =
      firstOccurrences ((p.declarations.filter (·.holder = s)).map Declaration.name)) ∧
    (p.BindsByRules t ↔ ∀ d ∈ p.declarations, ¬d.IsStray) := by
  intro t
  have hp := (Script.spanned_parse? h).kind
  have hformed := Script.formed_parse? h
  have hin (d : Declaration) (hd : d ∈ p.declarations) : d.InTree t :=
    inTree_of_mem_declarations source hp hformed hd
  have hdeclares := map_declares hp hformed source
  have hpairs : (t.references.toList.filter (·.declares)).map (fun r => (r.span, some r.binding)) =
      p.declarations.map fun d => (d.span, (t.scope d.holder).bindings.lookup d.name) := by
    have hmap := congrArg (List.map fun x => (x.1, x.2.2)) hdeclares
    rwa [List.map_map, List.map_map] at hmap
  refine ⟨fun d hd => (hin d hd).chain, hdeclares, fun s hs => names_eq hp hformed source hs,
    fun ⟨_, hbound⟩ d hd => ?_, fun hstray => ?_⟩
  · -- what is bound in two scopes is bound in one, so that owner and holder are the same
    have hlookup := (Prod.mk.inj (List.map_inj_left.mp (hpairs.symm.trans hbound) d hd)).2
    obtain ⟨r, -, hr⟩ : ∃ r ∈ t.references.toList.filter (·.declares),
        (r.span, some r.binding) = (d.span, (t.scope d.holder).bindings.lookup d.name) := by
      rw [← List.mem_map, hpairs]
      exact List.mem_map_of_mem hd
    have hholder := (Prod.mk.inj hr).2.symm
    obtain ⟨hscope, -⟩ := sound_scopes.eq_of_lookup (hlookup.symm.trans hholder) hholder
    exact (hin d hd).owner_eq_holder_iff.mp hscope
  · have howner : ∀ d ∈ p.declarations, d.owner = d.holder := fun d hd =>
      (hin d hd).owner_eq_holder_iff.mpr (hstray d hd)
    have htop : p.declarations.filter (·.isTop) = p.declarations.filter (·.holder = ScopeTree.programScope) := by
      refine List.filter_congr fun d hd => ?_
      rw [Bool.eq_iff_iff, (hin d hd).isTop_iff, decide_eq_true_iff, howner d hd]
    refine ⟨?_, hpairs.trans (List.map_congr_left fun d hd => by rw [howner d hd])⟩
    rw [htop]
    exact names_eq hp hformed source (by decide)

/-- Patterns with functions in them, and scopes that hold no variables. -/
def nestedPatterns : String :=
  "var \x7b a, b: [c = function d(e) \x7b var f \x7d] \x7d = g; try \x7b import h from 'i' \x7d catch ([j]) \x7b var k \x7d"

theorem bindsByRules_nestedPatterns : ∃ p, Script.Program.parse? nestedPatterns = some p ∧
    p.declarations.map Declaration.name = ["a", "c", "d", "e", "f", "h", "j", "k"] ∧
    p.BindsByRules (ofProgram p nestedPatterns).scopes := by
  obtain ⟨p, hp, hnames, hstray⟩ : ∃ p ∈ Script.Program.parse? nestedPatterns,
      p.declarations.map Declaration.name = ["a", "c", "d", "e", "f", "h", "j", "k"] ∧
        ∀ d ∈ p.declarations, ¬d.IsStray := by
    decide +kernel
  exact ⟨p, hp, hnames, (bindsByRules_iff hp).2.2.2.mpr hstray⟩

/-- An import in a block in a function that is the value of a variable. -/
def strayImport : String :=
  "var f = () => \x7b \x7b import x from 'y' \x7d \x7d;"

theorem not_bindsByRules : ∃ p, Script.Program.parse? strayImport = some p ∧
    (∃ d ∈ p.declarations, d.name = "x" ∧ d.current = 3 ∧ d.owner = 3 ∧ d.holder = 2) ∧
    ((ofProgram p strayImport).scopes.scope 3).bindings = [] ∧
    ((ofProgram p strayImport).scopes.scope 2).bindings.map Prod.fst = ["x"] ∧
    ¬p.BindsByRules (ofProgram p strayImport).scopes := by
  obtain ⟨p, hp, hfacts⟩ : ∃ p ∈ Script.Program.parse? strayImport,
      (∃ d ∈ p.declarations, d.name = "x" ∧ d.current = 3 ∧ d.owner = 3 ∧ d.holder = 2) ∧
      ((ofProgram p strayImport).scopes.scope 3).bindings = [] ∧
      ((ofProgram p strayImport).scopes.scope 2).bindings.map Prod.fst = ["x"] ∧
      ¬p.BindsByRules (ofProgram p strayImport).scopes := by
    decide +kernel
  exact ⟨p, hp, hfacts⟩

end Analysis

end FlatBundle
