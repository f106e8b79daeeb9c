import FlatBundle.Proofs.Scope.NameSpans
import FlatBundle.Proofs.Scope.Spots
import FlatBundle.Proofs.Script.FormedProgram

/-!
The calls that load other modules: those of the `require` that every module receives, with a fixed text.
-/

namespace FlatBundle

open Script (Span Node Kind Formed)

/-- The value of a string, or of a template without substitutions that has a value. -/
def literalText? : Node → Option String
  | .mk (.string value) _ _ => some value
  | .mk (.template [piece]) _ [] => piece
  | _ => none

/-- A call of a name whose first argument is a fixed text. -/
structure NamedCall where
  span : Span
  /-- Where the name stands. -/
  callee : Span
  name : String
  specifier : String
deriving DecidableEq, Repr

def namedCall? : Node → Option NamedCall
  | .mk .call span (.mk (.reference name) callee _ :: arg :: _) =>
    (literalText? arg).map fun specifier => ⟨span, callee, name, specifier⟩
  | _ => none

/-- A recorded lookup stands at a span and is bound to what every module receives as `require`. -/
def ScopeTree.RequireAt (t : ScopeTree) (span : Span) : Prop :=
  ∃ r ∈ t.references, r.span = span ∧ r.declares = false ∧ r.binding = requireBinding

instance {t : ScopeTree} {span : Span} : Decidable (t.RequireAt span) :=
  inferInstanceAs (Decidable (∃ r ∈ t.references, _))

/-- A call of the `require` that every module receives, with its specifier. -/
def ScopeTree.requireCall? (t : ScopeTree) (n : Node) : Option (Span × String) :=
  ((namedCall? n).filter fun c => t.RequireAt c.callee).map fun c => (c.span, c.specifier)

variable {n : Node} {path : Path} {e : Spot} {t : ScopeTree} {name : String}

section Form

theorem literalText?_eq (h : Formed n) : literalText? n = staticText? n := by
  cases h with
  | @mk kind span children _ holds =>
    cases kind with
    | template pieces =>
      have hlength : pieces.length = children.length + 1 := holds
      rcases pieces with _ | ⟨piece, _ | ⟨_, _⟩⟩
      · rfl
      · obtain rfl : children = [] := List.length_eq_zero_iff.mp (by simpa using hlength.symm)
        rfl
      · rfl
    | _ => rfl

/-- The calls that may load a module are those of names that are spelled `require`. -/
theorem callSite?_eq (h : Formed n) : callSite? path n =
    ((namedCall? n).filter (·.name = "require")).map fun c =>
      ⟨c.span, c.specifier, isUnpredictable c.span path, declaratorSite? path⟩ := by
  unfold namedCall?
  split
  next span name callee names arg rest =>
    have harg : Formed arg := h.child (List.mem_cons_of_mem _ List.mem_cons_self)
    rw [literalText?_eq harg]
    by_cases hname : name = "require"
    · subst hname
      cases htext : staticText? arg with
      | none => rw [callSite?, htext]; rfl
      | some text =>
        rw [callSite?, htext, Option.map_some, Option.map_some, Option.filter_some, if_pos (decide_eq_true rfl)]
        rfl
    · have hnone : callSite? path (.mk .call span (.mk (.reference name) callee names :: arg :: rest)) =
          none := by
        unfold callSite?
        split
        next heq =>
          cases heq
          exact absurd rfl hname
        next => rfl
      rw [hnone]
      cases staticText? arg with
      | none => rfl
      | some text =>
        rw [Option.map_some, Option.filter_some, if_neg (by simpa using hname)]
        rfl
  next hother =>
    unfold callSite?
    split
    next => exact absurd rfl (hother _ _ _ _ _ _)
    next => rfl

theorem filterMap_located_called (e : Spot) : e.located.filterMap t.called? =
    ((callSite? e.path e.node).bind fun site => t.called? (e.current, .call site)).toList := by
  cases hsite : callSite? e.path e.node with
  | some site =>
    obtain ⟨hk, -⟩ := callSite?_eq_some hsite
    have hentering : entering e.path e.node = [.call site] := by
      unfold entering
      rw [hk, hsite]
      rfl
    rw [Spot.located, hentering, Trail.locate, Trail.locate]
    cases hcalled : t.called? (e.trail.current, .call site) <;> simp [Spot.current, hcalled]
  | none =>
    refine List.filterMap_eq_nil_iff.mpr fun o ho => ?_
    obtain ⟨at_, v⟩ := o
    cases v with
    | call site =>
      obtain ⟨-, hsome⟩ := mem_entering_call (Trail.mem_of_mem_locate ho)
      cases hsite.symm.trans hsome
    | enter | leave | declare | refer => rfl

end Form

/-- The wrapper is the outermost scope, and no other scope is one. -/
theorem Script.Program.scopes_eq_append {source : String} {p : Script.Program}
    (h : Script.Program.parse? source = some p) (he : e ∈ p.spots) :
    ∃ inner, e.scopes = inner ++ [(ScopeTree.wrapperScope, .wrapper)] ∧ ∀ o ∈ inner, o.2 ≠ .wrapper := by
  have hkind := (Script.spanned_parse? h).kind
  rcases p.exists_inner hkind (Script.formed_parse? h) he with ⟨-, hscopes⟩ | ⟨-, inner, hscopes, hinner⟩
  · exact ⟨[], hscopes, nofun⟩
  · refine ⟨inner ++ [(ScopeTree.programScope, .program)], by simp [hscopes], fun o ho => ?_⟩
    rcases List.mem_append.mp ho with ho | ho
    · exact (hinner o ho).1
    · obtain rfl := List.mem_singleton.mp ho
      exact nofun

namespace Analysis

variable {p : Script.Program} {source : String}

/-- What is looked up means the `require` of the wrapper if it is called so and no scope in between has it. -/
theorem referredBinding?_eq_require_iff (at_ : Nat) :
    (ofProgram p source).scopes.referredBinding? at_ name = some ScopeTree.requireBinding ↔
      name = "require" ∧
        (ofProgram p source).scopes.findBinding at_ "require" = some ScopeTree.requireBinding := by
  constructor
  · intro h
    rw [ScopeTree.referredBinding?] at h
    cases hfind : (ofProgram p source).scopes.findBinding at_ name with
    | some b =>
      rw [hfind] at h
      obtain rfl : b = ScopeTree.requireBinding := Option.some.inj h
      obtain ⟨inner, owner, outer, -, howner, -⟩ := ScopeTree.findBinding_eq_some_iff.mp hfind
      obtain ⟨-, rfl⟩ := sound_scopes.eq_of_lookup lookup_require howner
      exact ⟨rfl, hfind⟩
    | none =>
      rw [hfind] at h
      obtain ⟨front, back, heq, -⟩ := List.lookup_eq_some_iff.mp h
      have hmem : (name, ScopeTree.requireBinding) ∈
          ((ofProgram p source).scopes.scope ScopeTree.wrapperScope).undeclared := by
        rw [heq]
        simp
      exact absurd lookup_require ((undeclared_ofProgram hmem).2 _ _)
  · rintro ⟨rfl, hfind⟩
    rw [ScopeTree.referredBinding?, hfind]
    rfl

theorem findBinding_require_iff (h : Script.Program.parse? source = some p) (he : e ∈ p.spots) :
    (ofProgram p source).scopes.findBinding e.current "require" = some ScopeTree.requireBinding ↔
      ∀ o ∈ e.scopes, o.2 ≠ .wrapper → ¬(ofProgram p source).scopes.DeclaredIn p.visited o.1 "require" := by
  let t := (ofProgram p source).scopes
  obtain ⟨inner, hscopes, hinner⟩ := p.scopes_eq_append h he
  have hchain : (t.chain e.current).map (fun s => (s, (t.scope s).kind)) = e.scopes :=
    chain_of_mem_spots source he
  have hsplit : t.chain e.current = inner.map Prod.fst ++ [ScopeTree.wrapperScope] := by
    have hfirst := congrArg (List.map Prod.fst) (hchain.trans hscopes)
    rw [List.map_map, List.map_append] at hfirst
    exact (List.map_id _).symm.trans hfirst
  have hkind : ∀ o ∈ e.scopes, o.1 ∈ t.chain e.current ∧ (t.scope o.1).kind = o.2 := by
    rw [← hchain]
    intro o ho
    obtain ⟨s, hs, rfl⟩ := List.mem_map.mp ho
    exact ⟨hs, rfl⟩
  have hbound {s : Nat} : ((t.scope s).bindings.lookup "require").isSome ↔
      s = ScopeTree.wrapperScope ∧ "require" ∈ ScopeTree.wrapperNames ∨ t.DeclaredIn p.visited s "require" :=
    bound_ofProgram
  -- all ways outward end in the wrapper, which has the name: a scope that has it too comes before
  constructor
  · intro hfind o ho hother hdeclared
    obtain ⟨hmem, hk⟩ := hkind o ho
    obtain ⟨front, owner, back, haround, howner, hfront⟩ := ScopeTree.findBinding_eq_some_iff.mp hfind
    obtain ⟨rfl, -⟩ := sound_scopes.eq_of_lookup lookup_require howner
    have hne : o.1 ≠ ScopeTree.wrapperScope := fun heq => hother (hk.symm.trans (heq ▸ scope_wrapper.2))
    have hinside := (@sound_scopes p source).mem_inner haround hmem (Nat.pos_of_ne_zero hne)
    have hsome := hbound.mpr (.inr hdeclared)
    rw [hfront _ hinside] at hsome
    cases hsome
  · intro hfree
    refine ScopeTree.findBinding_eq_some_iff.mpr ⟨_, _, _, hsplit, lookup_require, fun s hs => ?_⟩
    obtain ⟨o, ho, rfl⟩ := List.mem_map.mp hs
    have ho' : o ∈ e.scopes := hscopes ▸ List.mem_append_left _ ho
    refine Option.not_isSome_iff_eq_none.mp fun hsome => ?_
    rcases hbound.mp hsome with ⟨hs, -⟩ | hdeclared
    · exact hinner o ho ((hkind o ho').2.symm.trans (hs ▸ scope_wrapper.2))
    · exact hfree o ho' (hinner o ho) hdeclared

/-- The `require` of the wrapper is recorded at a name if the name is found there. -/
theorem requireAt_iff (h : Script.Program.parse? source = some p) (he : e ∈ p.spots)
    (hn : e.node.kind = .reference name) : (ofProgram p source).scopes.RequireAt e.node.span ↔
      name = "require" ∧
        (ofProgram p source).scopes.findBinding e.current "require" = some ScopeTree.requireBinding := by
  have hspanned := Script.spanned_parse? h
  obtain ⟨lo, hi, hlaid⟩ := hspanned.laidOut
  obtain ⟨r, hr, hspan, hdeclares, hbinding⟩ := exists_reference_of_mem_spots source he hn
  rw [← referredBinding?_eq_require_iff e.current, hbinding, Option.some.injEq]
  constructor
  · rintro ⟨r', hr', hspan', -, hrequire⟩
    obtain rfl := eq_of_span hspanned.kind hlaid hr hr' (hspan.trans hspan'.symm)
    exact hrequire
  · intro hrequire
    exact ⟨r, hr, hspan, hdeclares, hrequire⟩

/-- The name that a call calls is looked up in the scope around the call. -/
theorem requireAt_callee_iff (h : Script.Program.parse? source = some p) (he : e ∈ p.spots)
    {c : NamedCall} (hc : namedCall? e.node = some c) :
    (ofProgram p source).scopes.RequireAt c.callee ↔ c.name = "require" ∧
      (ofProgram p source).scopes.findBinding e.current "require" = some ScopeTree.requireBinding := by
  unfold namedCall? at hc
  split at hc
  next span name callee names arg rest hnode =>
    obtain ⟨specifier, -, rfl⟩ := Option.map_eq_some_iff.mp hc
    have hk : e.node.children[0]? = some (.mk (.reference name) callee names) := by rw [hnode]; rfl
    obtain ⟨e', he', -, hnode', hscopes⟩ := p.exists_spot_child he hk
    have hcurrent : e'.current = e.current := by
      have hinside : e'.scopes = e.scopes := by
        rw [hscopes, Spot.inside, hnode]
        rfl
      rw [Spot.current, Spot.trail, Trail.current, hinside]
      rfl
    have hreference : e'.node.kind = .reference name := by rw [hnode']; rfl
    have hrequire := requireAt_iff h he' hreference
    rw [hnode', hcurrent] at hrequire
    exact hrequire
  next => cases hc

theorem called_located (h : Script.Program.parse? source = some p) (he : e ∈ p.spots) :
    e.located.filterMap (fun o => ((ofProgram p source).scopes.called? o).map fun c => (c.span, c.specifier)) =
      ((ofProgram p source).scopes.requireCall? e.node).toList := by
  let t := (ofProgram p source).scopes
  have hformed : Formed e.node := (p.pathTo_of_mem_spots he).formed (Script.formed_parse? h)
  rw [← List.map_filterMap, filterMap_located_called, callSite?_eq hformed, ScopeTree.requireCall?]
  cases hc : namedCall? e.node with
  | none => rfl
  | some c =>
    have hrequire : t.RequireAt c.callee ↔ c.name = "require" ∧
        t.findBinding e.current "require" = some ScopeTree.requireBinding := requireAt_callee_iff h he hc
    rw [Option.filter_some, Option.filter_some]
    by_cases hname : c.name = "require"
    · rw [if_pos (decide_eq_true hname), Option.map_some, Option.bind_some, ScopeTree.called?]
      by_cases hfind : t.findBinding e.current "require" = some ScopeTree.requireBinding
      · rw [if_pos hfind, if_pos (decide_eq_true (hrequire.mpr ⟨hname, hfind⟩))]
        rfl
      · rw [if_neg hfind, if_neg (by simpa using fun hat => hfind (hrequire.mp hat).2)]
        rfl
    · rw [if_neg (by simpa using hname), if_neg (by simpa using fun hat => hname (hrequire.mp hat).1)]
      rfl

theorem map_calls (h : Script.Program.parse? source = some p) :
    (ofProgram p source).calls.map (fun c => (c.span, c.specifier)) =
      p.spots.filterMap fun e => (ofProgram p source).scopes.requireCall? e.node := by
  rw [calls_ofProgram, List.map_filterMap, p.filterMap_visited fun _ => rfl, List.filterMap_eq_flatMap_toList]
  exact List.flatMap_congr fun e he => called_located h he

/-- The recorded calls are, each one once and in pre-order, the calls of names that are bound to what every module
receives as `require`, with a string or a template without substitutions as their first argument. What a name
is called is bound so just where it is spelled `require` and no scope around but the wrapper declares that,
wherever in the script. -/
theorem calls_eq_requireCalls (h : Script.Program.parse? source = some p) :
    let a := ofProgram p source
    a.calls.map (fun c => (c.span, c.specifier)) = p.spots.filterMap (fun e => a.scopes.requireCall? e.node) ∧
    ∀ e ∈ p.spots, ∀ c, namedCall? e.node = some c → (a.scopes.RequireAt c.callee ↔
      c.name = "require" ∧
        ∀ o ∈ e.scopes, o.2 ≠ .wrapper → ¬a.scopes.DeclaredIn p.visited o.1 "require") := by
  refine ⟨map_calls h, fun e he c hc => ?_⟩
  rw [requireAt_callee_iff h he hc, findBinding_require_iff h he]

/-- A call in a call, and a function that has a `require` of its own. -/
def ownRequire : String :=
  "require(`a`, require('b')); function f() \x7b require('c'); \x7b var require; \x7d \x7d"

theorem calls_ownRequire : ∃ p, Script.Program.parse? ownRequire = some p ∧
    (ofProgram p ownRequire).calls.map (fun c => (c.span, c.specifier)) =
      [(⟨0, 26⟩, "a"), (⟨13, 25⟩, "b")] := by
  obtain ⟨p, hp, hcalls⟩ : ∃ p ∈ Script.Program.parse? ownRequire,
      p.spots.filterMap (fun e => (ofProgram p ownRequire).scopes.requireCall? e.node) =
        [(⟨0, 26⟩, "a"), (⟨13, 25⟩, "b")] := by
    decide +kernel
  exact ⟨p, hp, (calls_eq_requireCalls hp).1.trans hcalls⟩

end Analysis

end FlatBundle
