import FlatBundle.Proofs.Script.Program
import FlatBundle.Proofs.Scope.Visit

/-!
The names and calls of a module stand at sites of its tree.
-/

namespace FlatBundle

open Script (Span Node)

variable {root : Node} {vs : List Visit}

def Reference.Placed (root : Node) (r : Reference) : Prop :=
  SiteSpan root r.span ∧ r.usage.Placed root

namespace ScopeTree

def Placed (root : Node) (t : ScopeTree) : Prop :=
  ∀ r ∈ t.references, r.Placed root

variable {t : ScopeTree}

theorem placed_initial : initial.Placed root := by
  simp [Placed, initial]

theorem Placed.addReference {r : Reference} (ht : t.Placed root) (hr : r.Placed root) :
    (t.addReference r).Placed root := by
  intro r' hr'
  rcases Array.mem_push.mp hr' with hr' | rfl
  · exact ht r' hr'
  · exact hr

theorem Placed.declare {scope at_ : Nat} {name : String} {span : Span} {shorthand : Bool}
    (ht : t.Placed root) (hspan : SiteSpan root span) :
    (t.declare scope name span at_ shorthand).Placed root := by
  have hr {b : Nat} : Reference.Placed root ⟨span, at_, b, true, shorthand, .plain⟩ :=
    ⟨hspan, trivial⟩
  unfold ScopeTree.declare
  dsimp only
  split
  · exact ht.addReference hr
  · exact Placed.addReference ht hr

theorem Placed.undeclaredBinding (ht : t.Placed root) (name : String) :
    (t.undeclaredBinding name).1.Placed root := by
  unfold ScopeTree.undeclaredBinding
  split <;> exact ht

theorem Placed.referencesOf (ht : t.Placed root) {binding : Nat} :
    ∀ r ∈ t.referencesOf binding, r = default ∨ r.Placed root := by
  intro r hr
  obtain ⟨id, -, rfl⟩ := List.mem_map.mp hr
  unfold ScopeTree.reference
  rw [Array.getD_eq_getD_getElem?]
  cases hid : t.references[id]? with
  | none => exact .inl rfl
  | some r => exact .inr (ht r (Array.mem_of_getElem? hid))

end ScopeTree

theorem placed_declareAll (hvs : ∀ v ∈ vs, v.Placed root) : (declareAll vs).Placed root := by
  have run : ∀ d : Declaring, d.tree.Placed root → (vs.foldl Declaring.step d).tree.Placed root := by
    induction vs with
    | nil => exact fun d hd => hd
    | cons v vs ih =>
      refine fun d hd => ih (fun w hw => hvs w (List.mem_cons_of_mem _ hw)) _ ?_
      have hv := hvs v (List.mem_cons_self ..)
      cases v with
      | declare place name span shorthand => exact ScopeTree.Placed.declare hd hv.siteSpan
      | enter | leave | refer | call => exact hd
  exact run _ ScopeTree.placed_initial

/-- A call stands at a site, and its declarator in a declaration. -/
def RequireCall.Placed (root : Node) (c : RequireCall) : Prop :=
  SiteSpan root c.span ∧ ∀ d ∈ c.declarator, DeclarationAt root d.declaration d.declarators

namespace Resolving

structure Placed (root : Node) (r : Resolving) : Prop where
  tree : r.tree.Placed root
  calls : ∀ c ∈ r.calls, c.Placed root

variable {r : Resolving}

theorem Placed.refer {name : String} {span : Span} {shorthand : Bool} {usage : Usage}
    (hr : r.Placed root) (hspan : SiteSpan root span) (husage : usage.Placed root) :
    (r.refer name span shorthand usage).Placed root := by
  refine ⟨?_, hr.calls⟩
  unfold Resolving.refer
  split
  rename_i tree binding hfind
  refine ScopeTree.Placed.addReference ?_ ⟨hspan, husage⟩
  split at hfind
  · cases hfind
    exact hr.tree
  · have hundeclared := hr.tree.undeclaredBinding name
    rwa [hfind] at hundeclared

theorem Placed.call {site : CallSite} (hr : r.Placed root) (hsite : (Visit.call site).Placed root) :
    (r.call site).Placed root := by
  unfold Resolving.call
  split
  · refine ⟨hr.tree, fun c hc => ?_⟩
    rcases List.mem_append.mp hc with hc | hc
    · exact hr.calls c hc
    · obtain rfl := List.mem_singleton.mp hc
      refine ⟨hsite.1, fun d hd => ?_⟩
      obtain ⟨s, hs, hd⟩ := Option.bind_eq_some_iff.mp hd
      obtain ⟨binding, -, rfl⟩ := Option.map_eq_some_iff.mp hd
      exact hsite.2 s hs
  · exact hr

theorem Placed.step {v : Visit} (hr : r.Placed root) (hv : v.Placed root) :
    (r.step v).Placed root := by
  cases v with
  | enter | leave => exact ⟨hr.tree, hr.calls⟩
  | declare => exact hr
  | refer name span shorthand usage => exact hr.refer hv.1 hv.2
  | call site => exact hr.call hv

end Resolving

theorem placed_resolveAll {tree : ScopeTree} (htree : tree.Placed root)
    (hvs : ∀ v ∈ vs, v.Placed root) : (resolveAll tree vs).Placed root := by
  have run : ∀ r : Resolving, r.Placed root → (vs.foldl Resolving.step r).Placed root := by
    induction vs with
    | nil => exact fun r hr => hr
    | cons v vs ih =>
      exact fun r hr => ih (fun w hw => hvs w (List.mem_cons_of_mem _ hw)) _
        (hr.step (hvs v (List.mem_cons_self ..)))
  exact run _ ⟨htree, nofun⟩

/-- What a module is made of stands at sites of its tree, clear of its source map comment. -/
structure Analysis.Placed (source : List Char) (root : Node) (a : Analysis) : Prop where
  scopes : a.scopes.Placed root
  calls : ∀ c ∈ a.calls, c.Placed root
  laidOut : ∃ lo hi, Script.LaidOut source (Script.Clear source a.mapComment.toList) lo hi root.sites
  comment : ∀ c ∈ a.mapComment, ∃ hi, Script.CommentBetween source 0 hi c

theorem placed_ofProgram {p : Script.Program} {source : String} (hp : p.Spanned source.toList) :
    (Analysis.ofProgram p source).Placed source.toList p.tree := by
  have hvs : ∀ v ∈ visits [] p.tree, v.Placed p.tree :=
    placed_visits [] nofun p.tree fun _ hm => hm
  rw [Analysis.ofProgram_eq]
  have hresolved := placed_resolveAll (placed_declareAll hvs) hvs
  have hcomment : ∀ c ∈ p.mapComment source.toList, c ∈ p.lineComments := fun c hc =>
    List.mem_reverse.mp (List.mem_of_find?_eq_some hc)
  refine ⟨hresolved.tree, hresolved.calls, ?_, fun c hc => hp.comments c (hcomment c hc)⟩
  obtain ⟨lo, hi, hlaid⟩ := hp.laidOut
  exact ⟨lo, hi, hlaid.imp fun _ _ hq => ⟨hq.1, fun c hc =>
    hq.2 c (hcomment c (Option.mem_toList.mp hc))⟩⟩

theorem placed_ofSource? {source : String} {a : Analysis} (h : Analysis.ofSource? source = some a) :
    ∃ root, a.Placed source.toList root := by
  obtain ⟨p, hp, rfl⟩ := Option.map_eq_some_iff.mp h
  exact ⟨p.tree, placed_ofProgram (Script.spanned_parse? hp)⟩

end FlatBundle
