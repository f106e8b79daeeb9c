import FlatBundle.Proofs.Scope.BothWays
import FlatBundle.Proofs.Script.Layout

/-!
The spans that come up on the way through a tree are those of its sites.
-/

namespace FlatBundle

open Script (Span Node Kind SiteIn sitesOf)

variable {root n : Node} {path outer : Path} {span : Span}

/-- The sites of `n` are sites of `root`. -/
def PartOf (root n : Node) : Prop :=
  ∀ m, SiteIn m n.sites → SiteIn m root.sites

theorem PartOf.child {kind : Kind} {children : List Node} (h : PartOf root (.mk kind span children))
    (hn : n ∈ children) : PartOf root n :=
  fun m hm => h m (hm.of_child hn)

theorem siteIn_self (hk : n.kind.isSite) : SiteIn n n.sites := by
  obtain ⟨kind, span, children⟩ := n
  have hk : kind.isSite := hk
  rw [Script.sites_of_isSite hk]
  exact .here

theorem PartOf.site (h : PartOf root n) (hk : n.kind.isSite) : SiteIn n root.sites :=
  h n (siteIn_self hk)

/-- The span of some site. -/
def SiteSpan (root : Node) (span : Span) : Prop :=
  ∃ m, SiteIn m root.sites ∧ m.span = span

theorem PartOf.siteSpan (h : PartOf root n) (hk : n.kind.isSite) : SiteSpan root n.span :=
  ⟨n, h.site hk, rfl⟩

/-- A name is declared at a span. -/
def BindingAt (root : Node) (name : String) (span : Span) : Prop :=
  ∃ children, SiteIn (.mk (.binding name) span children) root.sites

theorem BindingAt.siteSpan {name : String} (h : BindingAt root name span) : SiteSpan root span := by
  obtain ⟨children, h⟩ := h
  exact ⟨_, h, rfl⟩

/-- A declaration of variables, with the spans of its declarators. -/
def DeclarationAt (root : Node) (declaration : Span) (declarators : List Span) : Prop :=
  ∃ kind children, SiteIn (.mk (.variables kind) declaration children) root.sites ∧
    declarators = children.map Node.span

def Usage.Placed (root : Node) : Usage → Prop
  | .plain => True
  | .typeof span => SiteSpan root span
  | .member access => SiteSpan root access.span

def Visit.Placed (root : Node) : Visit → Prop
  | .enter _ | .leave => True
  | .declare _ name span _ => BindingAt root name span
  | .refer _ span _ usage => SiteSpan root span ∧ usage.Placed root
  | .call site => SiteSpan root site.span ∧
      ∀ d ∈ site.declarator, DeclarationAt root d.declaration d.declarators

theorem placed_usage (hpath : ∀ f ∈ path, PartOf root f.node) : (usage path).Placed root := by
  unfold usage
  split
  case h_5 => trivial
  all_goals exact (hpath _ (List.mem_cons_self ..)).siteSpan rfl

theorem declarationAt_of_declaratorSite? {d : DeclaratorSite}
    (hpath : ∀ f ∈ path, PartOf root f.node) (h : declaratorSite? path = some d) :
    DeclarationAt root d.declaration d.declarators := by
  unfold declaratorSite? at h
  split at h
  · split at h
    · cases h
    · cases h
      exact ⟨_, _, (hpath _ (List.mem_cons_of_mem _ (List.mem_cons_self ..))).site rfl, rfl⟩
  · cases h

theorem placed_callSite? {site : CallSite} (hn : PartOf root n)
    (hpath : ∀ f ∈ path, PartOf root f.node) (h : callSite? path n = some site) :
    (Visit.call site).Placed root := by
  unfold callSite? at h
  split at h
  · obtain ⟨specifier, -, rfl⟩ := Option.map_eq_some_iff.mp h
    exact ⟨hn.siteSpan rfl, fun d hd => declarationAt_of_declaratorSite? hpath hd⟩
  · cases h

theorem bindingAt_ownName? {name : String} (hn : PartOf root n)
    (h : ownName? n = some (name, span)) : BindingAt root name span := by
  obtain ⟨kind, whole, children⟩ := n
  obtain ⟨child, hchild, hname⟩ := List.exists_of_findSome?_eq_some h
  split at hname
  · cases hname
    exact ⟨_, (hn.child hchild).site rfl⟩
  · cases hname

theorem placed_ownNameVisits {place : DeclarationPlace} (hn : PartOf root n) :
    ∀ v ∈ ownNameVisits place n, v.Placed root := by
  intro v hv
  unfold ownNameVisits at hv
  split at hv
  · rename_i name span hname
    obtain rfl := List.mem_singleton.mp hv
    exact bindingAt_ownName? hn hname
  · cases hv

theorem placed_entering (hn : PartOf root n) (hpath : ∀ f ∈ path, PartOf root f.node) :
    ∀ v ∈ entering path n, v.Placed root := by
  have hbefore {place : DeclarationPlace} {kind : ScopeKind} :
      ∀ v ∈ ownNameVisits place n ++ [.enter kind], v.Placed root :=
    List.forall_mem_append.mpr ⟨placed_ownNameVisits hn, List.forall_mem_singleton.mpr trivial⟩
  have hafter {place : DeclarationPlace} {kind : ScopeKind} :
      ∀ v ∈ .enter kind :: ownNameVisits place n, v.Placed root :=
    List.forall_mem_cons.mpr ⟨trivial, placed_ownNameVisits hn⟩
  unfold entering
  split
  · exact hbefore
  · exact hafter
  · exact hbefore
  · exact hafter
  · rename_i hk
    split
    · exact nofun
    · obtain ⟨kind, whole, children⟩ := n
      obtain rfl : kind = _ := hk
      exact List.forall_mem_singleton.mpr ⟨children, hn.site rfl⟩
  · rename_i hk
    exact List.forall_mem_singleton.mpr ⟨hn.siteSpan (by rw [hk]; rfl), placed_usage hpath⟩
  · intro v hv
    obtain ⟨site, hsite, rfl⟩ := List.mem_map.mp hv
    exact placed_callSite? hn hpath (Option.mem_toList.mp hsite)
  · intro v hv
    obtain ⟨scope, -, rfl⟩ := List.mem_map.mp hv
    trivial

mutual

theorem placed_visits (path : Path) (hpath : ∀ f ∈ path, PartOf root f.node) :
    (n : Node) → PartOf root n → ∀ v ∈ visits path n, v.Placed root
  | .mk kind span children, hn, v, hv => by
    rw [visits] at hv
    rcases List.mem_append.mp hv with hv | hv
    · rcases List.mem_append.mp hv with hv | hv
      · exact placed_entering hn hpath v hv
      · exact placed_childVisits path hpath _ hn 0 children (fun _ => hn.child) v hv
    · obtain ⟨_, -, rfl⟩ := List.mem_map.mp hv
      trivial

theorem placed_childVisits (path : Path) (hpath : ∀ f ∈ path, PartOf root f.node) (parent : Node)
    (hparent : PartOf root parent) (position : Nat) :
    (ns : List Node) → (∀ n ∈ ns, PartOf root n) →
      ∀ v ∈ childVisits path parent position ns, v.Placed root
  | [], _, v, hv => nomatch hv
  | n :: rest, hns, v, hv => by
    rw [childVisits] at hv
    rcases List.mem_append.mp hv with hv | hv
    · refine placed_visits _ (fun f hf => ?_) n (hns n (List.mem_cons_self ..)) v hv
      rcases List.mem_cons.mp hf with rfl | hf
      · exact hparent
      · exact hpath f hf
    · exact placed_childVisits path hpath parent hparent (position + 1) rest
        (fun m hm => hns m (List.mem_cons_of_mem _ hm)) v hv

end

end FlatBundle
