import FlatBundle.Proofs.Scope.Trail
import FlatBundle.Proofs.Scope.Visit

/-!
The variables that calls give their whole values: each of them is declared right before the call, in the
same scope.
-/

namespace FlatBundle

open Script (Span Node Kind SiteIn VariableKind)

variable {root n parent : Node} {path : Path} {tr : Trail} {at_ : Nat} {site : CallSite}
  {d : DeclaratorSite}

/-- A path leads from a root to a node. -/
inductive PathTo (root : Node) : Path → Node → Prop
  | root : PathTo root [] root
  | child {path : Path} {parent n : Node} {k : Nat} (h : PathTo root path parent)
    (hk : parent.children[k]? = some n) : PathTo root (⟨parent, k⟩ :: path) n

theorem PathTo.partOf (h : PathTo root path n) : PartOf root n := by
  induction h with
  | root => exact fun _ hm => hm
  | @child path parent n k _ hk ih =>
    obtain ⟨kind, span, children⟩ := parent
    exact ih.child (List.mem_of_getElem? hk)

/-- Where a declarator of a kind declares its name. -/
def placeOf : VariableKind → DeclarationPlace
  | .var => .variable
  | .lexical => .here

/-- A declarator gets its value from a call at a span; its name stands at `own`. -/
def DeclaratorAt (root : Node) (d : DeclaratorSite) (kind : VariableKind) (call own : Span) : Prop :=
  ∃ declared declarators span names args rest,
    SiteIn (.mk (.variables declared) d.declaration declarators) root.sites ∧
    d.declarators = declarators.map Node.span ∧
    declarators[d.position]? = some (.mk (.declarator kind) span
      (.mk (.binding d.name) own names :: .mk .call call args :: rest))

theorem callSite?_eq_some (h : callSite? path n = some site) :
    n.kind = .call ∧ n.span = site.span ∧ site.declarator = declaratorSite? path := by
  unfold callSite? at h
  split at h
  · obtain ⟨specifier, -, rfl⟩ := Option.map_eq_some_iff.mp h
    exact ⟨rfl, rfl, rfl⟩
  · cases h

theorem mem_entering_call (h : .call site ∈ entering path n) :
    entering path n = [.call site] ∧ callSite? path n = some site := by
  have hown {place : DeclarationPlace} : Visit.call site ∉ ownNameVisits place n := by
    unfold ownNameVisits
    split <;> simp
  unfold entering at h ⊢
  split at h
  case h_7 =>
    obtain ⟨site', hsite, heq⟩ := List.mem_map.mp h
    cases heq
    rw [Option.mem_toList.mp hsite]
    exact ⟨rfl, rfl⟩
  case h_5 => split at h <;> simp at h
  all_goals simp [hown] at h

/-- The frames around a variable that gets its value from a call. -/
theorem declaratorSite?_eq_some (h : declaratorSite? path = some d) :
    ∃ kind span own names rest declared declaration declarators outer,
      path = ⟨.mk (.declarator kind) span (.mk (.binding d.name) own names :: rest), 1⟩ ::
        ⟨.mk (.variables declared) declaration declarators, d.position⟩ :: outer ∧
      d.declaration = declaration ∧ d.declarators = declarators.map Node.span := by
  unfold declaratorSite? at h
  split at h
  · split at h
    · cases h
    · cases h
      exact ⟨_, _, _, _, _, _, _, _, _, rfl, rfl, rfl⟩
  · cases h

theorem mem_locate_declarator {kind : VariableKind} {span own : Span} {name : String}
    {names rest : List Node} :
    (tr.current, .declare (placeOf kind) name own false) ∈
      tr.locate (visits path (.mk (.declarator kind) span (.mk (.binding name) own names :: rest))) := by
  have hplace : declarationPlace
      (⟨.mk (.declarator kind) span (.mk (.binding name) own names :: rest), 0⟩ :: path) =
      placeOf kind := by
    cases kind <;> rfl
  have hentering : entering path (.mk (.declarator kind) span (.mk (.binding name) own names :: rest)) =
      [] := rfl
  have hfirst : entering
      (⟨.mk (.declarator kind) span (.mk (.binding name) own names :: rest), 0⟩ :: path)
      (.mk (.binding name) own names) = [.declare (placeOf kind) name own false] := by
    rw [← hplace]
    rfl
  rw [visits, hentering, childVisits, visits, hfirst]
  exact List.mem_cons_self ..

theorem exists_declaration_of_value (tr : Trail) {k : Nat} {m : Node} (hn : PathTo root path n)
    (hm : n.children[k]? = some m) (hcall : callSite? (⟨n, k⟩ :: path) m = some site)
    (hd : site.declarator = some d) :
    ∃ kind own, DeclaratorAt root d kind site.span own ∧ entering path n = [] ∧
      (tr.current, .declare (placeOf kind) d.name own false) ∈ tr.locate (visits path n) := by
  obtain ⟨hkind, hspan, hdeclarator⟩ := callSite?_eq_some hcall
  obtain ⟨kind, span, own, names, rest, declared, declaration, declarators, outer, hpath,
    hdeclaration, hdeclarators⟩ := declaratorSite?_eq_some (hdeclarator.symm.trans hd)
  obtain ⟨hframe, rfl⟩ := List.cons.inj hpath
  obtain ⟨rfl, rfl⟩ := Frame.mk.inj hframe
  obtain ⟨mkind, mspan, args⟩ := m
  obtain rfl : mkind = .call := hkind
  obtain rfl : mspan = site.span := hspan
  obtain ⟨rest, rfl⟩ : ∃ others, rest = .mk .call site.span args :: others := by
    cases rest with
    | nil => cases hm
    | cons m others =>
      have hvalue : m = .mk .call site.span args := Option.some.inj hm
      exact ⟨others, by rw [hvalue]⟩
  refine ⟨kind, own, ?_, rfl, mem_locate_declarator⟩
  cases hn with
  | child houter hat =>
    exact ⟨declared, declarators, span, names, args, rest, hdeclaration ▸ houter.partOf.site rfl,
      hdeclarators, hat⟩

mutual

theorem exists_declaration_of_call (tr : Trail) (path : Path) :
    (n : Node) → PathTo root path n → (at_, .call site) ∈ tr.locate (visits path n) →
      site.declarator = some d →
      (callSite? path n = some site ∧ at_ = tr.current) ∨
        ∃ kind own, DeclaratorAt root d kind site.span own ∧
          (at_, .declare (placeOf kind) d.name own false) ∈ tr.locate (visits path n)
  | .mk kind span children, hn, he, hd => by
    let n := Node.mk kind span children
    have hvisits : visits path (.mk kind span children) =
        entering path n ++ childVisits path n 0 children ++ leaving n := by
      rw [visits]
    rw [hvisits, Trail.locate_append, Trail.locate_append] at he
    rcases List.mem_append.mp he with he | he
    · rcases List.mem_append.mp he with he | he
      · have hentering := mem_entering_call (Trail.mem_of_mem_locate he)
        rw [hentering.1] at he
        obtain heq := List.mem_singleton.mp he
        exact .inl ⟨hentering.2, (Prod.mk.inj heq).1⟩
      · rcases exists_declaration_of_child (tr.after (entering path n)) path n hn 0 children
          (fun k m hm => by rwa [Nat.zero_add]) he hd with
          ⟨k, m, hm, hcall, hat⟩ | ⟨kind, own, hown, hmem⟩
        · -- the call is a child of this node, which is then its declarator
          obtain ⟨kind, own, hown, hentering, hmem⟩ :=
            exists_declaration_of_value tr hn hm hcall hd
          rw [hentering] at hat
          exact .inr ⟨kind, own, hown, hat ▸ hmem⟩
        · refine .inr ⟨kind, own, hown, ?_⟩
          rw [hvisits, Trail.locate_append, Trail.locate_append]
          exact List.mem_append_left _ (List.mem_append_right _ hmem)
    · have hleave := Trail.mem_of_mem_locate he
      obtain ⟨_, -, heq⟩ := List.mem_map.mp hleave
      cases heq

theorem exists_declaration_of_child (tr : Trail) (path : Path) (parent : Node)
    (hparent : PathTo root path parent) (position : Nat) :
    (ns : List Node) → (∀ k m, ns[k]? = some m → parent.children[position + k]? = some m) →
      (at_, .call site) ∈ tr.locate (childVisits path parent position ns) →
      site.declarator = some d →
      (∃ k m, parent.children[k]? = some m ∧ callSite? (⟨parent, k⟩ :: path) m = some site ∧
        at_ = tr.current) ∨
        ∃ kind own, DeclaratorAt root d kind site.span own ∧
          (at_, .declare (placeOf kind) d.name own false) ∈
            tr.locate (childVisits path parent position ns)
  | [], _, he, _ => by
    rw [childVisits] at he
    cases he
  | m :: rest, hns, he, hd => by
    have hm : parent.children[position]? = some m := hns 0 m rfl
    have hrest : ∀ k o, rest[k]? = some o → parent.children[position + 1 + k]? = some o := by
      intro k o ho
      have hshift := hns (k + 1) o ho
      rwa [Nat.add_assoc, Nat.add_comm 1 k]
    rw [childVisits, Trail.locate_append] at he ⊢
    obtain ⟨hstack, -, -⟩ := balanced_visits (⟨parent, position⟩ :: path) m tr
    rcases List.mem_append.mp he with he | he
    · rcases exists_declaration_of_call tr (⟨parent, position⟩ :: path) m (.child hparent hm) he hd
        with ⟨hcall, hat⟩ | ⟨kind, own, hown, hmem⟩
      · exact .inl ⟨position, m, hm, hcall, hat⟩
      · exact .inr ⟨kind, own, hown, List.mem_append_left _ hmem⟩
    · have hcurrent : (tr.after (visits (⟨parent, position⟩ :: path) m)).current = tr.current := by
        rw [Trail.current, hstack, Trail.current]
      rcases exists_declaration_of_child _ path parent hparent (position + 1) rest hrest he hd
        with ⟨k, o, ho, hcall, hat⟩ | ⟨kind, own, hown, hmem⟩
      · exact .inl ⟨k, o, ho, hcall, hat.trans hcurrent⟩
      · exact .inr ⟨kind, own, hown, List.mem_append_right _ hmem⟩

end

end FlatBundle
