import FlatBundle.Scope.Analysis

/-!
The way through a script that declares names and the one that looks them up, as one way: neither one takes notice of
what only the other one does.
-/

namespace FlatBundle

open Script (Node)

variable {onEntering : Path → Node → List Visit} {keep : Visit → Bool}

/-- What happens on entering a node, on either way. -/
def entering (path : Path) (n : Node) : List Visit :=
  match n.kind with
  | .function .declaration _ _ _ => ownNameVisits .variable n ++ [.enter .function]
  | .function .expression _ _ _ => .enter .function :: ownNameVisits .here n
  | .classDef .declaration _ => ownNameVisits .here n ++ [.enter .classBody]
  | .classDef .expression _ => .enter .classBody :: ownNameVisits .here n
  | .binding name =>
    if isOwnName path then []
    else [.declare (declarationPlace path) name n.span (isShorthandBinding path)]
  | .reference name => [.refer name n.span (isShorthandReference path) (usage path)]
  | .call => (callSite? path n).toList.map .call
  | kind => (scopeKind? kind).toList.map .enter

mutual

/-- What happens on the way through a node, on either way. -/
def visits (path : Path) : Node → List Visit
  | .mk kind span children =>
    let n := Node.mk kind span children
    entering path n ++ childVisits path n 0 children ++ leaving n

def childVisits (path : Path) (parent : Node) (position : Nat) : List Node → List Visit
  | [] => []
  | n :: rest => visits (⟨parent, position⟩ :: path) n ++ childVisits path parent (position + 1) rest

end

namespace Visit

/-- What only the way that looks names up does. -/
def isUse : Visit → Bool
  | refer _ _ _ _ | call _ => true
  | enter _ | leave | declare _ _ _ _ => false

/-- What only the way that declares names does. -/
def isDeclaration : Visit → Bool
  | declare _ _ _ _ => true
  | enter _ | leave | refer _ _ _ _ | call _ => false

end Visit

section Filters

theorem filter_ownNameVisits (place : DeclarationPlace) (n : Node) :
    (ownNameVisits place n).filter (!·.isUse) = ownNameVisits place n ∧
      (ownNameVisits place n).filter (!·.isDeclaration) = [] := by
  unfold ownNameVisits
  split <;> exact ⟨rfl, rfl⟩

theorem callSite?_eq_none {path : Path} {n : Node} (h : n.kind ≠ .call) : callSite? path n = none := by
  unfold callSite?
  split
  · exact absurd rfl h
  · rfl

theorem declaredOnEntering_eq (path : Path) (n : Node) :
    declaredOnEntering path n = (entering path n).filter (!·.isUse) := by
  have hown (place : DeclarationPlace) := (filter_ownNameVisits place n).1
  have henter (kind : Option ScopeKind) :
      (kind.toList.map Visit.enter).filter (!·.isUse) = kind.toList.map .enter := by
    cases kind <;> rfl
  unfold entering
  split
  case h_1 hk | h_3 hk =>
    rw [declaredOnEntering, hk, List.filter_append, hown]
    rfl
  case h_2 hk | h_4 hk =>
    rw [declaredOnEntering, hk, List.filter_cons_of_pos rfl, hown]
  case h_5 hk =>
    rw [declaredOnEntering, hk]
    cases isOwnName path <;> rfl
  case h_6 hk =>
    rw [declaredOnEntering, hk]
    rfl
  case h_7 hk =>
    rw [declaredOnEntering, hk]
    cases callSite? path n <;> rfl
  case h_8 hdeclaration hexpression hclass hclassExpression hbinding _ _ =>
    rw [henter]
    unfold declaredOnEntering
    split
    case h_1 hk => exact absurd hk (hdeclaration _ _ _)
    case h_2 hk => exact absurd hk (hexpression _ _ _)
    case h_3 hk => exact absurd hk (hclass _)
    case h_4 hk => exact absurd hk (hclassExpression _)
    case h_5 hk => exact absurd hk (hbinding _)
    case h_6 => rfl

theorem usedOnEntering_eq (path : Path) (n : Node) :
    usedOnEntering path n = (entering path n).filter (!·.isDeclaration) := by
  have hown (place : DeclarationPlace) := (filter_ownNameVisits place n).2
  have henter (kind : Option ScopeKind) :
      (kind.toList.map Visit.enter).filter (!·.isDeclaration) = kind.toList.map .enter := by
    cases kind <;> rfl
  unfold entering
  split
  case h_1 hk | h_3 hk =>
    rw [usedOnEntering, callSite?_eq_none (by rw [hk]; nofun), hk, List.filter_append, hown]
    rfl
  case h_2 hk | h_4 hk =>
    rw [usedOnEntering, callSite?_eq_none (by rw [hk]; nofun), hk, List.filter_cons_of_pos rfl, hown]
    rfl
  case h_5 hk =>
    rw [usedOnEntering, callSite?_eq_none (by rw [hk]; nofun), hk]
    cases isOwnName path <;> rfl
  case h_6 hk =>
    rw [usedOnEntering, callSite?_eq_none (by rw [hk]; nofun), hk]
    rfl
  case h_7 hk =>
    rw [usedOnEntering, hk]
    cases callSite? path n <;> rfl
  case h_8 hreference hcall =>
    rw [henter, usedOnEntering, callSite?_eq_none hcall]
    split
    case h_1 hk => exact absurd hk (hreference _)
    case h_2 => exact List.append_nil _

mutual

theorem visitsBy_eq_filter (hentering : ∀ path n, onEntering path n = (entering path n).filter keep)
    (hleave : keep .leave) (path : Path) :
    (n : Node) → visitsBy onEntering path n = (visits path n).filter keep
  | .mk kind span children => by
    have hleaving : (leaving (.mk kind span children)).filter keep = leaving (.mk kind span children) := by
      rw [leaving]
      cases scopeKind? (Node.mk kind span children).kind with
      | none => rfl
      | some => simp [hleave]
    rw [visitsBy, visits, List.filter_append, List.filter_append, hentering, hleaving,
      childVisitsBy_eq_filter hentering hleave]

theorem childVisitsBy_eq_filter (hentering : ∀ path n, onEntering path n = (entering path n).filter keep)
    (hleave : keep .leave) (path : Path) (parent : Node) (position : Nat) :
    (ns : List Node) →
      childVisitsBy onEntering path parent position ns = (childVisits path parent position ns).filter keep
  | [] => by rw [childVisitsBy, childVisits, List.filter_nil]
  | n :: rest => by
    rw [childVisitsBy, childVisits, List.filter_append, visitsBy_eq_filter hentering hleave,
      childVisitsBy_eq_filter hentering hleave]

end

end Filters

/-- What a step takes no notice of can be left out. -/
theorem foldl_filter_of_unnoticed {α β : Type} {keep : β → Bool} {step : α → β → α}
    (h : ∀ a b, keep b = false → step a b = a) (a : α) (bs : List β) :
    (bs.filter keep).foldl step a = bs.foldl step a := by
  rw [List.foldl_filter]
  congr
  funext a b
  split
  · rfl
  · next hb => exact (h a b (by simpa using hb)).symm

theorem declareAll_visits (n : Node) :
    declareAll (visitsBy declaredOnEntering [] n) = declareAll (visits [] n) := by
  rw [visitsBy_eq_filter declaredOnEntering_eq rfl, declareAll, foldl_filter_of_unnoticed, declareAll]
  intro d v hv
  cases v <;> first | rfl | cases hv

theorem resolveAll_visits (tree : ScopeTree) (n : Node) :
    resolveAll tree (visitsBy usedOnEntering [] n) = resolveAll tree (visits [] n) := by
  rw [visitsBy_eq_filter usedOnEntering_eq rfl, resolveAll, foldl_filter_of_unnoticed, resolveAll]
  intro r v hv
  cases v <;> first | rfl | cases hv

theorem Analysis.ofProgram_eq (p : Script.Program) (source : String) : ofProgram p source =
    let r := resolveAll (declareAll (visits [] p.tree)) (visits [] p.tree)
    ⟨r.tree, r.calls, p.mapComment source.toList⟩ := by
  rw [ofProgram, declareAll_visits, resolveAll_visits]

end FlatBundle
