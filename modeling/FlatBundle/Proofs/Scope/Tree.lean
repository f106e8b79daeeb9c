import FlatBundle.Proofs.Distinct
import FlatBundle.Scope.Tree
import Mathlib.Data.List.Basic
import Mathlib.Data.List.Find

/-!
Trees of scopes as they grow. Scopes are numbered from the outside in; what a tree says of a scope and
of its names stays true when scopes, names and references are added.
-/

namespace FlatBundle

open Script (Span)

namespace ScopeTree

variable {t t' t'' : ScopeTree} {s parent b at_ : Nat} {name : String} {kind : ScopeKind}
  {r : Reference} {span : Span} {shorthand : Bool} {place : DeclarationPlace}

section Access

@[simp]
theorem scope_addReference : (t.addReference r).scope s = t.scope s :=
  rfl

@[simp]
theorem size_addReference : (t.addReference r).scopes.size = t.scopes.size :=
  rfl

@[simp]
theorem size_modifyScope {f : Scope → Scope} : (t.modifyScope at_ f).scopes.size = t.scopes.size :=
  Array.size_modify

theorem scope_modifyScope {f : Scope → Scope} (h : at_ < t.scopes.size) :
    (t.modifyScope at_ f).scope s = if s = at_ then f (t.scope s) else t.scope s := by
  simp only [modifyScope, scope, Array.getD_eq_getD_getElem?, Array.getElem?_modify]
  by_cases hs : at_ = s
  · subst hs
    simp [h]
  · simp [hs, Ne.symm hs]

theorem scope_addScope : (t.addScope parent kind).scope s =
    if s = t.scopes.size then { parent := some parent, kind } else t.scope s := by
  simp only [addScope, scope, Array.getD_eq_getD_getElem?, Array.getElem?_push]
  split <;> simp

@[simp]
theorem size_addScope : (t.addScope parent kind).scopes.size = t.scopes.size + 1 := by
  simp [addScope]

theorem binding_addReference (h : r.binding < t.bindings.size) : (t.addReference r).binding b =
    if b = r.binding then
      { t.binding b with references := (t.binding b).references ++ [t.references.size] }
    else t.binding b := by
  simp only [addReference, binding, Array.getD_eq_getD_getElem?, Array.getElem?_modify]
  by_cases hb : r.binding = b
  · subst hb
    simp [h]
  · simp [hb, Ne.symm hb]

theorem reference_addReference {k : Nat} : (t.addReference r).reference k =
    if k = t.references.size then r else t.reference k := by
  simp only [addReference, reference, Array.getD_eq_getD_getElem?, Array.getElem?_push]
  split <;> rfl

end Access

section Chain

/-- Each scope but the wrapper is inside of an earlier one. -/
structure Nested (t : ScopeTree) : Prop where
  parent_lt : ∀ s parent, (t.scope s).parent = some parent → parent < s
  rooted : ∀ s < t.scopes.size, s ≠ wrapperScope → (t.scope s).parent ≠ none

theorem Nested.chainFor_eq (h : t.Nested) {fuel : Nat} (hs : s < fuel) :
    t.chainFor fuel s = t.chain s := by
  induction s using Nat.strongRecOn generalizing fuel with
  | ind s ih =>
    obtain ⟨fuel, rfl⟩ : ∃ n, fuel = n + 1 := ⟨fuel - 1, by omega⟩
    rw [chain, chainFor, chainFor]
    cases hp : (t.scope s).parent with
    | none => rfl
    | some parent =>
      have hlt : parent < s := h.parent_lt s parent hp
      dsimp only
      rw [ih parent hlt (by omega), ih parent hlt hlt]

theorem Nested.chain_eq (h : t.Nested) :
    t.chain s = s :: (match (t.scope s).parent with
      | some parent => t.chain parent
      | none => []) := by
  rw [chain, chainFor]
  cases hp : (t.scope s).parent with
  | none => rfl
  | some parent =>
    have hlt : parent < s := h.parent_lt s parent hp
    dsimp only
    rw [h.chainFor_eq hlt]

theorem Nested.chain_of_parent (h : t.Nested) (hp : (t.scope s).parent = some parent) :
    t.chain s = s :: t.chain parent := by
  rw [h.chain_eq, hp]

theorem mem_chain_self : s ∈ t.chain s :=
  List.mem_cons_self ..

theorem Nested.le_of_mem_chain (h : t.Nested) (ha : at_ ∈ t.chain s) : at_ ≤ s := by
  induction s using Nat.strongRecOn with
  | ind s ih =>
    rw [h.chain_eq] at ha
    rcases List.mem_cons.mp ha with rfl | ha
    · exact Nat.le_refl _
    · cases hp : (t.scope s).parent with
      | none => simp [hp] at ha
      | some parent =>
        rw [hp] at ha
        have hlt : parent < s := h.parent_lt s parent hp
        have hle := ih parent hlt ha
        omega

theorem Nested.pairwise_chain (h : t.Nested) : (t.chain s).Pairwise (· > ·) := by
  induction s using Nat.strongRecOn with
  | ind s ih =>
    rw [h.chain_eq]
    cases hp : (t.scope s).parent with
    | none => exact List.pairwise_singleton _ _
    | some parent =>
      have hlt : parent < s := h.parent_lt s parent hp
      refine List.pairwise_cons.mpr ⟨fun a ha => ?_, ih parent hlt⟩
      exact Nat.lt_of_le_of_lt (h.le_of_mem_chain ha) hlt

/-- Of two scopes on the way outwards, the later one comes first. -/
theorem Nested.mem_inner (h : t.Nested) {inner outer : List Nat} (hchain : t.chain s = inner ++ b :: outer)
    (ha : at_ ∈ t.chain s) (hlt : b < at_) : at_ ∈ inner := by
  have hsorted := h.pairwise_chain (s := s)
  rw [hchain] at ha hsorted
  rcases List.mem_append.mp ha with ha | ha
  · exact ha
  · rcases List.mem_cons.mp ha with rfl | ha
    · exact absurd hlt (Nat.lt_irrefl _)
    · have houter := (List.pairwise_cons.mp (List.pairwise_append.mp hsorted).2.1).1 _ ha
      exact absurd hlt (Nat.lt_asymm houter)

theorem Nested.wrapper_mem_chain (h : t.Nested) (hs : s < t.scopes.size) :
    wrapperScope ∈ t.chain s := by
  induction s using Nat.strongRecOn with
  | ind s ih =>
    by_cases hzero : s = wrapperScope
    · exact hzero ▸ mem_chain_self
    · cases hp : (t.scope s).parent with
      | none => exact absurd hp (h.rooted s hs hzero)
      | some parent =>
        have hlt : parent < s := h.parent_lt s parent hp
        rw [h.chain_of_parent hp]
        exact List.mem_cons_of_mem _ (ih parent hlt (Nat.lt_trans hlt hs))

/-- What a name means is decided by the innermost scope that binds it. -/
theorem findBinding_eq_some_iff : t.findBinding s name = some b ↔
    ∃ inner owner outer, t.chain s = inner ++ owner :: outer ∧
      (t.scope owner).bindings.lookup name = some b ∧
      ∀ a ∈ inner, (t.scope a).bindings.lookup name = none :=
  List.findSome?_eq_some_iff

end Chain

/-- A later stage of the growth of a tree. -/
structure Extends (t t' : ScopeTree) : Prop where
  size_le : t.scopes.size ≤ t'.scopes.size
  parent : ∀ s < t.scopes.size, (t'.scope s).parent = (t.scope s).parent
  kind : ∀ s < t.scopes.size, (t'.scope s).kind = (t.scope s).kind
  bindings : ∀ s < t.scopes.size, (t.scope s).bindings <+: (t'.scope s).bindings
  undeclared : ∀ s < t.scopes.size, (t.scope s).undeclared <+: (t'.scope s).undeclared

theorem lookup_of_isPrefix {xs ys : List (String × Nat)} (h : xs <+: ys)
    (hb : xs.lookup name = some b) : ys.lookup name = some b := by
  obtain ⟨more, rfl⟩ := h
  rw [List.lookup_append, hb, Option.some_or]

namespace Extends

theorem refl (t : ScopeTree) : t.Extends t :=
  ⟨Nat.le_refl _, fun _ _ => rfl, fun _ _ => rfl, fun _ _ => List.prefix_refl _,
    fun _ _ => List.prefix_refl _⟩

theorem trans (h : t.Extends t') (h' : t'.Extends t'') : t.Extends t'' := by
  have hlt {s : Nat} (hs : s < t.scopes.size) : s < t'.scopes.size :=
    Nat.lt_of_lt_of_le hs h.size_le
  exact ⟨Nat.le_trans h.size_le h'.size_le,
    fun s hs => (h'.parent s (hlt hs)).trans (h.parent s hs),
    fun s hs => (h'.kind s (hlt hs)).trans (h.kind s hs),
    fun s hs => (h.bindings s hs).trans (h'.bindings s (hlt hs)),
    fun s hs => (h.undeclared s hs).trans (h'.undeclared s (hlt hs))⟩

theorem lookup (h : t.Extends t') (hs : s < t.scopes.size)
    (hb : (t.scope s).bindings.lookup name = some b) :
    (t'.scope s).bindings.lookup name = some b :=
  lookup_of_isPrefix (h.bindings s hs) hb

theorem chain (h : t.Extends t') (ht : t.Nested) (ht' : t'.Nested) (hs : s < t.scopes.size) :
    t'.chain s = t.chain s := by
  induction s using Nat.strongRecOn with
  | ind s ih =>
    rw [ht.chain_eq, ht'.chain_eq, h.parent s hs]
    cases hp : (t.scope s).parent with
    | none => rfl
    | some parent =>
      have hlt : parent < s := ht.parent_lt s parent hp
      dsimp only
      rw [ih parent hlt (Nat.lt_trans hlt hs)]

theorem varScope (h : t.Extends t') (ht : t.Nested) (ht' : t'.Nested) (hs : s < t.scopes.size) :
    t'.varScope s = t.varScope s := by
  have hkind : ∀ a ∈ t.chain s, (t'.scope a).kind = (t.scope a).kind := fun a ha =>
    h.kind a (Nat.lt_of_le_of_lt (ht.le_of_mem_chain ha) hs)
  rw [ScopeTree.varScope, ScopeTree.varScope, h.chain ht ht' hs,
    List.find?_congr fun a ha => congrArg ScopeKind.holdsVars (hkind a ha)]

end Extends

section Growth

/-- A new name in a scope. -/
def bindName (t : ScopeTree) (scope : Nat) (name : String) : ScopeTree :=
  let bound : Binding := { name, scope, definition := some t.references.size }
  ({ t with bindings := t.bindings.push bound }).modifyScope scope fun s =>
    { s with bindings := s.bindings ++ [(name, t.bindings.size)] }

/-- A new name that no scope declares. -/
def noteUndeclared (t : ScopeTree) (name : String) : ScopeTree :=
  let bound : Binding := { name, scope := wrapperScope }
  ({ t with bindings := t.bindings.push bound }).modifyScope wrapperScope fun s =>
    { s with undeclared := s.undeclared ++ [(name, t.bindings.size)] }

theorem declare_of_bound (h : (t.scope s).bindings.lookup name = some b) :
    t.declare s name span at_ shorthand = t.addReference ⟨span, at_, b, true, shorthand, .plain⟩ := by
  rw [declare, h]

theorem declare_of_new (h : (t.scope s).bindings.lookup name = none) :
    t.declare s name span at_ shorthand =
      (t.bindName s name).addReference ⟨span, at_, t.bindings.size, true, shorthand, .plain⟩ := by
  rw [declare, h]
  rfl

theorem undeclaredBinding_of_new (h : (t.scope wrapperScope).undeclared.lookup name = none) :
    t.undeclaredBinding name = (t.noteUndeclared name, t.bindings.size) := by
  rw [undeclaredBinding, h]
  rfl

theorem undeclaredBinding_of_noted (h : (t.scope wrapperScope).undeclared.lookup name = some b) :
    t.undeclaredBinding name = (t, b) := by
  rw [undeclaredBinding, h]

theorem binding_push {bound : Binding} :
    binding { t with bindings := t.bindings.push bound } b =
      if b = t.bindings.size then bound else t.binding b := by
  simp only [binding, Array.getD_eq_getD_getElem?, Array.getElem?_push]
  split <;> simp

theorem size_bindings_bindName : (t.bindName s name).bindings.size = t.bindings.size + 1 := by
  simp [bindName, modifyScope]

theorem binding_bindName : (t.bindName s name).binding b =
    if b = t.bindings.size then { name, scope := s, definition := some t.references.size }
    else t.binding b :=
  binding_push

theorem size_bindings_noteUndeclared : (t.noteUndeclared name).bindings.size = t.bindings.size + 1 := by
  simp [noteUndeclared, modifyScope]

theorem binding_noteUndeclared : (t.noteUndeclared name).binding b =
    if b = t.bindings.size then { name, scope := wrapperScope } else t.binding b :=
  binding_push

/-- A binding without occurrences, ready to be found under some name. -/
theorem references_push {bound : Binding} (hfresh : bound.references = []) :
    (binding { t with bindings := t.bindings.push bound } b).references =
      (t.binding b).references := by
  rw [binding_push]
  split
  · rename_i hb
    have hnone : t.binding b = default := by
      simp [binding, hb]
    rw [hfresh, hnone]
    rfl
  · rfl

theorem scope_bindName {owner : Nat} (h : owner < t.scopes.size) : (t.bindName owner name).scope s =
    if s = owner then
      { t.scope s with bindings := (t.scope s).bindings ++ [(name, t.bindings.size)] }
    else t.scope s :=
  scope_modifyScope h

theorem scope_noteUndeclared (h : 0 < t.scopes.size) : (t.noteUndeclared name).scope s =
    if s = wrapperScope then
      { t.scope s with undeclared := (t.scope s).undeclared ++ [(name, t.bindings.size)] }
    else t.scope s :=
  scope_modifyScope h

theorem extends_addReference : t.Extends (t.addReference r) :=
  ⟨Nat.le_refl _, fun _ _ => rfl, fun _ _ => rfl, fun _ _ => List.prefix_refl _,
    fun _ _ => List.prefix_refl _⟩

theorem extends_addScope : t.Extends (t.addScope parent kind) := by
  have hold {s : Nat} (hs : s < t.scopes.size) : (t.addScope parent kind).scope s = t.scope s := by
    rw [scope_addScope, if_neg (Nat.ne_of_lt hs)]
  refine ⟨by simp, fun s hs => ?_, fun s hs => ?_, fun s hs => ?_, fun s hs => ?_⟩
  all_goals simp [hold hs]

theorem extends_bindName {owner : Nat} (h : owner < t.scopes.size) :
    t.Extends (t.bindName owner name) := by
  refine ⟨by simp [bindName], fun s _ => ?_, fun s _ => ?_, fun s _ => ?_, fun s _ => ?_⟩
  all_goals
    rw [scope_bindName h]
    split <;> simp

theorem extends_noteUndeclared (h : 0 < t.scopes.size) : t.Extends (t.noteUndeclared name) := by
  refine ⟨by simp [noteUndeclared], fun s _ => ?_, fun s _ => ?_, fun s _ => ?_, fun s _ => ?_⟩
  all_goals
    rw [scope_noteUndeclared h]
    split <;> simp

end Growth

/-- The scopes, names and references of a tree go together. -/
structure Sound (t : ScopeTree) : Prop extends t.Nested where
  pos : 0 < t.scopes.size
  bound : ∀ s, ∀ e ∈ (t.scope s).bindings,
    e.2 < t.bindings.size ∧ (t.binding e.2).name = e.1 ∧ (t.binding e.2).scope = s
  undeclared : ∀ s, ∀ e ∈ (t.scope s).undeclared, e.2 < t.bindings.size
  names : ∀ s, ((t.scope s).bindings.map (·.1)).Nodup
  indexed : ∀ b, (t.binding b).references =
    (List.range t.references.size).filter fun k => (t.reference k).binding == b

namespace Sound

theorem varScope_lt (h : t.Sound) (hs : s < t.scopes.size) : t.varScope s < t.scopes.size := by
  unfold varScope
  cases hfind : (t.chain s).find? fun a => (t.scope a).kind.holdsVars with
  | none => exact h.pos
  | some a =>
    have hle : a ≤ s := h.le_of_mem_chain (List.mem_of_find?_eq_some hfind)
    exact Nat.lt_of_le_of_lt hle hs

theorem addReference (h : t.Sound) (hr : r.binding < t.bindings.size) :
    (t.addReference r).Sound := by
  have hold (k : Nat) (hk : k < t.references.size) :
      (t.addReference r).reference k = t.reference k := by
    rw [reference_addReference, if_neg (Nat.ne_of_lt hk)]
  have hnew : (t.addReference r).reference t.references.size = r := by
    rw [reference_addReference, if_pos rfl]
  refine ⟨⟨h.parent_lt, h.rooted⟩, h.pos, fun s e he => ?_, fun s e he => ?_, h.names, fun b => ?_⟩
  · obtain ⟨hlt, hname, hscope⟩ := h.bound s e he
    refine ⟨by simpa [ScopeTree.addReference] using hlt, ?_, ?_⟩ <;>
      rw [binding_addReference hr] <;> split <;> assumption
  · simpa [ScopeTree.addReference] using h.undeclared s e he
  · have hsize : (t.addReference r).references.size = t.references.size + 1 := by
      simp [ScopeTree.addReference]
    have hrest : (List.range t.references.size).filter
        (fun k => ((t.addReference r).reference k).binding == b) = (t.binding b).references := by
      rw [h.indexed b]
      refine List.filter_congr fun k hk => ?_
      rw [hold k (List.mem_range.mp hk)]
    rw [hsize, List.range_succ, List.filter_append, hrest, binding_addReference hr, List.filter_singleton,
      hnew]
    by_cases hb : b = r.binding
    · simp [hb]
    · have hne : (r.binding == b) = false := by simpa using Ne.symm hb
      simp [hb, hne]

theorem addScope (h : t.Sound) (hp : parent < t.scopes.size) : (t.addScope parent kind).Sound := by
  have hparent (s : Nat) : ((t.addScope parent kind).scope s).parent =
      if s = t.scopes.size then some parent else (t.scope s).parent := by
    rw [scope_addScope]
    split <;> rfl
  refine ⟨⟨fun s outer houter => ?_, fun s hs hs0 => ?_⟩, by simp, fun s e he => ?_, fun s e he => ?_,
    fun s => ?_, h.indexed⟩
  · rw [hparent] at houter
    split at houter
    · cases houter
      omega
    · exact h.parent_lt s outer houter
  · rw [hparent]
    split
    · simp
    · rw [size_addScope] at hs
      exact h.rooted s (by omega) hs0
  · rw [scope_addScope] at he
    split at he
    · cases he
    · exact h.bound s e he
  · rw [scope_addScope] at he
    split at he
    · cases he
    · exact h.undeclared s e he
  · rw [scope_addScope]
    split
    · exact List.nodup_nil
    · exact h.names s

theorem bindName (h : t.Sound) {owner : Nat} (hs : owner < t.scopes.size)
    (hnew : (t.scope owner).bindings.lookup name = none) : (t.bindName owner name).Sound := by
  have hscope (s : Nat) := @scope_bindName t s name owner hs
  have hsize : (t.bindName owner name).bindings.size = t.bindings.size + 1 := size_bindings_bindName
  have hparent (s : Nat) : ((t.bindName owner name).scope s).parent = (t.scope s).parent := by
    rw [hscope]
    split <;> rfl
  have hold (s : Nat) (e : String × Nat) (he : e ∈ (t.scope s).bindings) :
      e.2 < (t.bindName owner name).bindings.size ∧
        ((t.bindName owner name).binding e.2).name = e.1 ∧
        ((t.bindName owner name).binding e.2).scope = s := by
    obtain ⟨hlt, hname, howner⟩ := h.bound s e he
    rw [binding_bindName, if_neg (Nat.ne_of_lt hlt)]
    exact ⟨by omega, hname, howner⟩
  refine ⟨⟨fun s outer houter => ?_, fun s hlt hs0 => ?_⟩, ?_, fun s e he => ?_, fun s e he => ?_,
    fun s => ?_, fun b => ?_⟩
  · exact h.parent_lt s outer (hparent s ▸ houter)
  · rw [hparent]
    exact h.rooted s (by simpa [ScopeTree.bindName] using hlt) hs0
  · simpa [ScopeTree.bindName] using h.pos
  · rw [hscope] at he
    split at he
    · rename_i hs'
      rcases List.mem_append.mp he with he | he
      · exact hold s e he
      · obtain rfl := List.mem_singleton.mp he
        rw [binding_bindName, if_pos rfl]
        exact ⟨by omega, rfl, hs'.symm⟩
    · exact hold s e he
  · have he : e ∈ (t.scope s).undeclared := by
      rw [hscope] at he
      split at he <;> exact he
    have hlt := h.undeclared s e he
    omega
  · rw [hscope]
    split
    · rename_i hs'
      have hfree : name ∉ (t.scope s).bindings.map (·.1) := by
        intro hmem
        obtain ⟨e, he, rfl⟩ := List.mem_map.mp hmem
        have hne := List.lookup_eq_none_iff.mp hnew e (hs' ▸ he)
        simp at hne
      rw [List.map_append]
      refine List.nodup_append.mpr ⟨h.names s, List.pairwise_singleton _ _, fun x hx y hy heq => ?_⟩
      obtain rfl : y = name := List.mem_singleton.mp hy
      exact hfree (heq ▸ hx)
    · exact h.names s
  · exact (references_push rfl).trans (h.indexed b)

theorem noteUndeclared (h : t.Sound) : (t.noteUndeclared name).Sound := by
  have hscope (s : Nat) := @scope_noteUndeclared t s name h.pos
  have hsize : (t.noteUndeclared name).bindings.size = t.bindings.size + 1 := size_bindings_noteUndeclared
  have hparent (s : Nat) : ((t.noteUndeclared name).scope s).parent = (t.scope s).parent := by
    rw [hscope]
    split <;> rfl
  have hbindings (s : Nat) : ((t.noteUndeclared name).scope s).bindings = (t.scope s).bindings := by
    rw [hscope]
    split <;> rfl
  refine ⟨⟨fun s outer houter => ?_, fun s hlt hs0 => ?_⟩, ?_, fun s e he => ?_, fun s e he => ?_,
    fun s => ?_, fun b => ?_⟩
  · exact h.parent_lt s outer (hparent s ▸ houter)
  · rw [hparent]
    exact h.rooted s (by simpa [ScopeTree.noteUndeclared] using hlt) hs0
  · simpa [ScopeTree.noteUndeclared] using h.pos
  · rw [hbindings] at he
    obtain ⟨hlt, hname, howner⟩ := h.bound s e he
    rw [binding_noteUndeclared, if_neg (Nat.ne_of_lt hlt)]
    exact ⟨by omega, hname, howner⟩
  · rw [hscope] at he
    split at he
    · rcases List.mem_append.mp he with he | he
      · have hlt := h.undeclared s e he
        omega
      · obtain rfl := List.mem_singleton.mp he
        omega
    · have hlt := h.undeclared s e he
      omega
  · rw [hbindings]
    exact h.names s
  · exact (references_push rfl).trans (h.indexed b)

theorem mem_of_lookup (hb : (t.scope s).bindings.lookup name = some b) :
    (name, b) ∈ (t.scope s).bindings := by
  obtain ⟨front, back, heq, -⟩ := List.lookup_eq_some_iff.mp hb
  rw [heq]
  simp

theorem lookup_of_mem (h : t.Sound) (he : (name, b) ∈ (t.scope s).bindings) :
    (t.scope s).bindings.lookup name = some b :=
  (lookup_eq_some_iff_mem (h.names s)).mpr he

/-- A binding is one of a name in a scope. -/
theorem eq_of_lookup (h : t.Sound) {s' : Nat} {name' : String}
    (hb : (t.scope s).bindings.lookup name = some b)
    (hb' : (t.scope s').bindings.lookup name' = some b) : s = s' ∧ name = name' := by
  obtain ⟨-, hname, howner⟩ := h.bound s _ (mem_of_lookup hb)
  obtain ⟨-, hname', howner'⟩ := h.bound s' _ (mem_of_lookup hb')
  exact ⟨howner.symm.trans howner', hname.symm.trans hname'⟩

theorem referencesOf_eq (h : t.Sound) :
    t.referencesOf b = t.references.toList.filter (·.binding == b) := by
  have hlist : t.references.toList = (List.range t.references.size).map t.reference := by
    refine List.ext_getElem (by simp) fun k hk _ => ?_
    have hk : k < t.references.size := by simpa using hk
    simp [reference, Array.getD_eq_getD_getElem?, hk]
  rw [referencesOf, h.indexed, hlist, List.filter_map]
  rfl

end Sound

theorem Sound.lt_of_findBinding (h : t.Sound) (hb : t.findBinding at_ name = some b) :
    b < t.bindings.size := by
  obtain ⟨_, owner, _, -, hlookup, -⟩ := findBinding_eq_some_iff.mp hb
  exact (h.bound owner _ (Sound.mem_of_lookup hlookup)).1

/-- The scope that a declaration in scope `at_` puts its name into. -/
def declaringScope (t : ScopeTree) (place : DeclarationPlace) (at_ : Nat) : Nat :=
  match place with
  | .variable => t.varScope at_
  | .here => at_

theorem Sound.declaringScope_lt (h : t.Sound) (place : DeclarationPlace) (hat : at_ < t.scopes.size) :
    t.declaringScope place at_ < t.scopes.size := by
  match place with
  | .here => exact hat
  | .variable => exact h.varScope_lt hat

theorem Extends.declaringScope (h : t.Extends t') (ht : t.Nested) (ht' : t'.Nested)
    (place : DeclarationPlace) (hat : at_ < t.scopes.size) :
    t'.declaringScope place at_ = t.declaringScope place at_ := by
  match place with
  | .here => rfl
  | .variable => exact h.varScope ht ht' hat

/-- Looking names up changes neither scopes nor what they bind. -/
structure SameNames (t t' : ScopeTree) : Prop where
  size : t'.scopes.size = t.scopes.size
  parent : ∀ s, (t'.scope s).parent = (t.scope s).parent
  kind : ∀ s, (t'.scope s).kind = (t.scope s).kind
  bindings : ∀ s, (t'.scope s).bindings = (t.scope s).bindings

theorem SameNames.refl (t : ScopeTree) : t.SameNames t :=
  ⟨rfl, fun _ => rfl, fun _ => rfl, fun _ => rfl⟩

theorem SameNames.trans (h : t.SameNames t') (h' : t'.SameNames t'') : t.SameNames t'' :=
  ⟨h'.size.trans h.size, fun s => (h'.parent s).trans (h.parent s),
    fun s => (h'.kind s).trans (h.kind s), fun s => (h'.bindings s).trans (h.bindings s)⟩

theorem SameNames.chain (h : t.SameNames t') : t'.chain s = t.chain s := by
  have hfuel : ∀ fuel s, t'.chainFor fuel s = t.chainFor fuel s := by
    intro fuel
    induction fuel with
    | zero => exact fun _ => rfl
    | succ fuel ih =>
      intro s
      rw [chainFor, chainFor, h.parent]
      cases (t.scope s).parent with
      | none => rfl
      | some parent => exact congrArg (s :: ·) (ih parent)
  exact hfuel _ s

theorem SameNames.findBinding (h : t.SameNames t') :
    t'.findBinding at_ name = t.findBinding at_ name := by
  simp only [ScopeTree.findBinding, h.chain, h.bindings]

theorem SameNames.declaringScope (h : t.SameNames t') :
    t'.declaringScope place at_ = t.declaringScope place at_ := by
  match place with
  | .here => rfl
  | .variable => simp only [ScopeTree.declaringScope, varScope, h.chain, h.kind]

theorem sameNames_addReference {r : Reference} : t.SameNames (t.addReference r) :=
  ⟨rfl, fun _ => rfl, fun _ => rfl, fun _ => rfl⟩

theorem sameNames_noteUndeclared (h : 0 < t.scopes.size) (name : String) :
    t.SameNames (t.noteUndeclared name) := by
  refine ⟨by simp [noteUndeclared], fun s => ?_, fun s => ?_, fun s => ?_⟩
  all_goals
    rw [scope_noteUndeclared h]
    split <;> rfl

theorem sound_initial : initial.Sound := by
  have hscope (s : Nat) : initial.scope s = if s = 0 then
      { parent := none, kind := .wrapper, bindings := wrapperNames.zipIdx } else default := by
    cases s <;> rfl
  refine ⟨⟨fun s outer houter => ?_, fun s hs hs0 => ?_⟩, by decide, fun s e he => ?_,
    fun s e he => ?_, fun s => ?_, fun b => ?_⟩
  · rw [hscope] at houter
    split at houter <;> cases houter
  · have hsize : initial.scopes.size = 1 := rfl
    exact absurd (show s = wrapperScope by unfold wrapperScope; omega) hs0
  · rw [hscope] at he
    split at he
    · rename_i hs
      subst hs
      revert e
      decide
    · cases he
  · rw [hscope] at he
    split at he <;> cases he
  · rw [hscope]
    split
    · decide
    · exact List.nodup_nil
  · match b with
    | 0 | 1 | 2 | _ + 3 => rfl

end ScopeTree

end FlatBundle
