import FlatBundle.Proofs.Scope.Spots
import Mathlib.Data.List.Nodup
import Mathlib.Data.List.Perm.Basic

/-!
How the scopes, the names and the occurrences of a script refer to each other. Each name is listed once, in the scope
that it records; each occurrence is listed once, with the name that it records; and what declares a name comes before
what looks it up.
-/

namespace FlatBundle

open Script (Span)

namespace ScopeTree

variable {t t' : ScopeTree} {s owner parent b at_ : Nat} {name : String} {kind : ScopeKind} {bound : Binding}
  {r : Reference} {span : Span} {shorthand : Bool} {place : DeclarationPlace}

/-- What the scopes list, each with its scope. -/
def entries (t : ScopeTree) : List (Nat × String × Nat) :=
  (List.range t.scopes.size).flatMap fun s =>
    ((t.scope s).bindings ++ (t.scope s).undeclared).map fun e => (s, e.1, e.2)

/-- The bindings, each under the scope and the name that it records. -/
def records (t : ScopeTree) : List (Nat × String × Nat) :=
  (List.range t.bindings.size).map fun b => ((t.binding b).scope, (t.binding b).name, b)

/-- The scopes, the bindings and the references of a tree agree with each other. -/
structure WellFormed (t : ScopeTree) : Prop where
  parent_lt : ∀ s < t.scopes.size, s ≠ wrapperScope → ∃ parent < s, (t.scope s).parent = some parent
  wrapper_parent : (t.scope wrapperScope).parent = none
  /-- The way outwards ends in the wrapper, also where it might go on for longer. -/
  ends : ∀ s < t.scopes.size, (t.chain s).getLast? = some wrapperScope ∧
    ∀ fuel, s < fuel → t.chainFor fuel s = t.chain s
  listed : t.entries.Perm t.records
  undeclared : ∀ s, s ≠ wrapperScope → (t.scope s).undeclared = []
  received : (t.scope wrapperScope).bindings = wrapperNames.zipIdx
  recorded : ∀ k < t.references.size, (t.reference k).binding < t.bindings.size ∧
    ∀ b, (t.binding b).references.count k = if b = (t.reference k).binding then 1 else 0
  known : ∀ b, ∀ k ∈ (t.binding b).references, k < t.references.size
  ascending : ∀ b, (t.binding b).references.Pairwise (· < ·)
  declaring_first : ∀ b, (t.binding b).references.Pairwise fun j k =>
    (t.reference k).declares → (t.reference j).declares
  definition : ∀ b, (t.binding b).definition =
    (t.binding b).references.find? fun k => (t.reference k).declares
  undefined : ∀ b < t.bindings.size, (t.binding b).definition = none ↔
    ((t.binding b).name, b) ∈ (t.scope wrapperScope).bindings ∨
      ((t.binding b).name, b) ∈ (t.scope wrapperScope).undeclared

/-- Each binding is listed once, and the wrapper has the names that it has from the start. -/
structure Listed (t : ScopeTree) : Prop extends t.Sound where
  listed : t.entries.Perm t.records
  undeclared_eq_nil : ∀ s, s ≠ wrapperScope → (t.scope s).undeclared = []
  received : (t.scope wrapperScope).bindings = wrapperNames.zipIdx
  recorded : ∀ k < t.references.size, (t.reference k).binding < t.bindings.size

/-- Each binding also knows its first declaration. -/
structure Recorded (t : ScopeTree) : Prop extends t.Listed where
  definition : ∀ b, (t.binding b).definition =
    (t.binding b).references.find? fun k => (t.reference k).declares
  undefined : ∀ b < t.bindings.size, (t.binding b).definition = none ↔ (t.binding b).scope = wrapperScope

section Entries

theorem mem_entries_iff : (s, name, b) ∈ t.entries ↔
    s < t.scopes.size ∧ ((name, b) ∈ (t.scope s).bindings ∨ (name, b) ∈ (t.scope s).undeclared) := by
  rw [entries, List.mem_flatMap]
  constructor
  · rintro ⟨s', hs, hmem⟩
    obtain ⟨e, he, heq⟩ := List.mem_map.mp hmem
    cases heq
    exact ⟨List.mem_range.mp hs, List.mem_append.mp he⟩
  · rintro ⟨hs, he⟩
    exact ⟨s, List.mem_range.mpr hs, List.mem_map.mpr ⟨(name, b), List.mem_append.mpr he, rfl⟩⟩

theorem mem_records_iff : (s, name, b) ∈ t.records ↔
    b < t.bindings.size ∧ (t.binding b).scope = s ∧ (t.binding b).name = name := by
  rw [records, List.mem_map]
  constructor
  · rintro ⟨b', hb, heq⟩
    cases heq
    exact ⟨List.mem_range.mp hb, rfl, rfl⟩
  · rintro ⟨hb, rfl, rfl⟩
    exact ⟨b, List.mem_range.mpr hb, rfl⟩

open scoped List in
theorem perm_flatMap_of_cons {α : Type} {f g : Nat → List α} {n : Nat} {x : α} (h : owner < n)
    (howner : (g owner).Perm (x :: f owner)) (hother : ∀ s, s ≠ owner → g s = f s) :
    ((List.range n).flatMap g).Perm (x :: (List.range n).flatMap f) := by
  have hsplit := List.perm_cons_erase (List.mem_range.mpr h)
  have hrest : ((List.range n).erase owner).flatMap g = ((List.range n).erase owner).flatMap f :=
    List.flatMap_congr fun s hs => hother s (List.nodup_range.mem_erase_iff.mp hs).1
  calc (List.range n).flatMap g
    _ ~ g owner ++ ((List.range n).erase owner).flatMap g := hsplit.flatMap_right g
    _ ~ x :: (f owner ++ ((List.range n).erase owner).flatMap f) := hrest ▸ howner.append_right _
    _ ~ x :: (List.range n).flatMap f := (hsplit.symm.flatMap_right f).cons x

/-- A scope lists one more name. -/
theorem entries_perm_of_new (h : owner < t.scopes.size) (hsize : t'.scopes.size = t.scopes.size)
    (howner : ((t'.scope owner).bindings ++ (t'.scope owner).undeclared).Perm
      ((name, b) :: ((t.scope owner).bindings ++ (t.scope owner).undeclared)))
    (hother : ∀ s, s ≠ owner → t'.scope s = t.scope s) :
    t'.entries.Perm (t.entries ++ [(owner, name, b)]) := by
  rw [entries, hsize]
  refine (perm_flatMap_of_cons h (howner.map _) fun s hs => ?_).trans (List.perm_append_singleton _ _).symm
  rw [hother s hs]

theorem records_of_new (hsize : t'.bindings.size = t.bindings.size + 1)
    (hb : ∀ b, t'.binding b = if b = t.bindings.size then bound else t.binding b) :
    t'.records = t.records ++ [(bound.scope, bound.name, t.bindings.size)] := by
  rw [records, hsize, List.range_succ, List.map_append, List.map_singleton, hb, if_pos rfl]
  refine congrArg (· ++ _) (List.map_congr_left fun b hlt => ?_)
  rw [hb, if_neg (Nat.ne_of_lt (List.mem_range.mp hlt))]

end Entries

section Growth

theorem Sound.lt_of_mem_references (h : t.Sound) {k : Nat} (hk : k ∈ (t.binding b).references) :
    k < t.references.size := by
  rw [h.indexed] at hk
  exact List.mem_range.mp (List.mem_filter.mp hk).1

theorem Listed.addScope (h : t.Listed) (hp : parent < t.scopes.size) : (t.addScope parent kind).Listed := by
  have hscope (s : Nat) : s ≠ t.scopes.size → (t.addScope parent kind).scope s = t.scope s := fun hs => by
    rw [scope_addScope, if_neg hs]
  refine ⟨h.toSound.addScope hp, ?_, fun s hs => ?_, ?_, h.recorded⟩
  · have hentries : (t.addScope parent kind).entries = t.entries := by
      rw [entries, size_addScope, List.range_succ, List.flatMap_append, List.flatMap_singleton, scope_addScope,
        if_pos rfl]
      refine (List.append_nil _).trans (List.flatMap_congr fun s hs => ?_)
      rw [hscope s (Nat.ne_of_lt (List.mem_range.mp hs))]
    rw [hentries]
    exact h.listed
  · rw [scope_addScope]
    split
    · rfl
    · exact h.undeclared_eq_nil s hs
  · rw [hscope wrapperScope (Nat.ne_of_lt h.pos)]
    exact h.received

theorem Listed.addReference (h : t.Listed) (hr : r.binding < t.bindings.size) : (t.addReference r).Listed := by
  have hsize : (t.addReference r).bindings.size = t.bindings.size := Array.size_modify
  refine ⟨h.toSound.addReference hr, ?_, h.undeclared_eq_nil, h.received, fun k hk => ?_⟩
  · have hrecords : (t.addReference r).records = t.records := by
      rw [records, hsize]
      refine List.map_congr_left fun b _ => ?_
      rw [binding_addReference hr]
      split <;> rfl
    rw [hrecords]
    exact h.listed
  · rw [reference_addReference, hsize]
    split
    · exact hr
    · have hlt : k < t.references.size + 1 := by simpa [ScopeTree.addReference] using hk
      exact h.recorded k (by omega)

theorem Listed.bindName (h : t.Listed) (hs : owner < t.scopes.size) (howner : owner ≠ wrapperScope)
    (hnew : (t.scope owner).bindings.lookup name = none) : (t.bindName owner name).Listed := by
  have hscope (s : Nat) := @scope_bindName t s name owner hs
  refine ⟨h.toSound.bindName hs hnew, ?_, fun s hne => ?_, ?_, fun k hk => ?_⟩
  · have hentries : (t.bindName owner name).entries.Perm (t.entries ++ [(owner, name, t.bindings.size)]) := by
      refine entries_perm_of_new hs (by simp [ScopeTree.bindName]) ?_ fun s hne => by rw [hscope, if_neg hne]
      rw [hscope, if_pos rfl]
      exact List.append_assoc .. ▸ List.perm_middle
    rw [records_of_new size_bindings_bindName fun _ => binding_bindName]
    exact hentries.trans (h.listed.append_right _)
  · rw [hscope]
    split <;> exact h.undeclared_eq_nil s hne
  · rw [hscope, if_neg howner.symm]
    exact h.received
  · exact Nat.lt_of_lt_of_eq (Nat.lt_succ_of_lt (h.recorded k hk)) size_bindings_bindName.symm

theorem Listed.noteUndeclared (h : t.Listed) : (t.noteUndeclared name).Listed := by
  have hscope (s : Nat) := @scope_noteUndeclared t s name h.pos
  refine ⟨h.toSound.noteUndeclared, ?_, fun s hne => ?_, ?_, fun k hk => ?_⟩
  · have hentries : (t.noteUndeclared name).entries.Perm
        (t.entries ++ [(wrapperScope, name, t.bindings.size)]) := by
      refine entries_perm_of_new h.pos (by simp [ScopeTree.noteUndeclared]) ?_ fun s hne => by
        rw [hscope, if_neg hne]
      rw [hscope, if_pos rfl, ← List.append_assoc]
      exact List.perm_append_singleton _ _
    rw [records_of_new size_bindings_noteUndeclared fun _ => binding_noteUndeclared]
    exact hentries.trans (h.listed.append_right _)
  · rw [hscope, if_neg hne]
    exact h.undeclared_eq_nil s hne
  · rw [hscope, if_pos rfl]
    exact h.received
  · exact Nat.lt_of_lt_of_eq (Nat.lt_succ_of_lt (h.recorded k hk)) size_bindings_noteUndeclared.symm

theorem Recorded.addScope (h : t.Recorded) (hp : parent < t.scopes.size) : (t.addScope parent kind).Recorded :=
  ⟨h.toListed.addScope hp, h.definition, h.undefined⟩

/-- What the occurrences so far declare stays so. -/
theorem Sound.find?_declares (h : t.Sound) :
    ((t.binding b).references.find? fun k => ((t.addReference r).reference k).declares) =
      (t.binding b).references.find? fun k => (t.reference k).declares := by
  refine List.find?_congr fun k hk => ?_
  rw [reference_addReference, if_neg (Nat.ne_of_lt (h.lt_of_mem_references hk))]

theorem Recorded.addReference (h : t.Recorded) (hr : r.binding < t.bindings.size)
    (hdeclares : r.declares → (t.binding r.binding).definition ≠ none) : (t.addReference r).Recorded := by
  have hsize : (t.addReference r).bindings.size = t.bindings.size := Array.size_modify
  refine ⟨h.toListed.addReference hr, fun b => ?_, fun b hb => ?_⟩
  · rw [binding_addReference hr]
    split
    · rename_i heq
      subst heq
      dsimp only
      rw [List.find?_append, h.toSound.find?_declares, ← h.definition, List.find?_singleton,
        reference_addReference, if_pos rfl]
      by_cases hd : r.declares
      · obtain ⟨k, hk⟩ := Option.ne_none_iff_exists'.mp (hdeclares hd)
        rw [hk]
        rfl
      · rw [if_neg hd, Option.or_none]
    · exact (h.definition b).trans h.toSound.find?_declares.symm
  · rw [binding_addReference hr]
    split <;> exact h.undefined b (hsize ▸ hb)

theorem Recorded.noteUndeclared (h : t.Recorded) : (t.noteUndeclared name).Recorded := by
  refine ⟨h.toListed.noteUndeclared, fun b => ?_, fun b hb => ?_⟩
  · rw [binding_noteUndeclared]
    split
    · rfl
    · exact h.definition b
  · rw [binding_noteUndeclared]
    split
    · exact iff_of_true rfl rfl
    · have hlt : b < t.bindings.size + 1 := size_bindings_noteUndeclared ▸ hb
      exact h.undefined b (by omega)

/-- A new name and its first declaration come at once. -/
theorem Recorded.declare (h : t.Recorded) (hs : owner < t.scopes.size) (howner : owner ≠ wrapperScope) :
    (t.declare owner name span at_ shorthand).Recorded := by
  cases hb : (t.scope owner).bindings.lookup name with
  | some b =>
    obtain ⟨hlt, -, hscope⟩ := h.bound owner _ (Sound.mem_of_lookup hb)
    rw [declare_of_bound hb]
    exact h.addReference hlt fun _ => mt (h.undefined b hlt).mp (hscope ▸ howner)
  | none =>
    let r : Reference := ⟨span, at_, t.bindings.size, true, shorthand, .plain⟩
    have hlt : r.binding < (t.bindName owner name).bindings.size := size_bindings_bindName ▸ Nat.lt_succ_self _
    have hlisted := h.toListed.bindName hs howner hb
    have hbinding (b : Nat) : ((t.bindName owner name).addReference r).binding b =
        if b = t.bindings.size then
          { name, scope := owner, definition := some t.references.size, references := [t.references.size] }
        else t.binding b := by
      rw [binding_addReference hlt, binding_bindName]
      split <;> rfl
    have hreference : ((t.bindName owner name).addReference r).reference t.references.size = r :=
      reference_addReference.trans (if_pos rfl)
    rw [declare_of_new hb]
    refine ⟨hlisted.addReference hlt, fun b => ?_, fun b hb => ?_⟩
    · rw [hbinding]
      split
      · rw [List.find?_singleton, hreference]
        rfl
      · refine (h.definition b).trans (List.find?_congr fun k hk => ?_)
        have hk : k ≠ t.references.size := Nat.ne_of_lt (h.toSound.lt_of_mem_references hk)
        exact congrArg Reference.declares (reference_addReference.trans (if_neg hk)).symm
    · rw [hbinding]
      split
      · exact iff_of_false (Option.some_ne_none _) howner
      · have hlt' : b < t.bindings.size + 1 := by
          rw [← size_bindings_bindName]
          exact Nat.lt_of_lt_of_eq hb Array.size_modify
        exact h.undefined b (by omega)

theorem Recorded.settle {tree : ScopeTree} (h : t.Recorded) (hs : t.settle at_ name = (tree, b)) :
    tree.Recorded ∧ b < tree.bindings.size := by
  unfold ScopeTree.settle at hs
  split at hs
  next hfind =>
    cases hs
    exact ⟨h, h.toSound.lt_of_findBinding hfind⟩
  next =>
    cases hnoted : (t.scope wrapperScope).undeclared.lookup name with
    | some b' =>
      rw [undeclaredBinding_of_noted hnoted] at hs
      cases hs
      obtain ⟨front, back, heq, -⟩ := List.lookup_eq_some_iff.mp hnoted
      have hmem : (name, b) ∈ (t.scope wrapperScope).undeclared := heq ▸ by simp
      exact ⟨h, h.toSound.undeclared wrapperScope _ hmem⟩
    | none =>
      rw [undeclaredBinding_of_new hnoted] at hs
      cases hs
      exact ⟨h.noteUndeclared, size_bindings_noteUndeclared ▸ Nat.lt_succ_self _⟩

theorem recorded_initial : initial.Recorded := by
  have hscope (s : Nat) (hs : s ≠ wrapperScope) : initial.scope s = default := by
    have hsize : initial.scopes.size ≤ s := Nat.one_le_iff_ne_zero.mpr hs
    rw [scope, Array.getD_eq_getD_getElem?, Array.getElem?_eq_none hsize, Option.getD_none]
  have hbinding (b : Nat) (hb : 3 ≤ b) : initial.binding b = default := by
    have hsize : initial.bindings.size ≤ b := hb
    rw [binding, Array.getD_eq_getD_getElem?, Array.getElem?_eq_none hsize, Option.getD_none]
  refine ⟨⟨sound_initial, .refl _, fun s hs => ?_, rfl, fun k hk => absurd hk (Nat.not_lt_zero k)⟩,
    fun b => ?_, by decide⟩
  · rw [hscope s hs]
    rfl
  · rcases Nat.lt_or_ge b 3 with hb | hb
    · revert b
      decide
    · rw [hbinding b hb]
      rfl

end Growth

/-- Inside of a program, no name is declared on the wrapper. -/
theorem Nested.declaringScope_ne_wrapper (h : t.Nested) (hmem : programScope ∈ t.chain at_)
    (hkind : (t.scope programScope).kind = .program) : t.declaringScope place at_ ≠ wrapperScope := by
  intro heq
  match place with
  | .here =>
    obtain rfl : at_ = wrapperScope := heq
    exact absurd (h.le_of_mem_chain hmem) (by decide)
  | .variable =>
    have hsome : ((t.chain at_).find? fun a => (t.scope a).kind.holdsVars).isSome :=
      List.find?_isSome.mpr ⟨programScope, hmem, by rw [hkind]; rfl⟩
    obtain ⟨a, ha⟩ := Option.isSome_iff_exists.mp hsome
    obtain rfl : a = wrapperScope := by
      rwa [ScopeTree.declaringScope, varScope, ha] at heq
    obtain ⟨-, inner, outer, hchain, hinner⟩ := List.find?_eq_some_iff_append.mp ha
    have hnone := hinner _ (h.mem_inner hchain hmem (by decide))
    rw [hkind] at hnone
    exact absurd hnone (by decide)

theorem Recorded.wellFormed (h : t.Recorded) (houter : (t.scope wrapperScope).parent = none)
    (hdeclares : ∀ j k, j < k → k < t.references.size → (t.reference k).declares → (t.reference j).declares) :
    t.WellFormed := by
  have hascending (b : Nat) : (t.binding b).references.Pairwise (· < ·) := by
    rw [h.indexed]
    exact List.pairwise_lt_range.filter _
  refine ⟨fun s hs hne => ?_, houter, fun s hs => ⟨?_, fun fuel => h.chainFor_eq⟩, h.listed, h.undeclared_eq_nil,
    h.received, fun k hk => ⟨h.recorded k hk, fun b => ?_⟩, fun b k => h.toSound.lt_of_mem_references, hascending,
    fun b => ?_, h.definition, fun b hb => ?_⟩
  · obtain ⟨parent, hparent⟩ := Option.ne_none_iff_exists'.mp (h.rooted s hs hne)
    exact ⟨parent, h.parent_lt s parent hparent, hparent⟩
  · induction s using Nat.strongRecOn with
    | ind s ih =>
      by_cases hzero : s = wrapperScope
      · subst hzero
        rw [h.chain_eq, houter]
        rfl
      · obtain ⟨parent, hparent⟩ := Option.ne_none_iff_exists'.mp (h.rooted s hs hzero)
        have hlt := h.parent_lt s parent hparent
        rw [h.chain_of_parent hparent, List.getLast?_cons, ih parent hlt (Nat.lt_trans hlt hs)]
        rfl
  · have hmem : k ∈ (t.binding b).references ↔ b = (t.reference k).binding := by
      rw [h.indexed, List.mem_filter, List.mem_range, beq_iff_eq, eq_comm]
      exact and_iff_right hk
    split
    next hb => exact List.count_eq_one_of_mem (hascending b).nodup (hmem.mpr hb)
    next hb => exact List.count_eq_zero_of_not_mem (mt hmem.mp hb)
  · refine (hascending b).imp_of_mem fun _ hk hlt => hdeclares _ _ hlt (h.toSound.lt_of_mem_references hk)
  · have hmem : (wrapperScope, (t.binding b).name, b) ∈ t.entries ↔ (t.binding b).scope = wrapperScope := by
      rw [h.listed.mem_iff, mem_records_iff]
      exact ⟨fun hrecord => hrecord.2.1, fun hscope => ⟨hb, hscope, rfl⟩⟩
    rw [h.undefined b hb, ← hmem, mem_entries_iff]
    exact and_iff_right h.pos

end ScopeTree

section Passes

variable {d : Declaring} {tr : Trail} {v : Visit} {vs : List Visit} {r : Resolving}

/-- No name is declared on the wrapper. -/
def ScopeTree.Inside (t : ScopeTree) (e : Nat × Visit) : Prop :=
  ∀ place name span shorthand, e.2 = .declare place name span shorthand →
    t.declaringScope place e.1 ≠ ScopeTree.wrapperScope

theorem recorded_foldl_declaring (hd : d.Follows tr) (h : d.tree.Recorded)
    (hinside : ∀ e ∈ tr.locate vs, (vs.foldl Declaring.step d).tree.Inside e) :
    (vs.foldl Declaring.step d).tree.Recorded := by
  induction vs generalizing d tr with
  | nil => exact h
  | cons v vs ih =>
    have hall : d.tree.DeclaredBy (tr.locate (v :: vs)) ((v :: vs).foldl Declaring.step d).tree :=
      declaredBy_foldl hd h.toSound
    obtain ⟨hv, hvs⟩ := List.forall_mem_cons.mp hinside
    refine ih hd.step ?_ hvs
    cases v with
    | enter kind => exact h.addScope hd.current_lt
    | declare place name span shorthand =>
      -- where the name goes is the same in the tree so far and in the one that the way ends with
      have hplace := hall.grown.declaringScope h.toNested hall.sound.toNested place hd.current_lt
      rw [Declaring.step_declare]
      refine h.declare (h.toSound.declaringScope_lt place hd.current_lt) ?_
      rw [← hplace, hd.current]
      exact hv place name span shorthand rfl
    | leave | refer | call => exact h

theorem recorded_step_resolving (h : r.tree.Recorded) : (r.step v).tree.Recorded := by
  cases v with
  | refer name span shorthand usage =>
    obtain ⟨⟨tree, b⟩, hs⟩ : ∃ settled, r.tree.settle r.current name = settled := ⟨_, rfl⟩
    obtain ⟨hsettled, hlt⟩ := h.settle hs
    rw [Resolving.step_refer hs]
    exact hsettled.addReference hlt nofun
  | call site =>
    rw [Resolving.step_call]
    exact h
  | enter | leave | declare => exact h

theorem recorded_foldl_resolving (h : r.tree.Recorded) : (vs.foldl Resolving.step r).tree.Recorded := by
  induction vs generalizing r with
  | nil => exact h
  | cons v vs ih => exact ih (recorded_step_resolving h)

end Passes

namespace Analysis

variable {p : Script.Program} {source : String}

theorem recorded_scopes (hp : p.tree.kind = .program) (source : String) :
    (ofProgram p source).scopes.Recorded := by
  obtain ⟨r, hr, hscopes, -⟩ := @resolvedBy_ofProgram p source
  obtain ⟨vs, hvisits, -⟩ := p.exists_visits hp
  have hkind : ((declareAll (visits [] p.tree)).scope ScopeTree.programScope).kind = .program := by
    rw [hvisits]
    exact ((opens_declareAll (.enter .program :: vs)).1 .program rfl).2
  rw [ofProgram_eq]
  refine recorded_foldl_resolving (recorded_foldl_declaring .start ScopeTree.recorded_initial ?_)
  rintro ⟨at_, v⟩ he place name span shorthand rfl
  have hmem := programScope_mem_chain source hp he nofun
  rw [hscopes, hr.same.chain] at hmem
  exact (declaredBy_declareAll _).sound.declaringScope_ne_wrapper hmem hkind

/-- The occurrences that declare come first. -/
theorem declares_reference_iff {k : Nat} (hk : k < (ofProgram p source).scopes.references.size) :
    ((ofProgram p source).scopes.reference k).declares ↔
      k < (p.visited.filterMap (ofProgram p source).scopes.declared?).length := by
  let t := (ofProgram p source).scopes
  have hget : t.references.toList[k]? = some (t.reference k) := by
    rw [Array.getElem?_toList, ScopeTree.reference, Array.getD_eq_getD_getElem?, Array.getElem?_eq_getElem hk]
    rfl
  rw [show t.references.toList = _ from references_ofProgram, List.getElem?_append] at hget
  split at hget
  next hlt =>
    obtain ⟨e, -, he⟩ := List.mem_filterMap.mp (List.mem_of_getElem? hget)
    exact iff_of_true (declares_of_declared? he) hlt
  next hle =>
    obtain ⟨e, -, he⟩ := List.mem_filterMap.mp (List.mem_of_getElem? hget)
    exact iff_of_false (by rw [declares_of_referred? he]; exact Bool.false_ne_true) hle

/-- When all names of a script are declared and looked up, its scopes, its bindings and its references agree with
each other. -/
theorem wellFormed_scopes (hp : p.tree.kind = .program) (source : String) :
    (ofProgram p source).scopes.WellFormed := by
  refine (recorded_scopes hp source).wellFormed scope_wrapper.1 fun j k hlt hk hdeclares => ?_
  have hk' := (declares_reference_iff hk).mp hdeclares
  exact (declares_reference_iff (Nat.lt_trans hlt hk)).mpr (Nat.lt_trans hlt hk')

/-- Names that are declared twice, in several scopes, after their use, or not at all. -/
def sharedNames : String :=
  "f(x); function f(a) \x7b var a, y = exports; z = y; z \x7d try \x7b \x7d catch (x) \x7b var x; let y \x7d"

theorem wellFormed_scopes_sharedNames : ∃ p, Script.Program.parse? sharedNames = some p ∧
    p.tree.kind = .program ∧
    (ofProgram p sharedNames).scopes.entries =
      [(0, "require", 0), (0, "module", 1), (0, "exports", 2), (0, "z", 9), (1, "f", 3), (1, "x", 7),
        (2, "a", 4), (2, "y", 5), (4, "x", 6), (5, "y", 8)] ∧
    (ofProgram p sharedNames).scopes.bindings.toList.map (fun b => (b.definition, b.references)) =
      [(none, []), (none, []), (none, [9]), (some 0, [0, 7]), (some 1, [1, 2]), (some 3, [3, 11]), (some 4, [4]),
        (some 5, [5, 8]), (some 6, [6]), (none, [10, 12])] ∧
    (ofProgram p sharedNames).scopes.WellFormed := by
  obtain ⟨p, hp, hentries, hreferences⟩ : ∃ p ∈ Script.Program.parse? sharedNames,
      (ofProgram p sharedNames).scopes.entries =
        [(0, "require", 0), (0, "module", 1), (0, "exports", 2), (0, "z", 9), (1, "f", 3), (1, "x", 7),
          (2, "a", 4), (2, "y", 5), (4, "x", 6), (5, "y", 8)] ∧
      (ofProgram p sharedNames).scopes.bindings.toList.map (fun b => (b.definition, b.references)) =
        [(none, []), (none, []), (none, [9]), (some 0, [0, 7]), (some 1, [1, 2]), (some 3, [3, 11]), (some 4, [4]),
          (some 5, [5, 8]), (some 6, [6]), (none, [10, 12])] := by
    decide +kernel
  have hkind := (Script.spanned_parse? hp).kind
  exact ⟨p, hp, hkind, hentries, hreferences, wellFormed_scopes hkind sharedNames⟩

end Analysis

end FlatBundle
