import FlatBundle.Proofs.Link.Order
import FlatBundle.Proofs.Link.Reindex

/-!
Which top-level names give way. Modules take their names in the order in which they run; a name changes
where it is a global of some module, or where an earlier module has taken it.
-/

namespace FlatBundle

variable {taken : List String} {names : List (String × Nat)} {name : String} {b i j : Nat}

theorem mem_claimNames_fst :
    name ∈ (claimNames taken names).1 ↔ name ∈ taken ∨ name ∈ names.map (·.1) := by
  induction names generalizing taken with
  | nil => simp [claimNames]
  | cons entry names ih =>
    obtain ⟨first, binding⟩ := entry
    rw [claimNames]
    split
    · rename_i hfirst
      have hfirst : first ∈ taken := by simpa using hfirst
      rw [ih, List.map_cons, List.mem_cons]
      constructor
      · rintro (h | h)
        · exact .inl h
        · exact .inr (.inr h)
      · rintro (h | rfl | h)
        · exact .inl h
        · exact .inl hfirst
        · exact .inr h
    · rw [ih, List.map_cons, List.mem_cons, List.mem_cons]
      tauto

/-- Of names that are distinct among themselves, those change that are taken. -/
theorem mem_claimNames_snd (hnames : (names.map (·.1)).Nodup) :
    b ∈ (claimNames taken names).2 ↔ ∃ name, (name, b) ∈ names ∧ name ∈ taken := by
  induction names generalizing taken with
  | nil => simp [claimNames]
  | cons entry names ih =>
    obtain ⟨first, binding⟩ := entry
    obtain ⟨hfresh, hrest⟩ := List.nodup_cons.mp hnames
    rw [claimNames]
    split
    · rename_i hfirst
      have hfirst : first ∈ taken := by simpa using hfirst
      rw [List.mem_cons, ih hrest]
      constructor
      · rintro (rfl | ⟨name, hmem, htaken⟩)
        · exact ⟨first, List.mem_cons_self .., hfirst⟩
        · exact ⟨name, List.mem_cons_of_mem _ hmem, htaken⟩
      · rintro ⟨name, hmem, htaken⟩
        rcases List.mem_cons.mp hmem with heq | hmem
        · exact .inl (Prod.mk.inj heq).2
        · exact .inr ⟨name, hmem, htaken⟩
    · rename_i hfirst
      have hfirst : first ∉ taken := by simpa using hfirst
      rw [ih hrest]
      constructor
      · rintro ⟨name, hmem, htaken⟩
        have hne : name ≠ first := by
          rintro rfl
          exact hfresh (List.mem_map.mpr ⟨_, hmem, rfl⟩)
        exact ⟨name, List.mem_cons_of_mem _ hmem, (List.mem_cons.mp htaken).resolve_left hne⟩
      · rintro ⟨name, hmem, htaken⟩
        rcases List.mem_cons.mp hmem with heq | hmem
        · exact absurd ((Prod.mk.inj heq).1 ▸ htaken) hfirst
        · exact ⟨name, hmem, List.mem_cons_of_mem _ htaken⟩

/-- A module finds the names taken that were so at first and those of the modules before it. -/
theorem lookup_claimAll (taken : List String) {front : List (Nat × ScopeTree)}
    (back : List (Nat × ScopeTree)) (scopes : ScopeTree) (hi : i ∉ front.map (·.1)) :
    ∃ taken', (claimAll taken (front ++ (i, scopes) :: back)).lookup i =
        some (claimNames taken' scopes.programBindings).2 ∧
      ∀ name, name ∈ taken' ↔
        name ∈ taken ∨ ∃ m ∈ front, name ∈ m.2.programBindings.map (·.1) := by
  induction front generalizing taken with
  | nil =>
    refine ⟨taken, ?_, fun name => by simp⟩
    rw [List.nil_append, claimAll_cons, List.lookup_cons_self]
  | cons m front ih =>
    obtain ⟨j, other⟩ := m
    rw [List.map_cons, List.mem_cons, not_or] at hi
    obtain ⟨taken', hlookup, htaken⟩ := ih (claimNames taken other.programBindings).1 hi.2
    refine ⟨taken', ?_, fun name => ?_⟩
    · rw [List.cons_append, claimAll_cons, List.lookup_cons, beq_false_of_ne hi.1]
      exact hlookup
    · rw [htaken, mem_claimNames_fst, List.exists_mem_cons_iff, or_assoc]

namespace Linked

variable {t : Table} {modules : List ModuleFacts}

/-- The top-level names of a module. -/
def topLevelNames (l : Linked) (i : Nat) : List String :=
  (l.facts i).scopes.programBindings.map (·.1)

/-- Some module that runs before module `i` has a top-level name. -/
def TakenBefore (t : Table) (modules : List ModuleFacts) (i : Nat) (name : String) : Prop :=
  ∃ j, Precedes (t.sorted (callPlace modules)) j i ∧ name ∈ (ofModules t modules).topLevelNames j

/-- A top-level name changes where it is a global of some module, or taken before. -/
theorem mem_renamedBindings_iff (hi : i < t.size)
    (hnames : ((ofModules t modules).topLevelNames i).Nodup) :
    b ∈ (ofModules t modules).renamedBindings i ↔
      ∃ name, (name, b) ∈ ((ofModules t modules).facts i).scopes.programBindings ∧
        (name ∈ globalNames modules ∨ TakenBefore t modules i name) := by
  let l := ofModules t modules
  let entry (j : Nat) := (j, (l.facts j).scopes)
  have hi : i ∈ t.sorted (callPlace modules) := Table.mem_sorted.mpr hi
  obtain ⟨front, back, hsplit⟩ := List.append_of_mem hi
  have hnodup : (front ++ i :: back).Nodup := hsplit ▸ Table.nodup_sorted
  have hfront : i ∉ (front.map entry).map (·.1) := by
    have hmap : (front.map entry).map (·.1) = front := by
      rw [List.map_map]
      exact List.map_id _
    rw [hmap]
    intro hmem
    exact (List.nodup_append.mp hnodup).2.2 i hmem i (List.mem_cons_self ..) rfl
  have hrenamed : l.renamed = claimAll (globalNames modules)
      (front.map entry ++ (i, (l.facts i).scopes) :: back.map entry) := by
    have hall : l.renamed =
        claimAll (globalNames modules) ((t.sorted (callPlace modules)).map entry) := rfl
    rw [hall, hsplit, List.map_append, List.map_cons]
  obtain ⟨taken, hlookup, htaken⟩ := lookup_claimAll (globalNames modules) (back.map entry)
    (l.facts i).scopes hfront
  have hbefore (name : String) : (∃ m ∈ front.map entry, name ∈ m.2.programBindings.map (·.1)) ↔
      TakenBefore t modules i name := by
    unfold TakenBefore
    rw [hsplit]
    constructor
    · rintro ⟨m, hm, hname⟩
      obtain ⟨j, hj, rfl⟩ := List.mem_map.mp hm
      exact ⟨j, (precedes_iff_mem hnodup).mpr hj, hname⟩
    · rintro ⟨j, hj, hname⟩
      exact ⟨entry j, List.mem_map_of_mem ((precedes_iff_mem hnodup).mp hj), hname⟩
  rw [renamedBindings, show l.renamed.lookup i = _ from hrenamed ▸ hlookup, Option.getD_some,
    mem_claimNames_snd hnames]
  refine exists_congr fun name => and_congr_right fun _ => ?_
  rw [htaken, hbefore]

end Linked

end FlatBundle
