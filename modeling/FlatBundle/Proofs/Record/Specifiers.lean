import FlatBundle.Proofs.Distinct
import FlatBundle.Proofs.Json.Extent
import FlatBundle.Proofs.Record.Restored
import FlatBundle.Record.Reading
import Mathlib.Data.List.Nodup

/-!
The specifiers of a record. Each one occurs once, so that a module comes to the same modules by looking its specifiers
up and by going through all that its record lists.
-/

namespace FlatBundle

open Json (bind_eq_ok_iff)

/-- Each specifier occurs once. -/
def Record.SpecifiersOnce (r : Record) : Prop :=
  (r.deps.map Prod.fst).Nodup

instance {r : Record} : Decidable r.SpecifiersOnce :=
  inferInstanceAs (Decidable (List.Nodup _))

namespace Reading

variable {α : Type} {key : String} {entries : List (String × α)} {v : Json.Value} {fields fields' : RecordFields}

theorem map_fst_put (a : α) : (put key a entries).map Prod.fst =
    if key ∈ entries.map Prod.fst then entries.map Prod.fst else entries.map Prod.fst ++ [key] := by
  induction entries with
  | nil => rfl
  | cons e entries ih =>
    obtain ⟨k, b⟩ := e
    rw [put]
    by_cases hk : k = key
    · simp [hk]
    · rw [if_neg (by simpa using hk), List.map_cons, ih, List.map_cons]
      by_cases hmem : key ∈ entries.map Prod.fst
      · rw [if_pos hmem, if_pos (List.mem_cons_of_mem _ hmem)]
      · have hnew : key ∉ k :: entries.map Prod.fst := List.not_mem_cons_of_ne_of_not_mem (Ne.symm hk) hmem
        rw [if_neg hmem, if_neg hnew]
        rfl

theorem nodup_put (a : α) (h : (entries.map Prod.fst).Nodup) : ((put key a entries).map Prod.fst).Nodup := by
  rw [map_fst_put]
  split
  · exact h
  · next hkey => exact List.nodup_append.mpr ⟨h, List.nodup_singleton key, fun k hk k' hk' => by
      rw [List.mem_singleton.mp hk']
      exact ne_of_mem_of_not_mem hk hkey⟩

theorem nodup_depMembers {deps deps' : List (String × Option (Option ModuleId))}
    {members : List (Option String × Json.Value)} (hdeps : (deps.map Prod.fst).Nodup)
    (h : depMembers deps members = .ok deps') : (deps'.map Prod.fst).Nodup := by
  induction members generalizing deps with
  | nil =>
    cases h
    exact hdeps
  | cons member members ih =>
    obtain ⟨_ | key, v⟩ := member
    · cases h
    · obtain ⟨target, -, h⟩ := bind_eq_ok_iff.mp h
      exact ih (nodup_put target hdeps) h

theorem forall₂_of_mapM {β : Type} {read : α → Reading β} {as : List α} {bs : List β} (h : as.mapM read = .ok bs) :
    List.Forall₂ (fun a b => read a = .ok b) as bs := by
  induction as generalizing bs with
  | nil =>
    cases h
    exact .nil
  | cons a as ih =>
    rw [List.mapM_cons] at h
    obtain ⟨b, hb, h⟩ := bind_eq_ok_iff.mp h
    obtain ⟨rest, hrest, h⟩ := bind_eq_ok_iff.mp h
    cases h
    exact .cons hb (ih hrest)

theorem map_fst_of_mapM {deps : List (String × Option (Option ModuleId))} {deps' : List (String × Option ModuleId)}
    (h : (deps.mapM fun (specifier, target) =>
      match target with
      | some target => (.ok (specifier, target) : Reading (String × Option ModuleId))
      | none => .error (.data (.badDependency specifier))) = .ok deps') :
    deps'.map Prod.fst = deps.map Prod.fst := by
  rw [← List.forall₂_eq_eq_eq, List.forall₂_map_left_iff, List.forall₂_map_right_iff]
  refine (forall₂_of_mapM h).flip.imp fun dep' dep hdep => ?_
  obtain ⟨specifier, _ | target⟩ := dep <;> cases hdep
  rfl

theorem refuse_ne_ok {wanted : String} {a : α} : refuse v wanted ≠ .ok a := by
  unfold refuse
  split <;> nofun

theorem nodup_deps {deps : List (String × Option ModuleId)} (h : Reading.deps v = .ok deps) :
    (deps.map Prod.fst).Nodup := by
  unfold Reading.deps at h
  split at h
  · obtain ⟨members, hmembers, h⟩ := bind_eq_ok_iff.mp h
    obtain ⟨-, -, h⟩ := bind_eq_ok_iff.mp h
    have hnil : (([] : List (String × Option (Option ModuleId))).map Prod.fst).Nodup := List.nodup_nil
    rw [map_fst_of_mapM h]
    exact nodup_depMembers hnil hmembers
  · exact absurd h refuse_ne_ok

/-- Each specifier occurs once, as far as they have been read. -/
def RecordFields.SpecifiersOnce (fields : RecordFields) : Prop :=
  ∀ deps ∈ fields.deps, (deps.map Prod.fst).Nodup

theorem specifiersOnce_recordField (hfields : fields.SpecifiersOnce)
    (h : recordField fields key v = .ok fields') : fields'.SpecifiersOnce := by
  unfold recordField at h
  split at h
  case h_4 =>
    obtain ⟨-, -, h⟩ := bind_eq_ok_iff.mp h
    obtain ⟨deps, hdeps, h⟩ := bind_eq_ok_iff.mp h
    cases h
    rintro _ ⟨⟩
    exact nodup_deps hdeps
  case h_10 =>
    obtain ⟨-, -, h⟩ := bind_eq_ok_iff.mp h
    cases h
    exact hfields
  all_goals
    obtain ⟨-, -, h⟩ := bind_eq_ok_iff.mp h
    obtain ⟨value, -, h⟩ := bind_eq_ok_iff.mp h
    cases h
    exact hfields

theorem specifiersOnce_recordMembers {members : List (Option String × Json.Value)} (hfields : fields.SpecifiersOnce)
    (h : recordMembers fields members = .ok fields') : fields'.SpecifiersOnce := by
  induction members generalizing fields with
  | nil =>
    cases h
    exact hfields
  | cons member members ih =>
    obtain ⟨_ | key, v⟩ := member
    · cases h
    · obtain ⟨next, hnext, h⟩ := bind_eq_ok_iff.mp h
      exact ih (specifiersOnce_recordField hfields hnext) h

theorem specifiersOnce_recordItems {keys : List String} {items : List Json.Value} (hfields : fields.SpecifiersOnce)
    (h : recordItems fields keys items = .ok fields') : fields'.SpecifiersOnce := by
  induction items generalizing fields keys with
  | nil =>
    cases keys <;> cases h <;> exact hfields
  | cons v items ih =>
    cases keys with
    | nil => cases h
    | cons key keys =>
      obtain ⟨next, hnext, h⟩ := bind_eq_ok_iff.mp h
      exact ih (specifiersOnce_recordField hfields hnext) h

theorem specifiersOnce_complete {absent : String → Nat → ReadFault} {r : Record} (hfields : fields.SpecifiersOnce)
    (h : fields.complete absent = .ok r) : r.SpecifiersOnce := by
  unfold RecordFields.complete at h
  split at h
  · cases h
  · cases h
  · cases h
    unfold Record.SpecifiersOnce
    dsimp only
    cases hdeps : fields.deps with
    | none => exact List.nodup_nil
    | some deps => exact hfields deps hdeps

theorem specifiersOnce_record {r : Record} (h : record v = .ok r) : r.SpecifiersOnce := by
  have hstart : RecordFields.SpecifiersOnce {} := nofun
  unfold record at h
  split at h
  · obtain ⟨fields, hfields, h⟩ := bind_eq_ok_iff.mp h
    obtain ⟨-, -, h⟩ := bind_eq_ok_iff.mp h
    exact specifiersOnce_complete (specifiersOnce_recordMembers hstart hfields) h
  · obtain ⟨fields, hfields, h⟩ := bind_eq_ok_iff.mp h
    obtain ⟨-, -, h⟩ := bind_eq_ok_iff.mp h
    exact specifiersOnce_complete (specifiersOnce_recordItems hstart hfields) h
  · exact absurd h refuse_ne_ok

theorem exists_of_wholeText {read : Json.Value → Reading α} {s : List Char} {a : α} (h : wholeText read s = .ok a) :
    ∃ v, read v = .ok a := by
  unfold wholeText at h
  generalize Json.read s = value at h
  obtain ⟨b, hb, h⟩ := bind_eq_ok_iff.mp h
  split at h
  · cases h
    exact ⟨_, hb⟩
  · cases h

theorem specifiersOnce_list {records : List Record} (h : list record v = .ok records) :
    ∀ r ∈ records, r.SpecifiersOnce := by
  unfold list at h
  split at h
  · obtain ⟨rs, hrs, h⟩ := bind_eq_ok_iff.mp h
    obtain ⟨-, -, h⟩ := bind_eq_ok_iff.mp h
    cases h
    have hread := (forall₂_of_mapM hrs).flip.imp fun r _ hr => And.intro (specifiersOnce_record hr) hr
    exact ((List.forall₂_and_left _ _).mp hread).1
  · exact absurd h refuse_ne_ok

end Reading

variable {records : List Record} {t : Table} {i : Nat}

theorem mapError_eq_ok {ε ε' α : Type} {x : Except ε α} {f : ε → ε'} {a : α} (h : x.mapError f = .ok a) :
    x = .ok a := by
  cases x with
  | error e => cases h
  | ok b =>
    cases h
    rfl

theorem specifiersOnce_readSequence {fuel number : Nat} {s : List Char}
    (h : readSequence fuel number s = .ok records) : ∀ r ∈ records, r.SpecifiersOnce := by
  induction fuel generalizing number s records with
  | zero =>
    cases h
    exact nofun
  | succ fuel ih =>
    rw [readSequence] at h
    split at h
    · cases h
      exact nofun
    · obtain ⟨r, hr, h⟩ := bind_eq_ok_iff.mp h
      obtain ⟨more, hmore, h⟩ := bind_eq_ok_iff.mp h
      cases h
      exact List.forall_mem_cons.mpr ⟨Reading.specifiersOnce_record (mapError_eq_ok hr), ih hmore⟩

/-- As records are read, each specifier of one occurs once. -/
theorem specifiersOnce_readRecords {text : String} (h : readRecords text = .ok records) :
    ∀ r ∈ records, r.SpecifiersOnce := by
  unfold readRecords at h
  dsimp only at h
  split at h
  · obtain ⟨v, hv⟩ := Reading.exists_of_wholeText (mapError_eq_ok h)
    exact Reading.specifiersOnce_list hv
  · exact specifiersOnce_readSequence h

namespace Table

variable {j : Nat} {specifier : String}

theorem specifiersOnce_get (hrecords : ∀ r ∈ records, r.SpecifiersOnce) (h : ofRecords records = .ok t) (i : Nat) :
    (t.get i).SpecifiersOnce := by
  rw [get, List.getD_eq_getElem?_getD]
  cases hm : t.modules[i]? with
  | none => exact List.nodup_nil
  | some m =>
    have hmem : .ok m ∈ records.map (restoreSource records) :=
      (ofRecords_eq_ok_iff.mp h).2 ▸ List.mem_map_of_mem (List.mem_of_getElem? hm)
    obtain ⟨r, hr, hm⟩ := List.mem_map.mp hmem
    obtain ⟨body, -, rfl⟩ := restoreSource_eq_ok_iff.mp hm
    exact hrecords r hr

theorem resolve_eq_internal_iff : t.resolve i specifier = .internal j ↔
    ∃ id, (t.get i).deps.lookup specifier = some (some id) ∧ t.indexOf? id = some j := by
  unfold resolve
  split
  · next id hid =>
    rw [hid]
    cases hindex : t.indexOf? id <;> simp [hindex]
  · next hnone =>
    refine ⟨nofun, fun ⟨id, hid, _⟩ => absurd hid (hnone id)⟩

/-- What the specifiers of a module lead to is what it depends on. -/
theorem exists_resolve_iff (h : (t.get i).SpecifiersOnce) :
    (∃ specifier, t.resolve i specifier = .internal j) ↔ j ∈ t.internalDeps i := by
  rw [mem_internalDeps]
  refine exists_congr fun specifier => ?_
  rw [resolve_eq_internal_iff]
  exact exists_congr fun id => and_congr_left fun _ => lookup_eq_some_iff_mem h

end Table

end FlatBundle
