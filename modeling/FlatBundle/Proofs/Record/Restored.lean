import FlatBundle.Proofs.Record.Reindex
import Mathlib.Data.List.Forall2

/-!
What the modules of a table are made of: the records in their order, with the bodies that markers stand for. And
what is wrong with records that have no table.
-/

namespace FlatBundle

/-- A source starts with a marker of some digits: `arguments[4][<digits>]`. -/
def Marks (source digits : String) : Prop :=
  digits ≠ "" ∧ (∀ c ∈ digits.toList, c.isDigit) ∧
    duplicateMarker ++ (digits.toList ++ [']']) <+: source.toList

/-- A record, which is at a place among others, has the id of an earlier one. -/
def IsRepeat (records : List Record) (at_ : Record × Nat) : Prop :=
  ∃ r ∈ records.take at_.2, r.id = at_.1.id

instance {records : List Record} {at_ : Record × Nat} : Decidable (IsRepeat records at_) :=
  inferInstanceAs (Decidable (∃ r ∈ records.take at_.2, _))

def repeats (records : List Record) : List Record :=
  (records.zipIdx.filter (IsRepeat records ·)).map Prod.fst

def firsts (records : List Record) : List Record :=
  (records.zipIdx.filter (¬IsRepeat records ·)).map Prod.fst

/-- The body of a module is that of its record, or the one that its record's marker stands for. -/
def IsBody (records : List Record) (r : Record) (body : String) : Prop :=
  (body = r.source ∧ ∀ digits, ¬Marks r.source digits) ∨
    ∃ digits twin, Marks r.source digits ∧ records.find? (·.id.text == digits) = some twin ∧ body = twin.source

/-- The modules are the records in their order, which only differ in bodies that have been put back, and go by
the ids of these. -/
structure Table.MadeOf (t : Table) (records : List Record) : Prop where
  size : t.size = records.length
  module : ∀ (i : Nat) (r : Record), records[i]? = some r →
    ∃ body, IsBody records r body ∧ t.modules[i]? = some { r with source := body }
  indexOf : ∀ (i : Nat) (r : Record), records[i]? = some r → t.indexOf? r.id = some i
  absent : ∀ id, (∀ r ∈ records, r.id ≠ id) → t.indexOf? id = none

/-- The marker of a record names no record. -/
def Dangles (records : List Record) (r : Record) : Prop :=
  ∃ digits, Marks r.source digits ∧ ∀ k ∈ records, k.id.text ≠ digits

variable {records front rest : List Record} {seen : List ModuleId} {r m : Record} {source digits : String}

section Markers

theorem duplicateOf?_eq_some_iff : duplicateOf? source = some digits ↔ Marks source digits := by
  unfold duplicateOf? Marks
  constructor
  · intro h
    dsimp only at h
    split at h
    next hmarker =>
      obtain ⟨rest, hsource⟩ := List.isPrefixOf_iff_prefix.mp hmarker
      rw [← hsource, List.drop_left] at h
      split at h
      next c ds rest' hdigits hclose =>
        cases h
        have hrest := List.prefix_iff_eq_append.mp (List.takeWhile_prefix (l := rest) Char.isDigit)
        rw [hclose] at hrest
        rw [String.toList_ofList, ← hsource]
        refine ⟨?_, fun c => List.all_eq_true.mp List.all_takeWhile c,
          (List.prefix_append_right_inj _).mpr ⟨rest', ?_⟩⟩
        · rw [hdigits]
          exact fun hempty => by simpa using congrArg String.toList hempty
        · rw [List.append_assoc]
          exact hrest
      next => cases h
    next => cases h
  · rintro ⟨hne, hdigits, rest, hsource⟩
    have hmarker : duplicateMarker.isPrefixOf source.toList :=
      List.isPrefixOf_iff_prefix.mpr ⟨_, (List.append_assoc ..).symm.trans hsource⟩
    have hrest : source.toList.drop duplicateMarker.length = digits.toList ++ ']' :: rest := by
      rw [← hsource, List.append_assoc, List.drop_left, List.append_assoc]
      rfl
    have htaken : (digits.toList ++ ']' :: rest).takeWhile Char.isDigit = digits.toList := by
      rw [List.takeWhile_append_of_pos hdigits, List.takeWhile_cons_of_neg (by decide), List.append_nil]
    obtain ⟨c, ds, hchars⟩ : ∃ c ds, digits.toList = c :: ds :=
      List.exists_cons_of_ne_nil fun hnil => hne (String.toList_eq_nil_iff.mp hnil)
    rw [if_pos hmarker, hrest]
    dsimp only
    rw [htaken, List.drop_left, hchars]
    exact congrArg some (hchars ▸ String.ofList_toList)

instance : Decidable (Dangles records r) :=
  decidable_of_iff (∃ digits ∈ duplicateOf? r.source, ∀ k ∈ records, k.id.text ≠ digits) <| by
    simp only [Option.mem_def, duplicateOf?_eq_some_iff, Dangles]

theorem not_marks_of_duplicateOf? (h : duplicateOf? source = none) : ¬Marks source digits := by
  rw [← duplicateOf?_eq_some_iff, h]
  exact nofun

theorem Marks.unique {digits' : String} (h : Marks source digits) (h' : Marks source digits') : digits = digits' :=
  Option.some.inj ((duplicateOf?_eq_some_iff.mpr h).symm.trans (duplicateOf?_eq_some_iff.mpr h'))

/-- A record stays as it is but for a body that is put back. -/
theorem restoreSource_eq_ok_iff :
    restoreSource records r = .ok m ↔ ∃ body, IsBody records r body ∧ m = { r with source := body } := by
  unfold restoreSource IsBody
  cases hmarker : duplicateOf? r.source with
  | none =>
    constructor
    · intro h
      cases h
      exact ⟨_, .inl ⟨rfl, fun _ => not_marks_of_duplicateOf? hmarker⟩, rfl⟩
    · rintro ⟨body, ⟨rfl, -⟩ | ⟨digits, -, hmarks, -⟩, rfl⟩
      · rfl
      · exact absurd hmarks (not_marks_of_duplicateOf? hmarker)
  | some digits =>
    have hmarks := duplicateOf?_eq_some_iff.mp hmarker
    dsimp only
    constructor
    · intro h
      split at h
      next twin htwin =>
        cases h
        exact ⟨_, .inr ⟨digits, twin, hmarks, htwin, rfl⟩, rfl⟩
      next => cases h
    · rintro ⟨body, ⟨-, hnone⟩ | ⟨digits', twin, hmarks', htwin, rfl⟩, rfl⟩
      · exact absurd hmarks (hnone digits)
      · obtain rfl := hmarks.unique hmarks'
        rw [htwin]

theorem restoreSource_cases : (¬Dangles records r ∧ ∃ m, restoreSource records r = .ok m) ∨
    Dangles records r ∧ ∃ digits, Marks r.source digits ∧
      restoreSource records r = .error (.danglingDuplicate r.label digits) := by
  unfold restoreSource
  cases hmarker : duplicateOf? r.source with
  | none => exact .inl ⟨fun ⟨_, hmarks, _⟩ => not_marks_of_duplicateOf? hmarker hmarks, _, rfl⟩
  | some digits =>
    have hmarks := duplicateOf?_eq_some_iff.mp hmarker
    dsimp only
    split
    next twin htwin =>
      refine .inl ⟨fun ⟨digits', hmarks', hnone⟩ => ?_, _, rfl⟩
      obtain rfl := hmarks.unique hmarks'
      exact hnone twin (List.mem_of_find?_eq_some htwin) (by simpa using List.find?_some htwin)
    next hnone => exact .inr ⟨⟨digits, hmarks, by simpa using hnone⟩, digits, hmarks, rfl⟩

end Markers

/-- A failure for each of some records, which says what digits the record's marker has. -/
def DanglingErrors : List Record → List BuildError → Prop :=
  List.Forall₂ fun r e => ∃ digits, Marks r.source digits ∧ e = .danglingDuplicate r.label digits

section Repeats

/-- What has been seen is the ids of the records in front. -/
theorem separateRepeats_eq (hseen : ∀ id, id ∈ seen ↔ ∃ r ∈ front, r.id = id) : separateRepeats seen rest =
    (((rest.zipIdx front.length).filter (¬IsRepeat (front ++ rest) ·)).map Prod.fst,
      ((rest.zipIdx front.length).filter (IsRepeat (front ++ rest) ·)).map (·.1.id)) := by
  induction rest generalizing seen front with
  | nil => rfl
  | cons r rest ih =>
    have hrepeat : IsRepeat (front ++ r :: rest) (r, front.length) ↔ r.id ∈ seen := by
      rw [IsRepeat, List.take_left, hseen]
    have hnext : front ++ r :: rest = front ++ [r] ++ rest := List.append_cons ..
    have hlength : front.length + 1 = (front ++ [r]).length := by simp
    have hmore : ∀ id, id ∈ r.id :: seen ↔ ∃ k ∈ front ++ [r], k.id = id := by
      intro id
      rw [List.mem_cons, hseen]
      simp [or_and_right, exists_or, or_comm, eq_comm]
    rw [separateRepeats, List.zipIdx_cons, List.filter_cons, List.filter_cons, hlength]
    by_cases hr : r.id ∈ seen
    · have hsame : ∀ id, id ∈ seen ↔ id ∈ r.id :: seen := by
        intro id
        rw [List.mem_cons, or_iff_right_of_imp fun heq => heq ▸ hr]
      rw [if_pos (List.contains_iff_mem.mpr hr), ih fun id => (hsame id).trans (hmore id),
        if_neg (by simpa using hrepeat.mpr hr), if_pos (by simpa using hrepeat.mpr hr), ← hnext]
      rfl
    · rw [if_neg (by simpa using hr), ih hmore, if_pos (by simpa using mt hrepeat.mp hr),
        if_neg (by simpa using mt hrepeat.mp hr), ← hnext]
      rfl

theorem separateRepeats_nil : separateRepeats [] records = (firsts records, (repeats records).map (·.id)) := by
  rw [@separateRepeats_eq [] records [] (by simp), repeats, List.map_map]
  rfl

theorem exists_mem_of_separateRepeats (hr : r ∈ rest) :
    r.id ∈ seen ∨ ∃ k ∈ (separateRepeats seen rest).1, k.id = r.id := by
  induction rest generalizing seen with
  | nil => cases hr
  | cons k rest ih =>
    rw [separateRepeats]
    rcases List.mem_cons.mp hr with rfl | hr
    · split
      next hseen => exact .inl (List.contains_iff_mem.mp hseen)
      next => exact .inr ⟨r, List.mem_cons_self, rfl⟩
    · split
      next => exact ih hr
      next =>
        rcases @ih (k.id :: seen) hr with hmem | ⟨o, ho, hid⟩
        · rcases List.mem_cons.mp hmem with heq | hmem
          · exact .inr ⟨k, List.mem_cons_self, heq.symm⟩
          · exact .inl hmem
        · exact .inr ⟨o, List.mem_cons_of_mem _ ho, hid⟩

theorem exists_mem_firsts (hr : r ∈ records) : ∃ k ∈ firsts records, k.id = r.id := by
  have hmem := (@exists_mem_of_separateRepeats records [] r hr).resolve_left nofun
  rwa [separateRepeats_nil] at hmem

theorem firsts_subset : firsts records ⊆ records := by
  intro r hr
  obtain ⟨at_, hat, rfl⟩ := List.mem_map.mp hr
  exact List.fst_mem_of_mem_zipIdx (List.mem_of_mem_filter hat)

/-- The ids of the first records are all there are. -/
theorem dangles_firsts_iff : Dangles (firsts records) r ↔ Dangles records r := by
  refine exists_congr fun digits => and_congr_right fun _ => ⟨fun hnone k hk => ?_, fun hnone k hk => ?_⟩
  · obtain ⟨o, ho, hid⟩ := exists_mem_firsts hk
    exact hid ▸ hnone o ho
  · exact hnone k (firsts_subset hk)

end Repeats

theorem danglingErrors_restore {kept rs : List Record} :
    DanglingErrors (rs.filter (Dangles kept ·)) ((rs.map (restoreSource kept)).filterMap failure?) := by
  induction rs with
  | nil => exact .nil
  | cons r rs ih =>
    rw [List.map_cons]
    rcases @restoreSource_cases kept r with ⟨hplain, m, hm⟩ | ⟨hdangles, digits, hmarks, hm⟩
    · rwa [List.filter_cons_of_neg (by simpa using hplain), hm, List.filterMap_cons_none rfl]
    · rw [List.filter_cons_of_pos (by simpa using hdangles), hm, List.filterMap_cons]
      exact .cons ⟨digits, hmarks, rfl⟩ ih

namespace Table

variable {t : Table}

theorem madeOf_of_ofRecords (h : ofRecords records = .ok t) : t.MadeOf records := by
  obtain ⟨hnodup, hrestored⟩ := ofRecords_eq_ok_iff.mp h
  have hids := distinctIds_of_ofRecords h
  have hsize : t.size = records.length := by
    have hlength := congrArg List.length hrestored
    rw [List.length_map, List.length_map] at hlength
    exact hlength.symm
  have hmodule : ∀ (i : Nat) (r : Record), records[i]? = some r →
      ∃ body, IsBody records r body ∧ t.modules[i]? = some { r with source := body } := by
    intro i r hr
    have hi := congrArg (fun results => results[i]?) hrestored
    rw [List.getElem?_map, List.getElem?_map, hr, Option.map_some] at hi
    obtain ⟨m, hm, hok⟩ := Option.map_eq_some_iff.mp hi.symm
    obtain ⟨body, hbody, rfl⟩ := restoreSource_eq_ok_iff.mp hok.symm
    exact ⟨body, hbody, hm⟩
  refine ⟨hsize, hmodule, fun i r hr => ?_, fun id hid => ?_⟩
  · obtain ⟨body, -, hm⟩ := hmodule i r hr
    refine (indexOf?_eq_some_iff hids).mpr ⟨(List.getElem?_eq_some_iff.mp hm).1, ?_⟩
    rw [get, List.getD_eq_getElem?_getD, hm, Option.getD_some]
  · rw [Option.eq_none_iff_forall_ne_some]
    intro i hi
    obtain ⟨hlt, hget⟩ := (indexOf?_eq_some_iff hids).mp hi
    have hr := List.getElem?_eq_getElem (hsize ▸ hlt)
    obtain ⟨body, -, hm⟩ := hmodule i _ hr
    rw [get, List.getD_eq_getElem?_getD, hm, Option.getD_some] at hget
    exact hid _ (List.mem_of_getElem? hr) hget

theorem ofRecords_error {errors : List BuildError} (h : ofRecords records = .error errors) :
    ∃ dangling, errors = (repeats records).map (.duplicateId ·.id) ++ dangling ∧
      DanglingErrors ((firsts records).filter (Dangles records ·)) dangling := by
  refine ⟨((firsts records).map (restoreSource (firsts records))).filterMap failure?, ?_, ?_⟩
  · unfold ofRecords at h
    rw [separateRepeats_nil] at h
    dsimp only at h
    rw [partitionResults_fst_eq, List.map_map] at h
    split at h
    next => cases h
    next => exact (Except.error.inj h).symm
  · have hsame : (fun r => decide (Dangles (firsts records) r)) = fun r => decide (Dangles records r) :=
      funext fun r => decide_eq_decide.mpr dangles_firsts_iff
    rw [← hsame]
    exact danglingErrors_restore

/-- Records have a table just if their ids are distinct and every marker names one of them. It is made of the records;
else there is a failure for each record with the id of an earlier one, and then for each other record whose marker
names none. -/
theorem madeOf_or_refused (records : List Record) :
    ((∃ t, ofRecords records = .ok t) ↔ (records.map (·.id)).Nodup ∧
      ∀ r ∈ records, ∀ digits, Marks r.source digits → ∃ k ∈ records, k.id.text = digits) ∧
    (∀ t, ofRecords records = .ok t → t.MadeOf records) ∧
    ∀ errors, ofRecords records = .error errors → ∃ dangling,
      errors = (repeats records).map (.duplicateId ·.id) ++ dangling ∧
        DanglingErrors ((firsts records).filter (Dangles records ·)) dangling := by
  refine ⟨?_, fun _ => madeOf_of_ofRecords, fun _ => ofRecords_error⟩
  rw [exists_ofRecords_iff]
  simp only [exists_restoreSource_iff, duplicateOf?_eq_some_iff]

/-- A module and a copy of it. -/
def copies : List Record :=
  [{ id := .number 1, source := "f();" }, { id := .name "b", source := "arguments[4][1][0].apply(exports,arguments)" }]

/-- An id that is used twice, and a copy of a missing module. -/
def brokenCopies : List Record :=
  [{ id := .number 1, source := "f();" }, { id := .number 1, source := "arguments[4][8]" },
    { id := .number 2, file := some "b.js", source := "arguments[4][9]" }]

theorem madeOf_or_refused_copies :
    (ofRecords copies = .ok ⟨[{ id := .number 1, source := "f();" }, { id := .name "b", source := "f();" }]⟩ ∧
      MadeOf ⟨[{ id := .number 1, source := "f();" }, { id := .name "b", source := "f();" }]⟩ copies) ∧
    ofRecords brokenCopies = .error [.duplicateId (.number 1), .danglingDuplicate "2 (b.js)" "9"] ∧
      ∃ dangling, [.duplicateId (.number 1), .danglingDuplicate "2 (b.js)" "9"] =
        (repeats brokenCopies).map (.duplicateId ·.id) ++ dangling ∧
          DanglingErrors ((firsts brokenCopies).filter (Dangles brokenCopies ·)) dangling := by
  have hmade : ofRecords copies =
      .ok ⟨[{ id := .number 1, source := "f();" }, { id := .name "b", source := "f();" }]⟩ := rfl
  have hrefused : ofRecords brokenCopies = .error [.duplicateId (.number 1), .danglingDuplicate "2 (b.js)" "9"] := rfl
  exact ⟨⟨hmade, (madeOf_or_refused copies).2.1 _ hmade⟩, hrefused, (madeOf_or_refused brokenCopies).2.2 _ hrefused⟩

/-- No body is a marker. -/
def Restored (t : Table) : Prop :=
  ∀ m ∈ t.modules, ∀ digits, ¬Marks m.source digits

/-- The bodies of a table are none of them markers just if every marker names a record first whose body is none. -/
theorem restored_iff (h : ofRecords records = .ok t) : t.Restored ↔
    ∀ r ∈ records, ∀ digits twin, Marks r.source digits → records.find? (·.id.text == digits) = some twin →
      ∀ digits', ¬Marks twin.source digits' := by
  obtain ⟨hsize, hmodule, -, -⟩ := madeOf_of_ofRecords h
  constructor
  · intro hrestored r hr digits twin hmarks htwin
    obtain ⟨i, hi⟩ := List.mem_iff_getElem?.mp hr
    obtain ⟨body, hbody, hm⟩ := hmodule i r hi
    obtain ⟨-, hnone⟩ | ⟨digits', twin', hmarks', htwin', rfl⟩ := hbody
    · exact absurd hmarks (hnone digits)
    · obtain rfl := hmarks.unique hmarks'
      obtain rfl := Option.some.inj (htwin.symm.trans htwin')
      have hbody := hrestored _ (List.mem_of_getElem? hm)
      exact hbody
  · intro hreal m hm
    obtain ⟨i, hi⟩ := List.mem_iff_getElem?.mp hm
    have hlt : i < records.length := hsize ▸ (List.getElem?_eq_some_iff.mp hi).1
    have hr := List.getElem?_eq_getElem hlt
    obtain ⟨body, hbody, hm'⟩ := hmodule i _ hr
    obtain rfl := Option.some.inj (hi.symm.trans hm')
    obtain ⟨rfl, hnone⟩ | ⟨digits, twin, hmarks, htwin, rfl⟩ := hbody
    · exact hnone
    · exact hreal _ (List.mem_of_getElem? hr) digits twin hmarks htwin

theorem restored_copies : ∃ t, ofRecords copies = .ok t ∧ t.Restored := by
  have hmade : ofRecords copies =
      .ok ⟨[{ id := .number 1, source := "f();" }, { id := .name "b", source := "f();" }]⟩ := rfl
  refine ⟨_, hmade, (restored_iff hmade).mpr fun r hr digits twin hmarks htwin => ?_⟩
  have hplain : ∀ digits, ¬Marks "f();" digits := fun _ => not_marks_of_duplicateOf? rfl
  rcases List.mem_pair.mp hr with rfl | rfl
  · exact absurd hmarks (hplain digits)
  · have hcopy : Marks "arguments[4][1][0].apply(exports,arguments)" "1" := duplicateOf?_eq_some_iff.mp rfl
    obtain rfl : digits = "1" := hmarks.unique hcopy
    obtain rfl := Option.some.inj htwin
    exact hplain

/-- A copy of a copy. -/
def copiedCopies : List Record :=
  [{ id := .number 1, source := "f();" }, { id := .number 2, source := "arguments[4][1]" },
    { id := .number 3, source := "arguments[4][2]" }]

theorem not_restored : ∃ t, ofRecords copiedCopies = .ok t ∧
    (t.get 2).source = "arguments[4][1]" ∧ ¬t.Restored := by
  refine ⟨_, rfl, rfl, fun h => ?_⟩
  exact h { id := .number 3, source := "arguments[4][1]" } (List.mem_of_getElem? (i := 2) rfl) "1"
    (duplicateOf?_eq_some_iff.mp rfl)

end Table

end FlatBundle
