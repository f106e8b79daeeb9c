import FlatBundle.Proofs.Json.Reader
import FlatBundle.Proofs.SourceMap.Mappings
import FlatBundle.Proofs.Text.Base64
import FlatBundle.Proofs.SourceMap.Lookup
import FlatBundle.SourceMap.Comment
import Mathlib.Data.List.Destutter

/-!
A source map in a comment, read back.
-/

namespace FlatBundle

open Json (MemberReadsAs ReadsAs)

theorem toList_toUTF8 (s : String) : s.toUTF8.toList = s.toByteArray.data.toList := by
  have hloop (bytes : ByteArray) (i : Nat) (r : List UInt8) :
      ByteArray.toList.loop bytes i r = r.reverse ++ bytes.data.toList.drop i := by
    fun_induction ByteArray.toList.loop with
    | case1 i r hi ih =>
      have hget : bytes.get! i = bytes.data.toList[i] := by
        change bytes.data[i]! = _
        rw [getElem!_pos bytes.data i hi]
        rfl
      rw [ih, List.reverse_cons, List.append_assoc, hget, List.singleton_append,
        ← List.drop_eq_getElem_cons]
    | case2 i r hi => rw [List.drop_eq_nil_of_le (Nat.not_lt.mp hi), List.append_nil]
  rw [ByteArray.toList, hloop]
  rfl

/-- What a token of a map tells: where it stands, its source with the place there, and its name. -/
def Segment.told (s : Segment) : Position × Option (String × Position) × Option String :=
  (s.generated, s.source.map (·, s.origin), s.name)

namespace SourceMap

variable {m : SourceMap}

theorem textOfBytes?_toUTF8 (s : String) : textOfBytes? s.toUTF8.toList = some s := by
  have hvalid : s.toByteArray.IsValidUTF8 := s.isValidUTF8
  rw [textOfBytes?, toList_toUTF8, Array.toArray_toList, String.fromUTF8?, dif_pos hvalid]
  rfl

theorem trim_eq_self {s : List Char} (h : ∀ c ∈ s, isBlank c = false) : trim s = s := by
  have hleft : ∀ s : List Char, (∀ c ∈ s, isBlank c = false) → trimLeft s = s := by
    intro s hs
    cases s with
    | nil => rfl
    | cons c s => exact List.dropWhile_cons_of_neg (by simp [hs c])
  rw [trim, hleft s h, hleft _ fun c hc => h c (List.mem_reverse.mp hc), List.reverse_reverse]

theorem dropStart?_append (start s : List Char) : dropStart? start (start ++ s) = some s := by
  rw [dropStart?, if_pos (List.isPrefixOf_iff_prefix.mpr (List.prefix_append start s)), List.drop_left]

theorem isBlank_encode (bytes : List UInt8) : ∀ c ∈ Base64.encode bytes, isBlank c = false := by
  have hdigit : ∀ n < 64, isBlank (Base64.digitChar n) = false := by decide
  intro c hc
  rw [Base64.encode_eq] at hc
  rcases List.mem_append.mp hc with hc | hc
  · obtain ⟨n, hn, rfl⟩ := List.mem_map.mp hc
    exact hdigit n (Base64.digits_lt bytes n hn)
  · rw [List.eq_of_mem_replicate hc]
    decide

/-- What the data of a comment starts with. -/
def dataKind : List Char :=
  "application/json;charset=utf-8;base64,".toList

theorem toList_comment (m : SourceMap) : m.comment.toList =
    commentStart ++ (dataStart ++ (dataKind ++ Base64.encode m.toText.toUTF8.toList)) := by
  have hstart : "//# sourceMappingURL=data:application/json;charset=utf-8;base64,".toList =
      commentStart ++ dataStart ++ dataKind := by decide
  unfold comment payload
  rw [String.toList_append, hstart, List.append_assoc, List.append_assoc, String.toList_ofList]

theorem afterFirst?_payloadMark (s : List Char) : afterFirst? payloadMark (dataKind ++ s) = some s :=
  rfl

/-- The comment gives back the text of the map. -/
theorem ofComment?_comment (m : SourceMap) : ofComment? m.comment.toList = ofText? m.toText.toList := by
  have hstart : ∀ c ∈ dataStart, isBlank c = false := by
    simpa using (by decide : dataStart.all fun c => !isBlank c)
  have hkind : ∀ c ∈ dataKind, isBlank c = false := by
    simpa using (by decide : dataKind.all fun c => !isBlank c)
  have htrim : trim (dataStart ++ (dataKind ++ Base64.encode m.toText.toUTF8.toList)) =
      dataStart ++ (dataKind ++ Base64.encode m.toText.toUTF8.toList) := by
    refine trim_eq_self ?_
    rw [List.forall_mem_append, List.forall_mem_append]
    exact ⟨hstart, hkind, isBlank_encode _⟩
  rw [ofComment?, toList_comment, dropStart?_append]
  simp [htrim, dropStart?_append, afterFirst?_payloadMark, Base64.decode_encode, textOfBytes?_toUTF8,
    -String.toUTF8_eq_toByteArray]

/-- The members of the JSON object that a map is written as. -/
def members (m : SourceMap) : List (Option String × Json.Value) :=
  [(some "version", .number (.natural 3))] ++
  (m.file.map fun s => (some "file", .text s)).toList ++
  [(some "sources", .array (m.sources.map .text) none)] ++
  (m.sourceRoot.map fun s => (some "sourceRoot", .text s)).toList ++
  (if m.contents.any Option.isSome then
    [(some "sourcesContent", .array (m.contents.map fun s => (s.map .text).getD .null) none)] else []) ++
  [(some "names", .array (m.names.map .text) none),
    (some "mappings", .text (mappingsText m.mappings))]

theorem memberReadsAs_text (key s : String) :
    MemberReadsAs (key, Text.quote s) (some key, .text s) :=
  ⟨rfl, Json.readsAs_quote s⟩

theorem memberReadsAs_quotedList (key : String) (xs : List String) :
    MemberReadsAs (key, quotedList xs) (some key, .array (xs.map .text) none) := by
  refine ⟨rfl, Json.readsAs_arrayText ?_⟩
  rw [List.forall₂_map_left_iff, List.forall₂_map_right_iff]
  exact List.forall₂_same.mpr fun s _ => Json.readsAs_quote s

theorem memberReadsAs_contents (key : String) (xs : List (Option String)) :
    MemberReadsAs (key, Json.arrayText (xs.map contentText))
      (some key, .array (xs.map fun s => (s.map .text).getD .null) none) := by
  refine ⟨rfl, Json.readsAs_arrayText ?_⟩
  rw [List.forall₂_map_left_iff, List.forall₂_map_right_iff]
  refine List.forall₂_same.mpr fun s _ => ?_
  cases s with
  | none => exact Json.readsAs_null
  | some s => exact Json.readsAs_quote s

theorem membersReadAs (m : SourceMap) : List.Forall₂ MemberReadsAs m.fields m.members := by
  refine List.rel_append (List.rel_append (List.rel_append (List.rel_append (List.rel_append ?_ ?_) ?_) ?_) ?_) ?_
  · exact .cons ⟨rfl, Json.readsAs_three⟩ .nil
  · cases m.file with
    | none => exact .nil
    | some s => exact .cons (memberReadsAs_text "file" s) .nil
  · exact .cons (memberReadsAs_quotedList "sources" m.sources) .nil
  · cases m.sourceRoot with
    | none => exact .nil
    | some s => exact .cons (memberReadsAs_text "sourceRoot" s) .nil
  · split
    · exact .cons (memberReadsAs_contents "sourcesContent" m.contents) .nil
    · exact .nil
  · exact .cons (memberReadsAs_quotedList "names" m.names)
      (.cons (memberReadsAs_text "mappings" (mappingsText m.mappings)) .nil)

theorem ofText?_toText (m : SourceMap) : ofText? m.toText.toList = ofMembers? m.members := by
  obtain ⟨field, fields, hfields⟩ : ∃ field fields, m.fields = field :: fields := ⟨_, _, rfl⟩
  have hread : Json.readAll? m.toText.toList = .ok (.object m.members none) := by
    have hmembers := m.membersReadAs
    rw [hfields] at hmembers
    rw [toText, hfields]
    exact Json.readAll?_objectText hmembers
  have hguard : dropGuard m.toText.toList = some m.toText.toList := by
    have hbrace : ∃ s, m.toText.toList = '\x7b' :: s := ⟨_, by
      rw [toText, Json.objectText, String.toList_append, String.toList_append]
      rfl⟩
    obtain ⟨s, hs⟩ := hbrace
    rw [hs, dropGuard, if_neg (by decide)]
  rw [ofText?, hguard]
  simp [hread]

/-- A map is in order: each source has an entry among the contents, and the mappings are sorted and
refer to sources and names that there are. -/
structure Regular (m : SourceMap) : Prop where
  contents : m.contents.length = m.sources.length
  sorted : m.mappings.Pairwise fun a b => a.before b
  refers : ∀ t ∈ m.mappings, t.RefersIn m.sources.length m.names.length

/-- Positions and indices are words. -/
structure FitsWords (m : SourceMap) : Prop where
  sources : m.sources.length ≤ wordCount
  names : m.names.length ≤ wordCount
  positions : ∀ t ∈ m.mappings, t.generated.IsWord ∧ t.origin.IsWord

theorem unrepeated_some (t : Mapping) (ts : List Mapping) :
    ts.destutter' (· ≠ ·) t = t :: unrepeated (some t) ts := by
  induction ts generalizing t with
  | nil => rfl
  | cons t' ts ih =>
    rw [List.destutter'_cons, unrepeated, ih, ih]
    by_cases h : t = t'
    · rw [if_neg (by simpa using h), if_pos (congrArg some h)]
    · rw [if_pos h, if_neg (by simpa using h)]

theorem unrepeated_none (ts : List Mapping) : unrepeated none ts = ts.destutter (· ≠ ·) := by
  cases ts with
  | nil => rfl
  | cons t ts =>
    rw [List.destutter_cons', unrepeated_some]
    rfl

theorem sublist_unrepeated (last : Option Mapping) (ts : List Mapping) :
    (unrepeated last ts).Sublist ts := by
  induction ts generalizing last with
  | nil => exact .slnil
  | cons t ts ih =>
    rw [unrepeated]
    split
    · exact (ih _).cons t
    · exact (ih _).cons_cons t

theorem exists_readLines (hm : m.Regular) (hw : m.FitsWords) : ∃ ts,
    readLines m.sources.length m.names.length 0 {} (Text.pieces ';' (mappingsText m.mappings).toList) =
      some ts ∧ ts.mergeSort Mapping.before = ts ∧
      ts.map Mapping.told = (m.mappings.destutter (· ≠ ·)).map Mapping.told := by
  have hfit : Counters.Fit {} := ⟨by decide, by decide, by decide, by decide, by decide⟩
  obtain ⟨ts, hread, htold⟩ := exists_readFrom_mappingsFrom 0 hw.sources hw.names hfit
    (fun t ht => ⟨(hw.positions t ht).1, (hw.positions t ht).2, hm.refers t ht⟩)
    (fun _ _ => Nat.zero_le _) hm.sorted none
  refine ⟨ts, ?_, ?_, ?_⟩
  · rw [mappingsText, String.toList_ofList, readLines_eq]
    exact hread
  · have hgenerated : ts.map Mapping.generated = (unrepeated none m.mappings).map Mapping.generated := by
      have := congrArg (List.map Prod.fst) htold
      rwa [List.map_map, List.map_map] at this
    have hwritten : ((unrepeated none m.mappings).map Mapping.generated).Pairwise fun p q => p.le q :=
      List.pairwise_map.mpr (hm.sorted.sublist (sublist_unrepeated none m.mappings))
    rw [← hgenerated] at hwritten
    exact List.mergeSort_of_pairwise (List.pairwise_map.mp hwritten)
  · rw [htold, unrepeated_none]

theorem member?_members (m : SourceMap) :
    member? m.members "version" = some (some (.number (.natural 3))) ∧
    member? m.members "file" = some (m.file.map .text) ∧
    member? m.members "sources" = some (some (.array (m.sources.map .text) none)) ∧
    member? m.members "sourceRoot" = some (m.sourceRoot.map .text) ∧
    member? m.members "sourcesContent" = some (if m.contents.any Option.isSome then
      some (.array (m.contents.map fun s => (s.map .text).getD .null) none) else none) ∧
    member? m.members "names" = some (some (.array (m.names.map .text) none)) ∧
    member? m.members "mappings" = some (some (.text (mappingsText m.mappings))) ∧
    member? m.members "sections" = some none := by
  unfold members
  cases m.file <;> cases m.sourceRoot <;> cases m.contents.any Option.isSome <;>
    simp [member?]

theorem exists_ofMembers?_members (hm : m.Regular) (hw : m.FitsWords) : ∃ ts,
    ofMembers? m.members = some { m with mappings := ts } ∧
      ts.map Mapping.told = (m.mappings.destutter (· ≠ ·)).map Mapping.told := by
  obtain ⟨ts, hread, hsorted, htold⟩ := exists_readLines hm hw
  obtain ⟨hversion, hfile, hsources, hroot, hcontents, hnames, hmappings, hsections⟩ := m.member?_members
  refine ⟨ts, ?_, htold⟩
  have hsourceList : listMember? m.members "sources" textItem? = some (m.sources.map some) := by
    rw [listMember?, hsources]
    simp only [Option.bind_eq_bind, Option.bind_some, List.mapM_map]
    exact mapM_eq_some_map fun _ _ => rfl
  have hcontentList : listMember? m.members "sourcesContent" textItem? =
      some (if m.contents.any Option.isSome then m.contents else []) := by
    rw [listMember?, hcontents]
    split
    · simp only [Option.bind_eq_bind, Option.bind_some, List.mapM_map]
      refine (mapM_eq_some_map (g := id) fun s _ => ?_).trans (by rw [List.map_id])
      cases s <;> rfl
    · rfl
  have hnameList : (listMember? m.members "names" fun v => some (nameItem v)) = some m.names := by
    rw [listMember?, hnames]
    simp only [Option.bind_eq_bind, Option.bind_some, List.mapM_map]
    exact (mapM_eq_some_map (g := id) fun _ _ => rfl).trans (by rw [List.map_id])
  have hrootText : textMember? m.members "sourceRoot" = some m.sourceRoot := by
    rw [textMember?, hroot]
    cases m.sourceRoot <;> rfl
  have hmappingText : textMember? m.members "mappings" = some (some (mappingsText m.mappings)) := by
    rw [textMember?, hmappings]
    rfl
  have hlisted : (List.range m.sources.length).map (fun i =>
      ((if m.contents.any Option.isSome then m.contents else [])[i]?).join) = m.contents := by
    rw [← hm.contents]
    refine List.ext_getElem (by simp) fun i hi hi' => ?_
    rw [List.getElem_map, List.getElem_range]
    split
    · rw [List.getElem?_eq_getElem hi', Option.join_some]
    next hnone =>
      have hempty : m.contents[i] = none := by
        rw [Bool.not_eq_true, List.any_eq_false] at hnone
        simpa using hnone _ (List.getElem_mem hi')
      rw [hempty]
      rfl
  have hfits : versionFits (some (.number (.natural 3))) = true := by decide
  rw [ofMembers?, hversion, hfile]
  simp only [Option.bind_eq_bind, Option.bind_some, hsourceList, hcontentList, hnameList, hrootText,
    hmappingText, hsections, hfits]
  have hsourced : (m.sources.map some).map (fun s => s.getD "") = m.sources := by simp
  simp only [hread, hsorted, hlisted, hsourced, List.length_map, Option.getD_some,
    Option.isSome_none, Bool.not_true, Bool.or_self, Bool.false_eq_true, if_false, Option.bind_some]
  cases m.file <;> rfl

/-- The tokens of a map. -/
def tokens (m : SourceMap) : List (Position × Option (String × Position) × Option String) :=
  m.segments.map Segment.told

/-- The indices of a mapping, looked up. -/
def lookUp (m : SourceMap) (told : Position × Option (Nat × Position) × Option Nat) :
    Position × Option (String × Position) × Option String :=
  (told.1, told.2.1.bind fun (i, origin) => (m.sourceNames[i]?).map (·, origin),
    told.2.2.bind fun i => m.names[i]?)

theorem tokens_eq (m : SourceMap) : m.tokens = (m.mappings.map Mapping.told).map m.lookUp := by
  have hsegments : m.segments = m.mappings.map m.segment := rfl
  rw [tokens, hsegments, List.map_map, List.map_map]
  refine List.map_congr_left fun t _ => ?_
  obtain ⟨generated, origin, source, name⟩ := t
  cases source <;> rfl

theorem exists_destutter' {α : Type} [DecidableEq α] (a : α) (xs : List α) :
    ∃ rest, xs.destutter' (· ≠ ·) a = a :: rest := by
  induction xs with
  | nil => exact ⟨[], rfl⟩
  | cons b xs ih =>
    rw [List.destutter'_cons]
    split
    · exact ⟨_, rfl⟩
    · exact ih

/-- Whether equal neighbours are passed over also before an image is taken is all the same. -/
theorem destutter_map_destutter {α β : Type} [DecidableEq α] [DecidableEq β] (f : α → β) (xs : List α) :
    ((xs.destutter (· ≠ ·)).map f).destutter (· ≠ ·) = (xs.map f).destutter (· ≠ ·) := by
  have hstep : ∀ (a : α) (xs : List α), ((xs.destutter' (· ≠ ·) a).map f).destutter (· ≠ ·) =
      (xs.map f).destutter' (· ≠ ·) (f a) := by
    intro a xs
    induction xs generalizing a with
    | nil => rfl
    | cons b xs ih =>
      rw [List.destutter'_cons, List.map_cons, List.destutter'_cons]
      by_cases hab : a = b
      · rw [if_neg (not_not.mpr hab), if_neg (not_not.mpr (congrArg f hab)), ih]
      · obtain ⟨rest, hrest⟩ := exists_destutter' b xs
        have hb := ih b
        rw [hrest, List.map_cons, List.destutter_cons'] at hb
        rw [if_pos hab, hrest, List.map_cons, List.map_cons, List.destutter_cons', List.destutter'_cons, hb]
        split
        · rfl
        next hf =>
          rw [not_not.mp hf]
          exact hb
  cases xs with
  | nil => rfl
  | cons a xs => exact hstep a xs

/-- A map in order is read back from its comment, but for repetitions of a token. -/
theorem exists_of_regular (hm : m.Regular) (hw : m.FitsWords) : ∃ m',
    ofComment? m.comment.toList = some m' ∧ m'.file = m.file ∧ m'.sourceRoot = m.sourceRoot ∧
      m'.sources = m.sources ∧ m'.contents = m.contents ∧ m'.names = m.names ∧
      m'.tokens.destutter (· ≠ ·) = m.tokens.destutter (· ≠ ·) := by
  obtain ⟨ts, hread, htold⟩ := exists_ofMembers?_members hm hw
  refine ⟨{ m with mappings := ts }, ?_, rfl, rfl, rfl, rfl, rfl, ?_⟩
  · rw [ofComment?_comment, ofText?_toText, hread]
  · have hlookUp : ({ m with mappings := ts } : SourceMap).lookUp = m.lookUp := rfl
    rw [tokens_eq, tokens_eq, hlookUp, htold, List.map_map, List.map_map, destutter_map_destutter]

end SourceMap

end FlatBundle
