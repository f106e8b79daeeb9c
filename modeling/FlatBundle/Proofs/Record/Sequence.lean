import FlatBundle.Proofs.Json.Extent
import FlatBundle.Record.Reading

/-!
Records in a list and records one after the other. Both are read record by record, so that the same objects give the
same records whatever white space stands between them, and the first object that is no record is counted.
-/

namespace FlatBundle

open Json (isSpace skipSpace ObjectText objectText objectText_objectText readsAs_quote readsAs_three readsAs_null)

variable {gap s t o front text tail rest : List Char} {object bad : String} {objects : List String} {record : Record}
  {records : List Record} {members : List (Option String × Json.Value)} {fuel number : Nat} {fault : ReadFault}

/-- White space, or nothing. -/
def Gap (s : List Char) : Prop :=
  ∀ c ∈ s, isSpace c = true

/-- Texts one after the other, with gaps before, between and after them. -/
inductive InSequence : List String → List Char → Prop
  | nil {gap : List Char} (h : Gap gap) : InSequence [] gap
  | cons {gap rest : List Char} {object : String} {objects : List String} (h : Gap gap)
    (hrest : InSequence objects rest) : InSequence (object :: objects) (gap ++ (object.toList ++ rest))

/-- Texts with commas between them, and with gaps around each of them. -/
inductive InItems : List String → List Char → Prop
  | last {before after : List Char} {object : String} (hbefore : Gap before) (hafter : Gap after) :
    InItems [object] (before ++ (object.toList ++ after))
  | cons {before after rest : List Char} {object : String} {objects : List String} (hbefore : Gap before)
    (hafter : Gap after) (hrest : InItems objects rest) :
    InItems (object :: objects) (before ++ (object.toList ++ (after ++ ',' :: rest)))

/-- Texts in an array. -/
inductive InArray : List String → List Char → Prop
  | empty {before inner after : List Char} (hbefore : Gap before) (hinner : Gap inner) (hafter : Gap after) :
    InArray [] (before ++ '[' :: (inner ++ ']' :: after))
  | items {before text after : List Char} {objects : List String} (hbefore : Gap before) (hafter : Gap after)
    (htext : InItems objects text) : InArray objects (before ++ '[' :: (text ++ ']' :: after))

/-- The text of an object that is a record. -/
def RecordText (object : String) (record : Record) : Prop :=
  ∃ members, ObjectText object.toList members ∧ Reading.record (.object members none) = .ok record

/-- The text of an object that is no record. -/
def FaultyText (object : String) (fault : ReadFault) : Prop :=
  ∃ members, ObjectText object.toList members ∧ Reading.record (.object members none) = .error fault

section Gaps

theorem Gap.skipSpace_append (h : Gap gap) (s : List Char) : skipSpace (gap ++ s) = skipSpace s :=
  List.dropWhile_append_of_pos h

theorem Gap.skipSpace_eq_nil (h : Gap gap) : skipSpace gap = [] := by
  have hnone := h.skipSpace_append []
  rwa [List.append_nil] at hnone

theorem isBlank_of_isSpace {c : Char} (h : isSpace c = true) : isBlank c = true := by
  simp only [isSpace, Bool.or_eq_true, beq_iff_eq] at h
  rcases h with ((rfl | rfl) | rfl) | rfl <;> decide

theorem Gap.dropBlank_append (h : Gap gap) (s : List Char) : (gap ++ s).dropWhile isBlank = s.dropWhile isBlank :=
  List.dropWhile_append_of_pos fun c hc => isBlank_of_isSpace (h c hc)

theorem Json.ObjectText.exists_eq (h : ObjectText o members) : ∃ t, o = '\x7b' :: t :=
  ⟨o.tail, (List.cons_head?_tail h.first).symm⟩

theorem Json.ObjectText.exists_skipSpace (h : ObjectText o members) (hgap : Gap gap) (rest : List Char) :
    skipSpace (gap ++ (o ++ rest)) = o ++ rest ∧ ∃ t, o ++ rest = '\x7b' :: t := by
  obtain ⟨t, rfl⟩ := h.exists_eq
  rw [hgap.skipSpace_append]
  exact ⟨Json.skipSpace_cons (by decide), _, rfl⟩

theorem Json.ObjectText.dropBlank_ne (h : ObjectText o members) (rest : List Char) :
    ∀ t, (o ++ rest).dropWhile isBlank ≠ '[' :: t := by
  obtain ⟨u, rfl⟩ := h.exists_eq
  have hbrace : isBlank '\x7b' = false := by decide
  intro t
  rw [List.cons_append, List.dropWhile_cons, hbrace]
  exact fun heq => absurd (List.cons.inj heq).1 (by decide)

end Gaps

section Sequence

theorem readSequence_gap (hgap : Gap gap) : readSequence fuel number (gap ++ s) = readSequence fuel number s := by
  cases fuel with
  | zero => rfl
  | succ fuel => rw [readSequence, readSequence, hgap.skipSpace_append]

/-- One object is taken at a time, whatever follows it. -/
theorem readSequence_object (ho : ObjectText o members) (rest : List Char) :
    readSequence (fuel + 1) number (o ++ rest) = do
      let r ← (Reading.record (.object members none)).mapError (RecordsFault.mk (.number number))
      let more ← readSequence fuel (number + 1) rest
      return r :: more := by
  have hgap : Gap [] := nofun
  obtain ⟨hskip, t, hcons⟩ := ho.exists_skipSpace hgap rest
  have hread : Json.read (o ++ rest) = (.object members none, rest) :=
    ho.readValue_append (by simp only [List.length_append]; omega) rest
  rw [List.nil_append] at hskip
  rw [readSequence, hskip]
  split
  next hnil => rw [hcons] at hnil; cases hnil
  next => rw [hread]

/-- What follows some records is read with the count that they have come to. -/
theorem readSequence_append (hfront : InSequence objects front) (h : List.Forall₂ RecordText objects records)
    (number : Nat) (hfuel : (front ++ tail).length < fuel) : ∃ fuel', tail.length < fuel' ∧
      readSequence fuel number (front ++ tail) =
        (readSequence fuel' (number + objects.length) tail).map (records ++ ·) := by
  induction hfront generalizing fuel number records with
  | nil hgap =>
    obtain rfl := List.forall₂_nil_left_iff.mp h
    refine ⟨fuel, by rw [List.length_append] at hfuel; omega, ?_⟩
    rw [readSequence_gap hgap]
    cases readSequence fuel number tail <;> rfl
  | @cons gap rest object objects hgap _ ih =>
    obtain ⟨record, records, ⟨members, ho, hrecord⟩, hrecords, rfl⟩ := List.forall₂_cons_left_iff.mp h
    obtain ⟨t, hcons⟩ := ho.exists_eq
    obtain ⟨fuel, rfl⟩ : ∃ n, fuel = n + 1 := ⟨fuel - 1, by omega⟩
    have hlt : (rest ++ tail).length < fuel := by
      rw [hcons] at hfuel
      simp only [List.length_append, List.length_cons] at hfuel ⊢
      omega
    obtain ⟨fuel', hfuel', htail⟩ := ih hrecords (number + 1) hlt
    refine ⟨fuel', hfuel', ?_⟩
    rw [List.append_assoc, readSequence_gap hgap, List.append_assoc, readSequence_object ho, hrecord, htail,
      List.length_cons, Nat.add_right_comm, Nat.add_assoc]
    cases readSequence fuel' (number + (objects.length + 1)) tail <;> rfl

/-- A text that is no list is a sequence of records. -/
theorem readRecords_eq_readSequence {text : String} (h : ∀ t, text.toList.dropWhile isBlank ≠ '[' :: t) :
    readRecords text = readSequence (text.toList.length + 1) 1 text.toList := by
  unfold readRecords
  dsimp only
  split
  next t heq => exact absurd heq (h t)
  next => rfl

theorem InSequence.dropBlank_ne (hfront : InSequence objects front) (h : List.Forall₂ RecordText objects records)
    (htail : ∀ t, tail.dropWhile isBlank ≠ '[' :: t) : ∀ t, (front ++ tail).dropWhile isBlank ≠ '[' :: t := by
  cases hfront with
  | nil hgap => rwa [hgap.dropBlank_append]
  | cons hgap _ =>
    obtain ⟨record, records, ⟨members, ho, -⟩, -, rfl⟩ := List.forall₂_cons_left_iff.mp h
    rw [List.append_assoc, hgap.dropBlank_append, List.append_assoc]
    exact ho.dropBlank_ne _

end Sequence

section Items

theorem readValue_gap (hgap : Gap gap) : Json.readValue fuel (gap ++ s) = Json.readValue fuel s := by
  rw [← Json.readValue_skipSpace, hgap.skipSpace_append, Json.readValue_skipSpace]

/-- Items start with the brace of the first one. -/
theorem InItems.exists_skipSpace (h : InItems objects text) (hrecords : List.Forall₂ RecordText objects records)
    (rest : List Char) : ∃ t, skipSpace (text ++ rest) = '\x7b' :: t := by
  cases h with
  | last hbefore =>
    obtain ⟨record, records, ⟨members, ho, -⟩, -, rfl⟩ := List.forall₂_cons_left_iff.mp hrecords
    obtain ⟨hskip, t, hcons⟩ := ho.exists_skipSpace hbefore _
    exact ⟨t, by rw [List.append_assoc, List.append_assoc, hskip, hcons]⟩
  | cons hbefore =>
    obtain ⟨record, records, ⟨members, ho, -⟩, -, rfl⟩ := List.forall₂_cons_left_iff.mp hrecords
    obtain ⟨hskip, t, hcons⟩ := ho.exists_skipSpace hbefore _
    exact ⟨t, by rw [List.append_assoc, List.append_assoc, hskip, hcons]⟩

/-- Items are read one by one, and each of them gives its record. -/
theorem readItems_inItems (h : InItems objects text) (hrecords : List.Forall₂ RecordText objects records)
    (hfuel : text.length + 1 < fuel) (rest : List Char) : ∃ items,
      Json.readItems fuel (text ++ ']' :: rest) = (items, none, rest) ∧ items.mapM Reading.record = .ok records := by
  induction h generalizing fuel records with
  | @last before after object hbefore hafter =>
    obtain ⟨record, records, ⟨members, ho, hrecord⟩, hnil, rfl⟩ := List.forall₂_cons_left_iff.mp hrecords
    obtain rfl := List.forall₂_nil_left_iff.mp hnil
    obtain ⟨fuel, rfl⟩ : ∃ n, fuel = n + 1 := ⟨fuel - 1, by omega⟩
    have hlt : object.toList.length < fuel := by
      simp only [List.length_append] at hfuel
      omega
    have hvalue := ho.readValue_append hlt (after ++ ']' :: rest)
    have hclosed : skipSpace (after ++ ']' :: rest) = ']' :: rest := by
      rw [hafter.skipSpace_append, Json.skipSpace_cons (by decide)]
    rw [← readValue_gap hbefore] at hvalue
    refine ⟨[.object members none], ?_, by rw [List.mapM_cons, hrecord]; rfl⟩
    rw [List.append_assoc, List.append_assoc]
    exact Json.readItems_closed hvalue rfl hclosed
  | @cons before after text object objects hbefore hafter htext ih =>
    obtain ⟨record, records, ⟨members, ho, hrecord⟩, hmore, rfl⟩ := List.forall₂_cons_left_iff.mp hrecords
    obtain ⟨fuel, rfl⟩ : ∃ n, fuel = n + 1 := ⟨fuel - 1, by omega⟩
    have hlt : object.toList.length < fuel ∧ text.length + 1 < fuel := by
      simp only [List.length_append, List.length_cons] at hfuel
      omega
    obtain ⟨items, hitems, hmap⟩ := ih hmore hlt.2
    obtain ⟨t, hnext⟩ := htext.exists_skipSpace hmore (']' :: rest)
    have hvalue := ho.readValue_append hlt.1 (after ++ ',' :: (text ++ ']' :: rest))
    have hcomma : skipSpace (after ++ ',' :: (text ++ ']' :: rest)) = ',' :: (text ++ ']' :: rest) := by
      rw [hafter.skipSpace_append, Json.skipSpace_cons (by decide)]
    rw [← readValue_gap hbefore] at hvalue
    rw [← Json.readItems_skipSpace, hnext] at hitems
    refine ⟨.object members none :: items, ?_, by rw [List.mapM_cons, hrecord, hmap]; rfl⟩
    rw [List.append_assoc, List.append_assoc, List.append_assoc, List.cons_append,
      Json.readItems_more hvalue rfl hcomma hnext (by decide), hitems]

/-- An array is read up to its bracket, and what follows it is left. -/
theorem read_inArray (h : InArray objects text) (hrecords : List.Forall₂ RecordText objects records) :
    ∃ items rest, Json.read text = (.array items none, rest) ∧ skipSpace rest = [] ∧
      items.mapM Reading.record = .ok records := by
  cases h with
  | empty hbefore hinner hafter =>
    obtain rfl := List.forall₂_nil_left_iff.mp hrecords
    refine ⟨[], _, ?_, hafter.skipSpace_eq_nil, rfl⟩
    rw [Json.read, readValue_gap hbefore]
    exact Json.readValue_emptyArray (by rw [hinner.skipSpace_append, Json.skipSpace_cons (by decide)])
  | @items before text after _ hbefore hafter htext =>
    obtain ⟨t, hnext⟩ := htext.exists_skipSpace hrecords (']' :: after)
    have hlt : text.length + 1 < (before ++ '[' :: (text ++ ']' :: after)).length := by
      simp only [List.length_append, List.length_cons]
      omega
    obtain ⟨items, hitems, hmap⟩ := readItems_inItems htext hrecords hlt after
    rw [← Json.readItems_skipSpace, hnext] at hitems
    refine ⟨items, after, ?_, hafter.skipSpace_eq_nil, hmap⟩
    rw [Json.read, readValue_gap hbefore, Json.readValue_array hnext (by decide), hitems]

theorem InArray.exists_dropBlank (h : InArray objects text) : ∃ t, text.dropWhile isBlank = '[' :: t := by
  have hbracket : isBlank '[' = false := by decide
  cases h with
  | empty hbefore => exact ⟨_, by rw [hbefore.dropBlank_append, List.dropWhile_cons, hbracket]; rfl⟩
  | items hbefore => exact ⟨_, by rw [hbefore.dropBlank_append, List.dropWhile_cons, hbracket]; rfl⟩

end Items

/-- The text of an array of records and the text of the same records one after the other give the same list, with any
white space between the tokens. Where an object that is no record follows some records, it is reported with its number,
whatever comes after it. -/
theorem readRecords_objects (h : List.Forall₂ RecordText objects records) :
    (∀ text : String, InArray objects text.toList → readRecords text = .ok records) ∧
    (∀ text : String, InSequence objects text.toList → readRecords text = .ok records) ∧
    ∀ (text : String) (front rest : List Char) (bad : String) (fault : ReadFault), InSequence objects front →
      FaultyText bad fault → text.toList = front ++ (bad.toList ++ rest) →
        ∃ e, readRecords text = .error e ∧ e.fault = fault ∧
          e.place.message = "Invalid module record #" ++ toString (objects.length + 1) := by
  refine ⟨fun text harray => ?_, fun text hsequence => ?_, fun text front rest bad fault hfront hbad htext => ?_⟩
  · obtain ⟨t, hdrop⟩ := harray.exists_dropBlank
    obtain ⟨items, rest, hread, hrest, hmap⟩ := read_inArray harray h
    unfold readRecords
    dsimp only
    rw [hdrop, Reading.wholeText, hread]
    dsimp only
    rw [Reading.list, hmap, hrest]
    rfl
  · have hlist : ∀ t, ([] : List Char).dropWhile isBlank ≠ '[' :: t := nofun
    have hdrop := hsequence.dropBlank_ne h hlist
    have hlt : (text.toList ++ []).length < text.toList.length + 1 := by simp
    obtain ⟨fuel, hfuel, hread⟩ := readSequence_append hsequence h 1 hlt
    obtain ⟨fuel, rfl⟩ := Nat.exists_eq_add_of_lt hfuel
    rw [List.append_nil] at hdrop hread
    rw [readRecords_eq_readSequence hdrop, hread]
    exact congrArg Except.ok (List.append_nil records)
  · obtain ⟨members, ho, hfault⟩ := hbad
    have hdrop := hfront.dropBlank_ne h (ho.dropBlank_ne rest)
    obtain ⟨fuel, hfuel, hread⟩ := readSequence_append hfront h 1
      (Nat.lt_succ_self (front ++ (bad.toList ++ rest)).length)
    obtain ⟨fuel, rfl⟩ : ∃ n, fuel = n + 1 := ⟨fuel - 1, by omega⟩
    rw [readSequence_object ho, hfault] at hread
    refine ⟨⟨.number (1 + objects.length), fault⟩, ?_, rfl, by rw [Nat.add_comm]; rfl⟩
    rw [readRecords_eq_readSequence (htext ▸ hdrop), htext, hread]
    rfl

theorem readRecords_objects_twoRecords :
    let records : List Record := [{ id := .number 3, source := "" }, { id := .name "b", source := "f" }]
    List.Forall₂ RecordText
      ["\x7b\"id\":3,\"source\":\"\",\"dev\":null\x7d", "\x7b\"id\":\"b\",\"source\":\"f\"\x7d"] records ∧
      readRecords "[\x7b\"id\":3,\"source\":\"\",\"dev\":null\x7d, \x7b\"id\":\"b\",\"source\":\"f\"\x7d]\n" =
        .ok records ∧
      readRecords "\x7b\"id\":3,\"source\":\"\",\"dev\":null\x7d\x7b\"id\":\"b\",\"source\":\"f\"\x7d" = .ok records ∧
      ∃ e, readRecords
        "\x7b\"id\":3,\"source\":\"\",\"dev\":null\x7d\x7b\"id\":\"b\",\"source\":\"f\"\x7d\x7b\"id\":3\x7d]" =
          .error e ∧ e.place.message = "Invalid module record #3" := by
  have hfirst : RecordText "\x7b\"id\":3,\"source\":\"\",\"dev\":null\x7d" { id := .number 3, source := "" } := by
    have htext : "\x7b\"id\":3,\"source\":\"\",\"dev\":null\x7d" =
        objectText [("id", "3"), ("source", Text.quote ""), ("dev", "null")] := by decide +kernel
    rw [htext]
    exact ⟨[(some "id", .number (.natural 3)), (some "source", .text ""), (some "dev", .null)],
      objectText_objectText
        (.cons ⟨rfl, readsAs_three⟩ (.cons ⟨rfl, readsAs_quote _⟩ (.cons ⟨rfl, readsAs_null⟩ .nil))), rfl⟩
  have hsecond : RecordText "\x7b\"id\":\"b\",\"source\":\"f\"\x7d" { id := .name "b", source := "f" } := by
    have htext : "\x7b\"id\":\"b\",\"source\":\"f\"\x7d" =
        objectText [("id", Text.quote "b"), ("source", Text.quote "f")] := by decide +kernel
    rw [htext]
    exact ⟨[(some "id", .text "b"), (some "source", .text "f")],
      objectText_objectText (.cons ⟨rfl, readsAs_quote _⟩ (.cons ⟨rfl, readsAs_quote _⟩ .nil)), rfl⟩
  have hbad : FaultyText "\x7b\"id\":3\x7d" (.data (.missing "source")) := by
    have htext : "\x7b\"id\":3\x7d" = objectText [("id", "3")] := by decide +kernel
    rw [htext]
    exact ⟨[(some "id", .number (.natural 3))], objectText_objectText (.cons ⟨rfl, readsAs_three⟩ .nil), rfl⟩
  have h := List.Forall₂.cons hfirst (List.Forall₂.cons hsecond List.Forall₂.nil)
  have hgap : Gap [] := nofun
  have hspace : Gap [' '] := List.forall_mem_singleton.mpr rfl
  have hline : Gap ['\n'] := List.forall_mem_singleton.mpr rfl
  have hsequence : InSequence
      ["\x7b\"id\":3,\"source\":\"\",\"dev\":null\x7d", "\x7b\"id\":\"b\",\"source\":\"f\"\x7d"] _ :=
    .cons hgap (.cons hgap (.nil hgap))
  obtain ⟨hlist, hlines, hnumber⟩ := readRecords_objects h
  refine ⟨h, hlist _ (.items hgap hline (.cons hgap hgap (.last hspace hgap))), hlines _ hsequence, ?_⟩
  exact (hnumber _ _ [']'] _ _ hsequence hbad rfl).imp fun e he => ⟨he.1, he.2.2⟩

end FlatBundle
