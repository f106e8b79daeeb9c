import FlatBundle.Proofs.SourceMap.RoundTrip

/-!
What a composed map says of places and of sources: which origin a place gets, and which content a source has.
-/

namespace FlatBundle.SourceMap

variable {m outer inner : SourceMap} {t : Mapping} {p : Position} {name : String} {content? : Option String}

section Places

/-- A map with those tokens only that lead on. -/
def leading (outer inner : SourceMap) : SourceMap :=
  { outer with mappings := outer.mappings.filter fun t => (inner.passedOn? t).isSome }

/-- Two tokens of one line, from two lines. -/
def unwrappedMap : SourceMap where
  sources := ["m.js"]
  contents := [none]
  names := []
  mappings := [⟨⟨0, 0⟩, ⟨0, 0⟩, some 0, none⟩, ⟨⟨0, 5⟩, ⟨1, 0⟩, some 0, none⟩]

end Places

section Contents

/-- There is a content for a source. -/
def HasContent (m : SourceMap) (name : String) : Prop :=
  ∃ content, (name, some content) ∈ m.contentUpdates

/-- What the last entry of a source has as its content. -/
def LastEntry (m : SourceMap) (name : String) (content? : Option String) : Prop :=
  ∃ front back, m.contentUpdates = front ++ (name, content?) :: back ∧ ∀ u ∈ back, u.1 ≠ name

theorem lastEntry_iff_lookup : m.LastEntry name content? ↔
    m.contentUpdates.reverse.lookup name = some content? := by
  rw [List.lookup_eq_some_iff]
  constructor
  · rintro ⟨front, back, hsplit, hback⟩
    refine ⟨back.reverse, front.reverse, by simp [hsplit], fun u hu => ?_⟩
    exact bne_iff_ne.mpr (hback u (List.mem_reverse.mp hu)).symm
  · rintro ⟨back, front, hsplit, hback⟩
    refine ⟨front.reverse, back.reverse, ?_, fun u hu => ?_⟩
    · rw [← List.reverse_reverse m.contentUpdates, hsplit]
      simp
    · exact (bne_iff_ne.mp (hback u (List.mem_reverse.mp hu))).symm

/-- A source has an entry exactly when it has a last one. -/
theorem exists_lastEntry (h : name ∈ m.contentUpdates.map Prod.fst) : ∃ last?, m.LastEntry name last? := by
  cases hlookup : m.contentUpdates.reverse.lookup name with
  | some last? => exact ⟨last?, lastEntry_iff_lookup.mpr hlookup⟩
  | none =>
    obtain ⟨u, hu, rfl⟩ := List.mem_map.mp h
    have hother := List.lookup_eq_none_iff.mp hlookup u (List.mem_reverse.mpr hu)
    simp at hother

theorem contentUpdates_compose : (outer.compose inner).contentUpdates =
    (firstOccurrences inner.sourceNames).map fun name =>
      (name, (inner.contentUpdates.reverse.lookup name).join) := by
  have hcontents : (outer.compose inner).contents = (outer.compose inner).sourceNames.map fun name =>
      (inner.contentUpdates.reverse.lookup name).join := rfl
  rw [contentUpdates, hcontents, sourceNames_compose, List.map_prod_left_eq_zip]

theorem fst_contentUpdates (hm : m.Regular) : m.contentUpdates.map Prod.fst = m.sourceNames :=
  List.map_fst_zip (by rw [length_sourceNames, hm.contents])

/-- A composed map has each source of the map that it leads through with the content of the last entry. -/
theorem mem_contentUpdates_compose (hinner : inner.Regular) :
    (name, content?) ∈ (outer.compose inner).contentUpdates ↔ inner.LastEntry name content? := by
  rw [contentUpdates_compose, List.mem_map]
  constructor
  · rintro ⟨name', hname, heq⟩
    obtain ⟨rfl, rfl⟩ := Prod.mk.inj heq
    obtain ⟨last?, hlast⟩ := exists_lastEntry (fst_contentUpdates hinner ▸ mem_firstOccurrences.mp hname)
    rwa [lastEntry_iff_lookup.mp hlast]
  · intro hlast
    have hlookup := lastEntry_iff_lookup.mp hlast
    obtain ⟨front, back, hsplit, -⟩ := hlast
    have hname : name ∈ inner.sourceNames := by
      rw [← fst_contentUpdates hinner, hsplit]
      simp
    refine ⟨name, mem_firstOccurrences.mpr hname, ?_⟩
    rw [hlookup]
    rfl

/-- In a composed map, the content of a source is that of its last entry. So a source loses its content exactly
when it has an entry with a content, but its last one has none. -/
theorem contents_of_compose (hinner : inner.Regular) :
    (∀ name content?, (name, content?) ∈ (outer.compose inner).contentUpdates ↔
      inner.LastEntry name content?) ∧
    ((∀ name, inner.HasContent name → (outer.compose inner).HasContent name) ↔
      ∀ name, inner.HasContent name → ¬inner.LastEntry name none) := by
  refine ⟨fun name content? => mem_contentUpdates_compose hinner, fun h name hname hlost => ?_,
    fun h name hname => ?_⟩
  · obtain ⟨content, hcontent⟩ := h name hname
    have hlast := lastEntry_iff_lookup.mp ((mem_contentUpdates_compose hinner).mp hcontent)
    exact absurd (hlast.symm.trans (lastEntry_iff_lookup.mp hlost)) (by simp)
  · obtain ⟨content, hcontent⟩ := hname
    obtain ⟨last?, hlast⟩ := exists_lastEntry (List.mem_map_of_mem (f := Prod.fst) hcontent)
    cases last? with
    | none => exact absurd hlast (h name ⟨content, hcontent⟩)
    | some last => exact ⟨last, (mem_contentUpdates_compose hinner).mpr hlast⟩

/-- A source that is listed twice, the second time without its content. -/
def relistedMap : SourceMap where
  sources := ["a.ts", "a.ts"]
  contents := [some "x", none]
  names := []
  mappings := [⟨⟨0, 0⟩, ⟨0, 0⟩, some 0, none⟩]

theorem contents_of_compose_relistedMap : relistedMap.Regular ∧
    ("a.ts", none) ∈ (unwrappedMap.compose relistedMap).contentUpdates := by
  have hregular : relistedMap.Regular := ⟨rfl, by decide, by decide⟩
  exact ⟨hregular, ((contents_of_compose hregular).1 "a.ts" none).mpr
    ⟨[("a.ts", some "x")], [], rfl, by simp⟩⟩

/-- A source may lose the content that it has. -/
theorem not_keepsContents : ¬∀ (outer inner : SourceMap) (name : String), outer.Regular → inner.Regular →
    inner.HasContent name → (outer.compose inner).HasContent name := by
  intro h
  obtain ⟨content, hcontent⟩ := h unwrappedMap relistedMap "a.ts" ⟨rfl, by decide, by decide⟩
    ⟨rfl, by decide, by decide⟩ ⟨"x", by decide⟩
  rw [contentUpdates_compose] at hcontent
  simp [relistedMap, contentUpdates, sourceNames, firstOccurrences] at hcontent

end Contents

end FlatBundle.SourceMap
