import FlatBundle.Proofs.SourceMap.Lookup

/-!
Maps composed: a token of one leads through the token of the other that is looked up at its origin.
-/

namespace FlatBundle.SourceMap

variable {outer inner : SourceMap} {t o : Mapping} {s : Segment} {p : Position} {name : String}

/-- A token leads to the one that is looked up at its origin, if that is on the same line and has a source. -/
structure LeadsTo (inner : SourceMap) (t o : Mapping) : Prop where
  found : inner.lookup t.origin = some o
  line : o.generated.line = t.origin.line
  sourced : o.source.isSome

/-- Where a token leads to, at the place of another one. -/
def passedOn (inner : SourceMap) (t o : Mapping) : Segment :=
  { inner.segment o with generated := t.generated }

/-- What becomes of a token in a composed map. -/
def passedOn? (inner : SourceMap) (t : Mapping) : Option Segment := do
  let o ← inner.lookup t.origin
  if o.generated.line ≠ t.origin.line || o.source.isNone then none else some (inner.passedOn t o)

theorem compose_eq : outer.compose inner =
    ofSegments inner.sourceNames inner.contentUpdates (outer.mappings.filterMap inner.passedOn?) :=
  rfl

theorem passedOn?_eq_some_iff : inner.passedOn? t = some s ↔ ∃ o, inner.LeadsTo t o ∧ s = inner.passedOn t o := by
  refine Option.bind_eq_some_iff.trans ?_
  constructor
  · rintro ⟨o, hfound, hs⟩
    obtain ⟨hleads, hs⟩ := Option.ite_none_left_eq_some.mp hs
    obtain ⟨hline, hsource⟩ : o.generated.line = t.origin.line ∧ o.source ≠ none := by simpa using hleads
    exact ⟨o, ⟨hfound, hline, Option.isSome_iff_ne_none.mpr hsource⟩, (Option.some.inj hs).symm⟩
  · rintro ⟨o, ⟨hfound, hline, hsourced⟩, rfl⟩
    refine ⟨o, hfound, ?_⟩
    rw [if_neg (by simp [hline, Option.isSome_iff_ne_none.mp hsourced])]

/-- A composed map has the tokens that lead on, in order. -/
theorem mem_segments_compose : s ∈ (outer.compose inner).segments ↔
    ∃ t ∈ outer.mappings, ∃ o, inner.LeadsTo t o ∧ s = inner.passedOn t o := by
  rw [compose_eq, mem_segments_ofSegments, List.mem_filterMap]
  simp only [passedOn?_eq_some_iff]

/-- Composing maps leaves tokens where they are. -/
theorem exists_of_mem_segments_compose (h : s ∈ (outer.compose inner).segments) :
    ∃ t ∈ outer.segments, t.generated = s.generated := by
  obtain ⟨t, ht, o, -, rfl⟩ := mem_segments_compose.mp h
  exact ⟨outer.segment t, List.mem_map_of_mem ht, rfl⟩

/-- A composed map has the sources of the map that it leads through. -/
theorem sourceNames_compose (outer inner : SourceMap) :
    (outer.compose inner).sourceNames = firstOccurrences inner.sourceNames := by
  refine firstOccurrences_append fun name hname => ?_
  obtain ⟨s, hs, hsource⟩ := List.mem_filterMap.mp hname
  obtain ⟨t, -, hs⟩ := List.mem_filterMap.mp hs
  obtain ⟨o, -, rfl⟩ := passedOn?_eq_some_iff.mp hs
  exact mem_sourceNames_of_source hsource

end FlatBundle.SourceMap
