import FlatBundle.Proofs.Bundle.Emission
import FlatBundle.Proofs.Bundle.Lines
import FlatBundle.Proofs.SourceMap.Comment
import FlatBundle.Proofs.SourceMap.Compose

/-!
The maps that there are: those that are read, and those that editing, joining and composing make of them.
All of them survive being written into a comment.
-/

namespace FlatBundle.SourceMap

variable {m outer inner : SourceMap} {sources : List String} {contents : List (String × Option String)}
  {segments : List Segment} {s : Segment} {request : MapRequest} {source : String}
  {pairs : List (Position × Position)} {pieces : List Piece}

/-- A token has a name only with a source. -/
def Sourced (s : Segment) : Prop :=
  s.source = none → s.name = none

theorem findIdx?_lt {xs : List String} {name? : Option String} {i : Nat}
    (h : (name?.bind fun name => xs.findIdx? (· == name)) = some i) : i < xs.length := by
  obtain ⟨name, -, h⟩ := Option.bind_eq_some_iff.mp h
  exact (List.findIdx?_eq_some_iff_getElem.mp h).1

theorem regular_ofSegments (h : ∀ s ∈ segments, Sourced s) : (ofSegments sources contents segments).Regular where
  contents := List.length_map _
  sorted := pairwise_before _
  refers t ht := by
    obtain ⟨s, hs, rfl⟩ := mem_mappings_ofSegments.mp ht
    refine ⟨fun i hi => findIdx?_lt hi, fun i hi => findIdx?_lt hi, fun hnone => ?_⟩
    have hsegment : (ofSegments sources contents segments).segment
        ((ofSegments sources contents segments).mapping s) = s := segment_mapping hs
    have hunsourced : s.source = none := by
      rw [← hsegment, segment, hnone]
      rfl
    rw [mapping, h s hs hunsourced]
    rfl

theorem length_sourceNames (m : SourceMap) : m.sourceNames.length = m.sources.length := by
  unfold sourceNames
  split
  · rfl
  · split
    · rfl
    · exact List.length_map _

theorem source_segment {t : Mapping} {names : Nat} (h : t.RefersIn m.sources.length names) :
    (m.segment t).source = none ↔ t.source = none := by
  rw [segment]
  cases hsource : t.source with
  | none => simp
  | some i => simpa [length_sourceNames] using h.source i hsource

theorem sourced_segments (hm : m.Regular) : ∀ s ∈ m.segments, Sourced s := by
  intro s hs
  obtain ⟨t, ht, rfl⟩ : ∃ t ∈ m.mappings, m.segment t = s := List.mem_map.mp hs
  intro hsource
  have hrefers := hm.refers t ht
  rw [segment, hrefers.unnamed ((source_segment hrefers).mp hsource)]
  rfl

theorem regular_pairsMap : (pairsMap request source pairs).Regular := by
  refine regular_ofSegments fun s hs => ?_
  obtain ⟨pair, -, rfl⟩ := List.mem_map.mp hs
  exact fun _ => rfl

theorem regular_joinPieces (hpieces : ∀ p ∈ pieces, ∀ m, p.map = some m → m.Regular)
    (h : (joinPieces pieces).map = some m) : m.Regular := by
  obtain ⟨-, h⟩ := Option.ite_none_left_eq_some.mp h
  obtain rfl := Option.some.inj h
  refine regular_ofSegments fun s hs => ?_
  obtain ⟨k, p, map, hk, hmap, own, hown, rfl⟩ := mem_joinedSegments.mp hs
  exact sourced_segments (hpieces p (List.mem_of_getElem? hk) map hmap) own hown

theorem mem_of_lookup {p : Position} {t : Mapping} (h : m.lookup p = some t) : t ∈ m.mappings := by
  unfold lookup at h
  split at h
  next hfind =>
    cases h
    exact List.mem_of_find?_eq_some hfind
  · exact (List.takeWhile_sublist _).subset (List.mem_of_getLast? h)

theorem regular_compose (hinner : inner.Regular) : (outer.compose inner).Regular := by
  rw [compose_eq]
  refine regular_ofSegments fun s hs => ?_
  obtain ⟨t, -, hs⟩ := List.mem_filterMap.mp hs
  obtain ⟨o, hleads, rfl⟩ := passedOn?_eq_some_iff.mp hs
  exact sourced_segments hinner (inner.segment o) (List.mem_map_of_mem (mem_of_lookup hleads.found))

theorem regular_ofMembers? {members : List (Option String × Json.Value)} (h : ofMembers? members = some m) :
    m.Regular := by
  obtain ⟨version, -, h⟩ := Option.bind_eq_some_iff.mp h
  obtain ⟨file, -, h⟩ := Option.bind_eq_some_iff.mp h
  obtain ⟨sources, -, h⟩ := Option.bind_eq_some_iff.mp h
  obtain ⟨sourceRoot, -, h⟩ := Option.bind_eq_some_iff.mp h
  obtain ⟨contents, -, h⟩ := Option.bind_eq_some_iff.mp h
  obtain ⟨names, -, h⟩ := Option.bind_eq_some_iff.mp h
  obtain ⟨text, -, h⟩ := Option.bind_eq_some_iff.mp h
  obtain ⟨sections, -, h⟩ := Option.bind_eq_some_iff.mp h
  dsimp only at h
  split at h
  · cases h
  · obtain ⟨mappings, hread, h⟩ := Option.bind_eq_some_iff.mp h
    cases h
    exact {
      contents := by simp
      sorted := pairwise_before _
      refers := fun t ht => by
        rw [List.length_map]
        exact refersIn_of_readLines hread t (List.mem_mergeSort.mp ht) }

theorem regular_ofText? {s : List Char} (h : ofText? s = some m) : m.Regular := by
  obtain ⟨s, -, h⟩ := Option.bind_eq_some_iff.mp h
  split at h
  · exact regular_ofMembers? h
  · cases h

/-- The maps that are read from texts, and those made of them. -/
inductive Made : SourceMap → Prop
  | read {s : List Char} {m : SourceMap} (h : ofText? s = some m) : Made m
  | edited {e : EditList} {source : String} {request : MapRequest} {piece : Piece} {m : SourceMap}
    (happly : e.apply source (some request) = .ok piece) (h : piece.map = some m) : Made m
  | joined {pieces : List Piece} {m : SourceMap} (hpieces : ∀ p ∈ pieces, ∀ m, p.map = some m → Made m)
    (h : (joinPieces pieces).map = some m) : Made m
  | composed {outer inner : SourceMap} (houter : Made outer) (hinner : Made inner) :
    Made (outer.compose inner)

namespace Made

theorem regular (h : Made m) : m.Regular := by
  induction h with
  | read h => exact regular_ofText? h
  | edited happly h =>
    rename_i e source request piece m
    rw [EditList.apply] at happly
    cases hstretches : e.stretches source with
    | error error =>
      rw [hstretches] at happly
      cases happly
    | ok stretches =>
      rw [hstretches] at happly
      cases happly
      cases h
      exact regular_pairsMap
  | joined _ h ih => exact regular_joinPieces ih h
  | composed _ _ _ ih => exact regular_compose ih

theorem inOrder (h : Made m) : m.InOrder :=
  h.regular.sorted

end Made

/-- A map is read back from the comment that carries it: its sources, their contents and its names, and
its tokens, where a run of equal ones counts as one. -/
theorem ofComment?_comment_of_made (h : Made m) (hw : m.FitsWords) : ∃ m',
    ofComment? m.comment.toList = some m' ∧ m'.file = m.file ∧ m'.sourceRoot = m.sourceRoot ∧
      m'.sources = m.sources ∧ m'.contents = m.contents ∧ m'.names = m.names ∧
      m'.tokens.destutter (· ≠ ·) = m.tokens.destutter (· ≠ ·) :=
  exists_of_regular h.regular hw

/-- A call whose function is renamed, below a declaration. -/
def renamedCall : EditList :=
  { edits := [⟨0, 1, "g"⟩], intro := "var a;\n" }

theorem ofComment?_comment_renamedCall : ∃ piece m m',
    renamedCall.apply "f(x);\n\"é\";" (some ⟨"a.js", true⟩) = .ok piece ∧ piece.map = some m ∧
      ofComment? m.comment.toList = some m' ∧ m'.sources = ["a.js"] ∧
      m'.contents = [some "f(x);\n\"é\";"] ∧
      m'.tokens.destutter (· ≠ ·) = [(⟨1, 0⟩, some ("a.js", ⟨0, 0⟩), none),
        (⟨1, 1⟩, some ("a.js", ⟨0, 1⟩), none), (⟨2, 0⟩, some ("a.js", ⟨1, 0⟩), none)] := by
  let source := "f(x);\n\"é\";"
  let request : MapRequest := ⟨"a.js", true⟩
  let pieces : List Stretch :=
    .added renamedCall.intro.toList :: stretches 0 renamedCall.edits source.toList ++ [.added []]
  let m := pairsMap request source (stretchPairs {} {} pieces)
  have hstretches : renamedCall.stretches source = .ok pieces := by
    rw [EditList.stretches, renamedCall, resolveEdits_singleton (by decide)]
    rfl
  have happly : renamedCall.apply source (some request) =
      .ok { code := String.ofList (pieces.flatMap Stretch.output), map := some m } := by
    rw [EditList.apply, hstretches]
    rfl
  have hmappings : m.mappings = [⟨⟨1, 0⟩, ⟨0, 0⟩, some 0, none⟩, ⟨⟨1, 1⟩, ⟨0, 1⟩, some 0, none⟩,
      ⟨⟨2, 0⟩, ⟨1, 0⟩, some 0, none⟩] := by
    have hpairs : stretchPairs {} {} pieces = [(⟨1, 0⟩, ⟨0, 0⟩), (⟨1, 1⟩, ⟨0, 1⟩), (⟨2, 0⟩, ⟨1, 0⟩)] := by
      decide +kernel
    unfold m
    rw [pairsMap, mappings_ofSegments, hpairs]
    exact List.mergeSort_of_pairwise (by decide +kernel)
  have hwords : m.FitsWords := by
    refine ⟨by decide, by decide, ?_⟩
    rw [hmappings]
    decide +kernel
  obtain ⟨m', hread, -, -, hsources, hcontents, -, htokens⟩ :=
    ofComment?_comment_of_made (.edited happly rfl) hwords
  refine ⟨_, m, m', happly, rfl, hread, ?_, ?_, ?_⟩
  · rw [hsources]
    decide +kernel
  · rw [hcontents]
    decide +kernel
  · rw [htokens, tokens_eq, hmappings]
    decide +kernel

end FlatBundle.SourceMap
