import FlatBundle.Proofs.Distinct
import FlatBundle.Proofs.Text.Column
import FlatBundle.SourceMap.Basic

/-!
Looking up a position in a map: the token found is the latest one up to that position.
-/

namespace FlatBundle

variable {α β : Type} {place : α → Position} {place' : β → Position} {tokens front back : List α}
  {p : Position} {t : α}

/-- A token stands at or before a place, and each other one before the token or after the place. -/
structure IsLatest (place : α → Position) (tokens : List α) (p : Position) (t : α) : Prop where
  mem : t ∈ tokens
  upTo : (place t).le p
  others : ∀ q ∈ tokens, q = t ∨ (place q).Before (place t) ∨ p.Before (place q)

namespace IsLatest

theorem map {f : α → β} (h : IsLatest place tokens p t)
    (hf : ∀ q, place' (f q) = place q) : IsLatest place' (tokens.map f) p (f t) where
  mem := List.mem_map_of_mem h.mem
  upTo := by
    rw [hf]
    exact h.upTo
  others q' hq' := by
    obtain ⟨q, hq, rfl⟩ := List.mem_map.mp hq'
    rw [hf, hf]
    exact (h.others _ hq).imp_left (congrArg f)

theorem of_mem_iff {tokens' : List α} (h : IsLatest place tokens p t)
    (hmem : ∀ q, q ∈ tokens' ↔ q ∈ tokens) : IsLatest place tokens' p t where
  mem := (hmem t).mpr h.mem
  upTo := h.upTo
  others q hq := h.others q ((hmem q).mp hq)

theorem append_left (h : IsLatest place tokens p t) (hfront : ∀ q ∈ front, (place q).Before (place t)) :
    IsLatest place (front ++ tokens) p t where
  mem := List.mem_append_right _ h.mem
  upTo := h.upTo
  others q hq := by
    rcases List.mem_append.mp hq with hq | hq
    · exact .inr (.inl (hfront q hq))
    · exact h.others q hq

theorem append_right (h : IsLatest place tokens p t) (hback : ∀ q ∈ back, p.Before (place q)) :
    IsLatest place (tokens ++ back) p t where
  mem := List.mem_append_left _ h.mem
  upTo := h.upTo
  others q hq := by
    rcases List.mem_append.mp hq with hq | hq
    · exact h.others q hq
    · exact .inr (.inr (hback q hq))

end IsLatest

/-- The token that a lookup ends at: the first one at a place or, if there is none, the last one before it. -/
def IsFound (place : α → Position) (tokens : List α) (p : Position) (t : α) : Prop :=
  ∃ front back, tokens = front ++ t :: back ∧
    (place t = p ∧ (∀ q ∈ front, (place q).Before p) ∨
      (place t).Before p ∧ ∀ q ∈ back, p.Before (place q))

namespace IsFound

theorem mem (h : IsFound place tokens p t) : t ∈ tokens := by
  obtain ⟨front, back, rfl, -⟩ := h
  simp

/-- Tokens that go elsewhere, but stay in order, are found there. Others may be left out. -/
theorem filterMap {f : α → Option β} {s : β} {g : Position → Position}
    (hmove : ∀ {p q : Position}, p.Before q → (g p).Before (g q))
    (hf : ∀ q s, f q = some s → place' s = g (place q)) (h : IsFound place tokens p t)
    (ht : f t = some s) : IsFound place' (tokens.filterMap f) (g p) s := by
  obtain ⟨front, back, rfl, hplace⟩ := h
  refine ⟨front.filterMap f, back.filterMap f, by simp [ht], ?_⟩
  rw [hf t s ht]
  rcases hplace with ⟨hat, hfront⟩ | ⟨hbefore, hback⟩
  · refine .inl ⟨congrArg g hat, fun s' hs' => ?_⟩
    obtain ⟨q, hq, hs'⟩ := List.mem_filterMap.mp hs'
    rw [hf q s' hs']
    exact hmove (hfront q hq)
  · refine .inr ⟨hmove hbefore, fun s' hs' => ?_⟩
    obtain ⟨q, hq, hs'⟩ := List.mem_filterMap.mp hs'
    rw [hf q s' hs']
    exact hmove (hback q hq)

theorem map {f : α → β} {g : Position → Position}
    (hmove : ∀ {p q : Position}, p.Before q → (g p).Before (g q))
    (hf : ∀ q, place' (f q) = g (place q)) (h : IsFound place tokens p t) :
    IsFound place' (tokens.map f) (g p) (f t) := by
  rw [← List.filterMap_eq_map]
  exact h.filterMap hmove (fun q s hs => Option.some.inj hs ▸ hf q) rfl

theorem append_left (h : IsFound place tokens p t) (hfront : ∀ q ∈ front, (place q).Before p) :
    IsFound place (front ++ tokens) p t := by
  obtain ⟨between, back, rfl, hplace⟩ := h
  refine ⟨front ++ between, back, by simp, hplace.imp_left fun ⟨hat, hbetween⟩ => ⟨hat, fun q hq => ?_⟩⟩
  exact (List.mem_append.mp hq).elim (hfront q) (hbetween q)

theorem append_right (h : IsFound place tokens p t) (hback : ∀ q ∈ back, p.Before (place q)) :
    IsFound place (tokens ++ back) p t := by
  obtain ⟨front, between, rfl, hplace⟩ := h
  refine ⟨front, between ++ back, by simp, hplace.imp_right fun ⟨hbefore, hbetween⟩ => ⟨hbefore, fun q hq => ?_⟩⟩
  exact (List.mem_append.mp hq).elim (hbetween q) (hback q)

theorem le (h : IsFound place tokens p t) : (place t).le p := by
  obtain ⟨front, back, -, ⟨hat, -⟩ | ⟨hbefore, -⟩⟩ := h
  · exact hat ▸ Position.le_refl _
  · exact hbefore.le

end IsFound

theorem Mapping.before_trans (a b c : Mapping) (hab : a.before b) (hbc : b.before c) : a.before c :=
  Position.le_trans hab hbc

theorem Mapping.before_total (a b : Mapping) : (a.before b || b.before a) = true :=
  Position.le_total a.generated b.generated

namespace SourceMap

variable {m : SourceMap} {sources names : List String} {contents : List (String × Option String)}
  {segments : List Segment} {mappings : List Mapping} {t : Mapping} {s : Segment}

/-- The mappings come in the order of the generated text, as in each map that there is. -/
def InOrder (m : SourceMap) : Prop :=
  m.mappings.Pairwise fun a b => a.before b

/-- Behind those up to a place, all mappings are after it. -/
theorem before_of_mem_dropWhile {mappings : List Mapping} {q : Mapping}
    (hsorted : mappings.Pairwise fun a b => a.before b)
    (hq : q ∈ mappings.dropWhile (·.generated.le p)) : p.Before q.generated := by
  induction mappings with
  | nil => cases hq
  | cons a mappings ih =>
    obtain ⟨hfirst, hsorted⟩ := List.pairwise_cons.mp hsorted
    by_cases ha : a.generated.le p
    · rw [List.dropWhile_cons, if_pos ha] at hq
      exact ih hsorted hq
    · rw [List.dropWhile_cons, if_neg ha] at hq
      have hafter : p.Before a.generated := by simpa [Position.le_iff] using ha
      rcases List.mem_cons.mp hq with rfl | hq
      · exact hafter
      · exact hafter.trans_le (hfirst q hq)

theorem isFound_of_lookup (hm : m.InOrder) (h : m.lookup p = some t) :
    IsFound Mapping.generated m.mappings p t := by
  unfold lookup at h
  split at h
  next hfind =>
    cases h
    obtain ⟨hat, front, back, hsplit, hfirst⟩ := List.find?_eq_some_iff_append.mp hfind
    refine ⟨front, back, hsplit, .inl ⟨eq_of_beq hat, fun q hq => ?_⟩⟩
    rw [InOrder, hsplit, List.pairwise_append] at hm
    have hle : q.generated.le p := eq_of_beq hat ▸ hm.2.2 q hq t List.mem_cons_self
    exact Position.before_of_le hle (by simpa using hfirst q hq)
  next hfind =>
    obtain ⟨front, hfront⟩ := List.getLast?_eq_some_iff.mp h
    have ht : t ∈ m.mappings.takeWhile (·.generated.le p) := by simp [hfront]
    have hle : t.generated.le p := List.all_eq_true.mp List.all_takeWhile t ht
    have hmissed : t.generated ≠ p := by
      simpa using List.find?_eq_none.mp hfind t ((List.takeWhile_sublist _).subset ht)
    refine ⟨front, m.mappings.dropWhile (·.generated.le p), ?_,
      .inr ⟨Position.before_of_le hle hmissed, fun q hq => before_of_mem_dropWhile hm hq⟩⟩
    rw [List.append_cons, ← hfront, List.takeWhile_append_dropWhile]

/-- Of tokens in order, none is found only before the first one. -/
theorem before_of_lookup_eq_none (hm : m.InOrder) (h : m.lookup p = none) (ht : t ∈ m.mappings) :
    p.Before t.generated := by
  have hnone : m.mappings.takeWhile (·.generated.le p) = [] := by
    unfold lookup at h
    split at h
    · cases h
    · exact List.getLast?_eq_none_iff.mp h
  have hall := @List.takeWhile_append_dropWhile _ (·.generated.le p) m.mappings
  rw [hnone, List.nil_append] at hall
  exact before_of_mem_dropWhile hm (hall.symm ▸ ht)

theorem lookup_eq_some (hm : m.InOrder) (h : IsLatest Mapping.generated m.mappings p t) :
    m.lookup p = some t := by
  cases hlookup : m.lookup p with
  | none => exact absurd (before_of_lookup_eq_none hm hlookup h.mem) (Position.le_iff.mp h.upTo)
  | some found =>
    obtain ⟨front, back, hsplit, hcases⟩ := isFound_of_lookup hm hlookup
    have ht : ¬p.Before t.generated := Position.le_iff.mp h.upTo
    rcases h.others found (hsplit ▸ by simp) with rfl | hearlier | hlater
    · rfl
    · rcases hcases with ⟨hat, -⟩ | ⟨-, hback⟩
      · exact absurd (hat ▸ hearlier) ht
      · rw [InOrder, hsplit, List.pairwise_append] at hm
        rcases List.mem_append.mp (hsplit ▸ h.mem) with hfront | hmem
        · exact absurd hearlier (Position.le_iff.mp (hm.2.2 t hfront found List.mem_cons_self))
        · rcases List.mem_cons.mp hmem with rfl | hmem
          · rfl
          · exact absurd (hback t hmem) ht
    · rcases hcases with ⟨hat, -⟩ | ⟨hbefore, -⟩
      · exact absurd hat hlater.ne.symm
      · exact absurd (hbefore.trans hlater) Position.not_before_self

theorem pairwise_before (mappings : List Mapping) :
    (mappings.mergeSort Mapping.before).Pairwise fun a b => a.before b :=
  List.pairwise_mergeSort Mapping.before_trans Mapping.before_total mappings

/-- The index of an element of a list leads back to it. -/
theorem findIdx?_bind_getElem? {name? : Option String} (h : ∀ name, name? = some name → name ∈ names) :
    ((name?.bind fun name => names.findIdx? (· == name)).bind fun i => names[i]?) = name? := by
  cases name? with
  | none => rfl
  | some name =>
    rw [Option.bind_some]
    cases hindex : names.findIdx? (· == name) with
    | none => simpa using List.findIdx?_eq_none_iff.mp hindex name (h name rfl)
    | some i =>
      obtain ⟨hi, heq, -⟩ := List.findIdx?_eq_some_iff_getElem.mp hindex
      rw [Option.bind_some, List.getElem?_eq_getElem hi, beq_iff_eq.mp heq]

/-- A segment with places in the lists of a map for its source and its name. -/
def mapping (m : SourceMap) (s : Segment) : Mapping :=
  { generated := s.generated
    origin := s.origin
    source := s.source.bind fun name => m.sources.findIdx? (· == name)
    name := s.name.bind fun name => m.names.findIdx? (· == name) }

theorem inOrder_ofSegments : (ofSegments sources contents segments).InOrder :=
  pairwise_before _

theorem mappings_ofSegments : (ofSegments sources contents segments).mappings =
    (segments.map (ofSegments sources contents segments).mapping).mergeSort Mapping.before :=
  rfl

/-- Nothing is lost of a segment in a map. -/
theorem segment_mapping (h : s ∈ segments) :
    (ofSegments sources contents segments).segment ((ofSegments sources contents segments).mapping s) =
      s := by
  let m := ofSegments sources contents segments
  have hsource : ((s.source.bind fun name => m.sources.findIdx? (· == name)).bind fun i => m.sources[i]?) =
      s.source := findIdx?_bind_getElem? fun name hname =>
    mem_firstOccurrences.mpr (List.mem_append_right _ (List.mem_filterMap.mpr ⟨s, h, hname⟩))
  have hname : ((s.name.bind fun name => m.names.findIdx? (· == name)).bind fun i => m.names[i]?) = s.name :=
    findIdx?_bind_getElem? fun name hname =>
      mem_firstOccurrences.mpr (List.mem_filterMap.mpr ⟨s, h, hname⟩)
  change m.segment (m.mapping s) = s
  have hroot : m.sourceNames = m.sources := rfl
  rw [segment, mapping, hroot, hsource, hname]

theorem mem_mappings_ofSegments : t ∈ (ofSegments sources contents segments).mappings ↔
    ∃ s ∈ segments, (ofSegments sources contents segments).mapping s = t := by
  rw [mappings_ofSegments, List.mem_mergeSort, List.mem_map]

/-- A map has the segments it is made of. -/
theorem mem_segments_ofSegments :
    s ∈ (ofSegments sources contents segments).segments ↔ s ∈ segments := by
  change s ∈ (ofSegments sources contents segments).mappings.map (segment _) ↔ _
  rw [List.mem_map]
  constructor
  · rintro ⟨t, ht, rfl⟩
    obtain ⟨s, hs, rfl⟩ := mem_mappings_ofSegments.mp ht
    rwa [segment_mapping hs]
  · intro hs
    exact ⟨_, mem_mappings_ofSegments.mpr ⟨s, hs, rfl⟩, segment_mapping hs⟩

section Sorted

variable (hsorted : segments.Pairwise fun a b => a.generated.le b.generated)
include hsorted

theorem mappings_ofSegments_of_sorted : (ofSegments sources contents segments).mappings =
    segments.map (ofSegments sources contents segments).mapping := by
  have hmapped : (segments.map (ofSegments sources contents segments).mapping).Pairwise
      fun a b => a.before b := List.pairwise_map.mpr hsorted
  rw [mappings_ofSegments, List.mergeSort_of_pairwise hmapped]

/-- A map of segments in order has just these, in this order. -/
theorem segments_ofSegments : (ofSegments sources contents segments).segments = segments := by
  change (ofSegments sources contents segments).mappings.map (segment _) = segments
  rw [mappings_ofSegments_of_sorted hsorted, List.map_map]
  exact (List.map_congr_left fun s hs => segment_mapping hs).trans (List.map_id segments)

end Sorted

/-- A lookup in a map of some segments finds the latest one. -/
theorem lookup_ofSegments (h : IsLatest Segment.generated segments p s) :
    ((ofSegments sources contents segments).lookup p).map (ofSegments sources contents segments).segment =
      some s := by
  have hlatest : IsLatest Mapping.generated (ofSegments sources contents segments).mappings p
      ((ofSegments sources contents segments).mapping s) :=
    { mem := mem_mappings_ofSegments.mpr ⟨s, h.mem, rfl⟩
      upTo := h.upTo
      others := fun t ht => by
        obtain ⟨q, hq, rfl⟩ := mem_mappings_ofSegments.mp ht
        exact (h.others q hq).imp_left (congrArg _) }
  rw [lookup_eq_some inOrder_ofSegments hlatest, Option.map_some,
    segment_mapping h.mem]

theorem mem_sourceNames_of_source {name : String} (h : (m.segment t).source = some name) :
    name ∈ m.sourceNames := by
  obtain ⟨i, -, hi⟩ := Option.bind_eq_some_iff.mp h
  exact List.mem_of_getElem? hi

end SourceMap

end FlatBundle
