import FlatBundle.Proofs.Edit.Splicing

/-!
The tokens of the map of an edited text: one for each text that is put in, and one for each line of each
part that is copied. Each one leads from a byte of the text to the byte of the source that it stands for.
-/

namespace FlatBundle

variable {source text rest kept before after : List Char} {c : Char} {edits front back more : List Edit}
  {e : Edit} {offset o stop : Nat} {generated origin : Position} {q : Position × Position} {fresh : Bool}
  {passed ss : List Stretch} {request : MapRequest} {name : String} {pairs : List (Position × Position)}
  {s : Segment}

/-- The segment for a pair of positions. -/
def pairSegment (name : String) (pair : Position × Position) : Segment :=
  { generated := pair.1, origin := pair.2, source := some name, name := none }

theorem mem_segments_pairsMap {text : String} : s ∈ (pairsMap request text pairs).segments ↔
    s ∈ pairs.map (pairSegment request.sourceName) :=
  SourceMap.mem_segments_ofSegments

section Pairs

theorem mem_copiedPairs_of_false (h : q ∈ copiedPairs false generated origin text) :
    q ∈ copiedPairs fresh generated origin text := by
  cases text with
  | nil => cases h
  | cons c text =>
    cases fresh with
    | false => exact h
    | true => exact List.mem_cons_of_mem _ h

/-- A pair of a copied text is for one of its characters. -/
theorem exists_of_mem_copiedPairs (h : q ∈ copiedPairs fresh generated origin text) :
    ∃ before c after, text = before ++ c :: after ∧
      q = (generated.advanceBy before, origin.advanceBy before) := by
  induction text generalizing fresh generated origin with
  | nil => cases h
  | cons d text ih =>
    have hlater (h : q ∈ copiedPairs false generated origin (d :: text)) :
        ∃ before c after, d :: text = before ++ c :: after ∧
          q = (generated.advanceBy before, origin.advanceBy before) := by
      obtain ⟨before, c, after, rfl, rfl⟩ := ih (copiedPairs_cons ▸ h)
      exact ⟨d :: before, c, after, rfl, by rw [Position.advanceBy_cons, Position.advanceBy_cons]⟩
    cases fresh with
    | false => exact hlater h
    | true =>
      rcases List.mem_cons.mp (copiedPairs_fresh (List.cons_ne_nil d text) ▸ h) with rfl | h
      · exact ⟨[], d, text, rfl, rfl⟩
      · exact hlater h

/-- Each line that goes on has a pair. -/
theorem mem_copiedPairs_of_line (line : List Char) :
    (generated.advanceBy (line ++ ['\n']), origin.advanceBy (line ++ ['\n'])) ∈
      copiedPairs fresh generated origin (line ++ '\n' :: c :: after) := by
  refine mem_copiedPairs_of_false ?_
  induction line generalizing generated origin with
  | nil => exact List.mem_cons_self
  | cons d line ih =>
    rw [List.cons_append, List.cons_append, copiedPairs_cons, Position.advanceBy_cons,
      Position.advanceBy_cons]
    exact mem_copiedPairs_of_false ih

/-- Where a part of a source or a line of it starts, there is a pair. -/
theorem mem_copiedPairs (h : before = [] ∨ ∃ line, before = line ++ ['\n']) :
    (generated.advanceBy before, origin.advanceBy before) ∈
      copiedPairs true generated origin (before ++ c :: after) := by
  rcases h with rfl | ⟨line, rfl⟩
  · exact List.mem_cons_self
  · rw [List.append_assoc]
    exact mem_copiedPairs_of_line line

theorem mem_pairs_replaced : q ∈ (Stretch.replaced text before).pairs generated origin ↔
    text ≠ [] ∧ q = (generated, origin) := by
  cases text <;> simp [Stretch.pairs]

theorem pairwise_copiedPairs :
    (copiedPairs fresh generated origin text).Pairwise fun p q => p.1.Before q.1 := by
  induction text generalizing fresh generated origin with
  | nil => exact .nil
  | cons c text ih =>
    cases fresh with
    | false => exact ih
    | true => exact List.pairwise_cons.mpr ⟨fun q hq => before_of_mem_copiedPairs hq, ih⟩

theorem pairwise_pairs (s : Stretch) : (s.pairs generated origin).Pairwise fun p q => p.1.Before q.1 := by
  cases s with
  | kept text => exact pairwise_copiedPairs
  | replaced text cut =>
    cases text with
    | nil => exact .nil
    | cons c text => exact List.pairwise_singleton _ _
  | added text => exact .nil

/-- The pairs come in the order of the text. -/
theorem pairwise_stretchPairs (ss : List Stretch) :
    (stretchPairs generated origin ss).Pairwise fun p q => p.1.Before q.1 := by
  induction ss generalizing generated origin with
  | nil => exact .nil
  | cons s ss ih =>
    refine List.pairwise_append.mpr ⟨pairwise_pairs s, ih, fun p hp q hq => ?_⟩
    exact (bounds_of_mem_pairs hp).2.trans_le (bounds_of_mem_stretchPairs hq).1

theorem mem_stretchPairs_append (passed : List Stretch)
    (h : q ∈ stretchPairs (generated.advanceBy (passed.flatMap Stretch.output))
      (origin.advanceBy (passed.flatMap Stretch.covered)) ss) :
    q ∈ stretchPairs generated origin (passed ++ ss) := by
  rw [stretchPairs_append]
  exact List.mem_append_right _ h

/-- Each pair is for a character of a part that is kept, or for a text that is put in behind such a part. -/
theorem InTurn.exists_of_mem_stretchPairs (hturn : InTurn source offset edits)
    (hrest : RestAt source text offset)
    (hq : q ∈ stretchPairs generated origin (stretches offset edits text)) :
    ∃ front more passed stop before rest part tail,
      KeptUpTo offset text edits front more passed stop before rest part tail ∧
      q = (generated.advanceBy (passed.flatMap Stretch.output ++ before),
        origin.advanceBy (passed.flatMap Stretch.covered ++ before)) ∧
      ((∃ c after part', rest = c :: after ∧ part = c :: part' ∧
          InTurn source (stop + byteLength before + 1) more) ∨
        ∃ e back cut tail', more = e :: back ∧ stop + byteLength before = e.start ∧ e.text ≠ "" ∧
          part = [] ∧ tail = .replaced e.text.toList cut :: tail') := by
  induction hturn generalizing text generated origin with
  | nil =>
    obtain ⟨before, c, after, rfl, rfl⟩ :=
      exists_of_mem_copiedPairs (by simpa [stretches, stretchPairs, Stretch.pairs] using hq)
    exact ⟨[], [], [], _, before, c :: after, c :: after, [], ⟨rfl, .nil, rfl⟩, rfl,
      .inl ⟨c, after, after, rfl, rfl, .nil⟩⟩
  | @cons offset e edits hle hfits hturn ih =>
    obtain ⟨kept, cut, behind, rfl, hstart, hstop, hbehind, hstretches⟩ :=
      exists_stretches_cons hrest hle hfits
    rw [hstretches, stretchPairs, stretchPairs] at hq
    rcases List.mem_append.mp hq with hq | hq
    · obtain ⟨before, c, part, rfl, rfl⟩ := exists_of_mem_copiedPairs hq
      rw [byteLength_append, byteLength_cons] at hstart
      have hc : 0 < c.utf8Size := c.utf8Size_pos
      have hrejoined : before ++ c :: (part ++ (cut ++ behind)) = (before ++ c :: part) ++ (cut ++ behind) := by
        simp
      exact ⟨[], e :: edits, [], offset, before, _, c :: part, _,
        ⟨rfl, hrejoined ▸ .nil, hrejoined ▸ hstretches edits⟩, rfl,
        .inl ⟨c, _, part, rfl, rfl, .cons (by omega) hfits hturn⟩⟩
    · rcases List.mem_append.mp hq with hq | hq
      · obtain ⟨htext, rfl⟩ := mem_pairs_replaced.mp hq
        have hkept : stretches offset (e :: edits) (kept ++ (cut ++ behind)) =
            .kept (kept ++ []) :: .replaced e.text.toList cut :: stretches e.stop edits behind := by
          rw [List.append_nil, hstretches]
        exact ⟨[], e :: edits, [], offset, kept, _, [], _, ⟨rfl, .nil, hkept⟩, rfl,
          .inr ⟨e, edits, cut, _, rfl, hstart, by simpa using htext, rfl, rfl⟩⟩
      · obtain ⟨front, more, passed, stop, before, rest, part, tail, hkept, rfl, hcases⟩ := ih hbehind hq
        refine ⟨e :: front, more, _, stop, before, rest, part, tail, hkept.cons hstart hstop, ?_, hcases⟩
        simp [Stretch.output, Stretch.covered]

/-- A text that is put in has a pair, where the part that is kept in front of it ends. -/
theorem KeptUpTo.mem_stretchPairs_put {put cut : List Char} {tail : List Stretch}
    (h : KeptUpTo 0 source edits front more passed stop before rest [] (.replaced put cut :: tail))
    (hput : put ≠ []) :
    (generated.advanceBy (passed.flatMap Stretch.output ++ before),
      origin.advanceBy (passed.flatMap Stretch.covered ++ before)) ∈
        stretchPairs generated origin (stretches 0 edits source) := by
  rw [h.edits_eq, h.passes.stretches_eq, h.stretches_eq, List.append_nil, Position.advanceBy_append,
    Position.advanceBy_append]
  refine mem_stretchPairs_append passed (List.mem_append_right _ (List.mem_append_left _ ?_))
  exact mem_pairs_replaced.mpr ⟨hput, rfl⟩

/-- So has a part or a line of it that is copied, where it starts. -/
theorem KeptUpTo.mem_stretchPairs_copied {part : List Char} {tail : List Stretch}
    (h : KeptUpTo 0 source edits front more passed stop before rest (c :: part) tail)
    (hbefore : before = [] ∨ ∃ line, before = line ++ ['\n']) :
    (generated.advanceBy (passed.flatMap Stretch.output ++ before),
      origin.advanceBy (passed.flatMap Stretch.covered ++ before)) ∈
        stretchPairs generated origin (stretches 0 edits source) := by
  rw [h.edits_eq, h.passes.stretches_eq, h.stretches_eq, Position.advanceBy_append,
    Position.advanceBy_append]
  exact mem_stretchPairs_append passed (List.mem_append_left _ (mem_copiedPairs hbefore))

end Pairs

section Tokens

variable {effective : List Edit} {code intro outro : List Char} {part : List Char} {tail : List Stretch}

theorem KeptUpTo.positionAt_code
    (h : KeptUpTo 0 source edits front more passed stop before rest part tail)
    (hcode : code = intro ++ ((stretches 0 edits source).flatMap Stretch.output ++ outro)) :
    let g := byteLength intro + movedOffset front (stop + byteLength before)
    positionAt code g =
        (Position.advanceBy {} intro).advanceBy (passed.flatMap Stretch.output ++ before) ∧
      RestAt code (part ++ (tail.flatMap Stretch.output ++ outro)) g := by
  have hsplit : code = (intro ++ (passed.flatMap Stretch.output ++ before)) ++
      (part ++ (tail.flatMap Stretch.output ++ outro)) := by
    rw [hcode, h.output_eq]
    simp
  have hbytes : byteLength (intro ++ (passed.flatMap Stretch.output ++ before)) =
      byteLength intro + movedOffset front (stop + byteLength before) := by
    rw [byteLength_append, h.byteLength_output]
  refine ⟨?_, _, hsplit, hbytes⟩
  rw [← hbytes, hsplit, positionAt_append, Position.advanceBy_append]

theorem KeptUpTo.pair_eq
    (h : KeptUpTo 0 source edits front more passed stop before rest part tail)
    (hcode : code = intro ++ ((stretches 0 edits source).flatMap Stretch.output ++ outro)) :
    ((Position.advanceBy {} intro).advanceBy (passed.flatMap Stretch.output ++ before),
        Position.advanceBy {} (passed.flatMap Stretch.covered ++ before)) =
      (positionAt code (byteLength intro + movedOffset front (stop + byteLength before)),
        positionAt source (stop + byteLength before)) := by
  rw [(h.positionAt_code hcode).1, h.positionAt_eq]

/-- The text of an edit is put in at a byte of the edited text, behind what the edits before it make of the
source. -/
structure PutAt (intro : List Char) (effective : List Edit) (code : List Char) (e : Edit) (g : Nat) : Prop where
  place : ∃ front back, effective = front ++ e :: back ∧ g = byteLength intro + movedOffset front e.start
  text : ∃ following, RestAt code (e.text.toList ++ following) g

/-- The character at a byte of the source is copied to a byte of the edited text, where the edits before it
move it. -/
structure CopiedTo (intro : List Char) (effective : List Edit) (source code : List Char) (o g : Nat) : Prop where
  uncovered : Uncovered effective o
  place : g = byteLength intro + movedOffset effective o
  char : ∃ c rest following, RestAt source (c :: rest) o ∧ RestAt code (c :: following) g

/-- A part that is copied starts at a byte of the source, or a line does. -/
def StartsPart (effective : List Edit) (source : List Char) (o : Nat) : Prop :=
  o = 0 ∨ (∃ e ∈ effective, e.stop = o) ∨ o ∈ lineStarts 0 source

theorem KeptUpTo.putAt {cut : List Char}
    (h : KeptUpTo 0 source edits front (e :: back) passed stop before rest [] (.replaced e.text.toList cut :: tail))
    (hcode : code = intro ++ ((stretches 0 edits source).flatMap Stretch.output ++ outro))
    (hstart : stop + byteLength before = e.start) :
    PutAt intro edits code e (byteLength intro + movedOffset front e.start) where
  place := ⟨front, back, h.edits_eq, rfl⟩
  text := by
    have htext := (h.positionAt_code hcode).2
    rw [hstart] at htext
    exact ⟨tail.flatMap Stretch.output ++ outro, by simpa [Stretch.output] using htext⟩

section Copied

variable (h : KeptUpTo 0 source edits front more passed stop before (c :: after) (c :: part) tail)
  (hmore : InTurn source (stop + byteLength before + 1) more)
include h hmore

theorem KeptUpTo.copiedTo
    (hcode : code = intro ++ ((stretches 0 edits source).flatMap Stretch.output ++ outro)) :
    CopiedTo intro edits source code (stop + byteLength before)
      (byteLength intro + movedOffset front (stop + byteLength before)) where
  uncovered e he hcovers := by
    rw [h.edits_eq] at he
    rcases List.mem_append.mp he with he | he
    · have hstop := h.passes.stop_le.2 e he
      omega
    · have hstart := (hmore.le_start he).1
      omega
  place := by rw [h.edits_eq, movedOffset_append (hmore.lt_stop (Nat.lt_succ_self _))]
  char := ⟨c, after, _, h.restAt, (h.positionAt_code hcode).2⟩

/-- Where a part or a line starts, all that is kept in front of it are whole lines. -/
theorem KeptUpTo.eq_nil_or_line (hstarts : StartsPart edits source (stop + byteLength before)) :
    before = [] ∨ ∃ line, before = line ++ ['\n'] := by
  rcases hstarts with hzero | ⟨e, he, hstop⟩ | hline
  · exact .inl (byteLength_eq_zero_iff.mp (by omega))
  · rw [h.edits_eq] at he
    rcases List.mem_append.mp he with he | he
    · have hle := h.passes.stop_le.2 e he
      exact .inl (byteLength_eq_zero_iff.mp (by omega))
    · have hbounds := hmore.le_start he
      omega
  · obtain ⟨lines, rest, hsource, hplace⟩ := mem_lineStarts_iff.mp hline
    have hbytes : byteLength (passed.flatMap Stretch.covered ++ before) = byteLength (lines ++ ['\n']) := by
      rw [h.byteLength_covered, hplace]
      simp
      rfl
    have hsplit : (passed.flatMap Stretch.covered ++ before) ++ c :: after = (lines ++ ['\n']) ++ rest := by
      rw [← h.source_eq, hsource]
      simp
    obtain ⟨hlines, -⟩ := append_inj_of_byteLength hsplit hbytes
    rcases List.eq_nil_or_concat before with rfl | ⟨line, d, rfl⟩
    · exact .inl rfl
    · rw [List.concat_eq_append] at *
      rw [← List.append_assoc] at hlines
      obtain rfl : d = '\n' := by simpa using (List.append_inj' hlines rfl).2
      exact .inr ⟨line, rfl⟩

end Copied

theorem segments_pairsMap {text : String} (h : pairs.Pairwise fun p q => p.1.Before q.1) :
    (pairsMap request text pairs).segments = pairs.map (pairSegment request.sourceName) :=
  SourceMap.segments_ofSegments (List.pairwise_map.mpr (h.imp Position.Before.le))

theorem stretchesEnd_eq (generated : Position) (ss : List Stretch) :
    stretchesEnd generated ss = generated.advanceBy (ss.flatMap Stretch.output) := by
  induction ss generalizing generated with
  | nil => rfl
  | cons s ss ih => rw [stretchesEnd, ih, List.flatMap_cons, Position.advanceBy_append]

theorem EditList.lastLine_eq {e : EditList} {source : String} {piece : Piece} {request : Option MapRequest}
    (h : e.apply source request = .ok piece) : e.lastLine source = .ok (lineCount piece.code.toList) := by
  rw [apply] at h
  cases hstretches : e.stretches source with
  | error error =>
    rw [hstretches] at h
    cases h
  | ok ss =>
    rw [hstretches] at h
    cases h
    rw [lastLine, hstretches]
    simp [Except.map, stretchesEnd_eq, Position.line_advanceBy]

section Edited

variable (hturn : InTurn source 0 edits)
  (hcode : code = intro ++ ((stretches 0 edits source).flatMap Stretch.output ++ outro))
include hturn hcode

/-- Each pair leads from where the text of an edit is put in, or from a character that is copied. -/
theorem InTurn.origin_of_mem_stretchPairs
    (hq : q ∈ stretchPairs (Position.advanceBy {} intro) {} (stretches 0 edits source)) :
    ∃ g o, q = (positionAt code g, positionAt source o) ∧
      ((∃ a ∈ edits, a.start = o ∧ a.text ≠ "" ∧ PutAt intro edits code a g) ∨
        CopiedTo intro edits source code o g) := by
  obtain ⟨front, more, passed, stop, before, rest, part, tail, hkept, rfl, hcases⟩ :=
    hturn.exists_of_mem_stretchPairs ⟨[], rfl, rfl⟩ hq
  refine ⟨_, _, hkept.pair_eq hcode, ?_⟩
  rcases hcases with ⟨c, after, part, rfl, rfl, hmore⟩ | ⟨a, back, cut, tail, rfl, hstart, htext, rfl, rfl⟩
  · exact .inr (hkept.copiedTo hmore hcode)
  · rw [hstart]
    exact .inl ⟨a, by simp [hkept.edits_eq], rfl, htext, hkept.putAt hcode hstart⟩

theorem InTurn.exists_putAt (ha : e ∈ edits) (htext : e.text ≠ "") :
    ∃ g, PutAt intro edits code e g ∧ (positionAt code g, positionAt source e.start) ∈
      stretchPairs (Position.advanceBy {} intro) {} (stretches 0 edits source) := by
  obtain ⟨front, back, rfl⟩ := List.append_of_mem ha
  obtain ⟨passed, stop, before, rest, cut, tail, hkept, hstart, -⟩ := hturn.exists_keptUpTo_edit
  refine ⟨_, hkept.putAt hcode hstart, ?_⟩
  rw [← hstart, ← hkept.pair_eq hcode]
  exact hkept.mem_stretchPairs_put (by simpa using htext)

theorem InTurn.exists_copiedTo (hchar : RestAt source (c :: after) o) (hfree : Uncovered edits o)
    (hstarts : StartsPart edits source o) :
    ∃ g, CopiedTo intro edits source code o g ∧ (positionAt code g, positionAt source o) ∈
      stretchPairs (Position.advanceBy {} intro) {} (stretches 0 edits source) := by
  obtain ⟨front, more, passed, stop, before, part, tail, hkept, rfl, hmore⟩ :=
    hturn.exists_keptUpTo_char hchar hfree
  refine ⟨_, hkept.copiedTo hmore hcode, ?_⟩
  rw [← hkept.pair_eq hcode]
  exact hkept.mem_stretchPairs_copied (hkept.eq_nil_or_line hmore hstarts)

end Edited

/-- The map of an edited text has its tokens in order. Each one leads from a byte of the text to a byte of
the source, and it is either where the text of an edit is put in or where a character is copied. Each text
that is put in has a token, and so has the start of each part that is copied and of each line in it. The
last line that is counted on the way is that of the whole text. -/
theorem EditList.tokens_of_apply {e : EditList} {source : String} {request : MapRequest} {piece : Piece}
    (h : e.apply source (some request) = .ok piece) :
    ∃ effective map, TakeEffect e.edits effective ∧ piece.map = some map ∧
      e.lastLine source = .ok (lineCount piece.code.toList) ∧
      map.segments.Pairwise (fun s s' => s.generated.Before s'.generated) ∧
      (∀ s ∈ map.segments, ∃ g o,
        s = pairSegment request.sourceName
          (positionAt piece.code.toList g, positionAt source.toList o) ∧
        ((∃ a ∈ effective, a.start = o ∧ a.text ≠ "" ∧
            PutAt e.intro.toList effective piece.code.toList a g) ∨
          CopiedTo e.intro.toList effective source.toList piece.code.toList o g)) ∧
      (∀ a ∈ effective, a.text ≠ "" → ∃ g,
        PutAt e.intro.toList effective piece.code.toList a g ∧
        pairSegment request.sourceName
          (positionAt piece.code.toList g, positionAt source.toList a.start) ∈ map.segments) ∧
      ∀ c rest o, RestAt source.toList (c :: rest) o → Uncovered effective o →
        StartsPart effective source.toList o → ∃ g,
          CopiedTo e.intro.toList effective source.toList piece.code.toList o g ∧
          pairSegment request.sourceName
            (positionAt piece.code.toList g, positionAt source.toList o) ∈ map.segments := by
  obtain ⟨effective, hresolved, hcode, hmap⟩ := e.exists_of_apply h
  have hturn := inTurn_of_resolveEdits hresolved
  refine ⟨effective, _, takeEffect_of_resolveEdits hresolved, hmap, e.lastLine_eq h, ?_, fun s hs => ?_,
    fun a ha htext => ?_, fun c rest o hchar hfree hstarts => ?_⟩
  · rw [segments_pairsMap (pairwise_stretchPairs _), List.pairwise_map]
    exact pairwise_stretchPairs _
  · obtain ⟨q, hq, rfl⟩ := List.mem_map.mp (mem_segments_pairsMap.mp hs)
    obtain ⟨g, o, rfl, horigin⟩ := hturn.origin_of_mem_stretchPairs hcode hq
    exact ⟨g, o, rfl, horigin⟩
  · obtain ⟨g, hput, hpair⟩ := hturn.exists_putAt hcode ha htext
    exact ⟨g, hput, mem_segments_pairsMap.mpr (List.mem_map_of_mem hpair)⟩
  · obtain ⟨g, hcopied, hpair⟩ := hturn.exists_copiedTo hcode hchar hfree hstarts
    exact ⟨g, hcopied, mem_segments_pairsMap.mpr (List.mem_map_of_mem hpair)⟩

/-- A line in front, a wide character in place of another one, and a line break taken away. -/
def mixedEdits : EditList :=
  { edits := [⟨2, 3, "😀"⟩, ⟨4, 5, ""⟩]
    intro := "p\n" }

theorem tokens_of_apply_mixedEdits :
    ∃ piece map, mixedEdits.apply "éab\nc" (some ⟨"m.js", true⟩) = .ok piece ∧
      piece.code = "p\né😀bc" ∧ mixedEdits.lastLine "éab\nc" = .ok 1 ∧ piece.map = some map ∧
      pairSegment "m.js" (⟨1, 1⟩, ⟨0, 1⟩) ∈ map.segments ∧
      pairSegment "m.js" (⟨1, 3⟩, ⟨0, 2⟩) ∈ map.segments ∧
      pairSegment "m.js" (⟨1, 4⟩, ⟨1, 0⟩) ∈ map.segments := by
  have hresolved : resolveEdits "éab\nc".toList mixedEdits.edits = .ok mixedEdits.edits := by
    rw [resolveEdits, List.mergeSort_of_pairwise (by decide)]
    rfl
  have happly : ∃ map, mixedEdits.apply "éab\nc" (some ⟨"m.js", true⟩) =
      .ok { code := "p\né😀bc", map := some map } := by
    rw [EditList.apply, EditList.stretches, hresolved]
    exact ⟨_, rfl⟩
  obtain ⟨map, happly⟩ := happly
  obtain ⟨effective, map', heffective, hmap, hline, -, -, hput, hcopied⟩ := EditList.tokens_of_apply happly
  obtain rfl := heffective.unique (takeEffect_of_resolveEdits hresolved)
  have hlines : lineCount "p\né😀bc".toList = 1 := by decide
  refine ⟨_, map', happly, rfl, hlines ▸ hline, hmap, ?_, ?_, ?_⟩
  · obtain ⟨g, ⟨⟨front, back, hedits, rfl⟩, -⟩, htoken⟩ := hput ⟨2, 3, "😀"⟩ (by decide) (by decide)
    obtain rfl : front = [] := by
      cases front with
      | nil => rfl
      | cons a front =>
        have hmem : (⟨2, 3, "😀"⟩ : Edit) ∈ mixedEdits.edits.tail := by simp [hedits]
        exact absurd hmem (by decide)
    have hplaces : (positionAt "p\né😀bc".toList (byteLength "p\n".toList + movedOffset [] 2),
        positionAt "éab\nc".toList 2) = (⟨1, 1⟩, ⟨0, 1⟩) := by decide
    exact hplaces ▸ htoken
  · obtain ⟨g, ⟨-, rfl, -⟩, htoken⟩ := hcopied 'b' ['\n', 'c'] 3 ⟨"éa".toList, rfl, rfl⟩
      (by unfold Uncovered; decide) (.inr (.inl (by decide)))
    have hplaces : (positionAt "p\né😀bc".toList (byteLength "p\n".toList + movedOffset mixedEdits.edits 3),
        positionAt "éab\nc".toList 3) = (⟨1, 3⟩, ⟨0, 2⟩) := by decide
    exact hplaces ▸ htoken
  · obtain ⟨g, ⟨-, rfl, -⟩, htoken⟩ := hcopied 'c' [] 5 ⟨"éab\n".toList, rfl, rfl⟩
      (by unfold Uncovered; decide) (.inr (.inr (by decide)))
    have hplaces : (positionAt "p\né😀bc".toList (byteLength "p\n".toList + movedOffset mixedEdits.edits 5),
        positionAt "éab\nc".toList 5) = (⟨1, 4⟩, ⟨1, 0⟩) := by decide
    exact hplaces ▸ htoken

end Tokens

end FlatBundle
