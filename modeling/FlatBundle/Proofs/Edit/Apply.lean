import FlatBundle.Proofs.Edit.Laminar
import FlatBundle.Proofs.SourceMap.Lookup
import Mathlib

/-!
Edited texts: where the source text that no edit covers gets to, and what the pairs of positions tell of
it.
-/

namespace FlatBundle

variable {source rest before after text : List Char} {c : Char} {edits more resolved : List Edit} {e : Edit}
  {offset o : Nat} {generated origin : Position} {pair q : Position × Position} {fresh : Bool}
  {ss : List Stretch}

/-- A pair on the lines of two positions, and ahead of both by the same number of columns. -/
structure Aligned (pair : Position × Position) (generated origin : Position) : Prop where
  line : pair.1.line = generated.line
  originLine : pair.2.line = origin.line
  columns : ∃ n, generated.column = pair.1.column + n ∧ origin.column = pair.2.column + n

namespace Aligned

theorem self (generated origin : Position) : Aligned (generated, origin) generated origin where
  line := rfl
  originLine := rfl
  columns := ⟨0, rfl, rfl⟩

theorem advance (h : Aligned pair generated origin) (hc : c ≠ '\n') :
    Aligned pair (generated.advance c) (origin.advance c) := by
  obtain ⟨n, hgenerated, horigin⟩ := h.columns
  simp only [Position.advance, if_neg hc]
  exact ⟨h.line, h.originLine, n + units16 c, by dsimp only; omega, by dsimp only; omega⟩

theorem le (h : Aligned pair generated origin) : pair.1.le generated := by
  obtain ⟨n, hgenerated, -⟩ := h.columns
  have hline := h.line
  rw [Position.le_iff, Position.Before]
  omega

end Aligned

section Copied

theorem copiedPairs_cons : copiedPairs false generated origin (c :: text) =
    copiedPairs (c == '\n') (generated.advance c) (origin.advance c) text :=
  rfl

theorem copiedPairs_fresh (h : text ≠ []) : copiedPairs true generated origin text =
    (generated, origin) :: copiedPairs false generated origin text := by
  cases text with
  | nil => exact absurd rfl h
  | cons c text => rfl

/-- A pair of a copied text is for one of its characters. -/
theorem bounds_of_mem_copiedPairs (h : q ∈ copiedPairs fresh generated origin text) :
    generated.le q.1 ∧ q.1.Before (generated.advanceBy text) := by
  induction text generalizing fresh generated origin with
  | nil => cases h
  | cons c text ih =>
    have hrest (h : q ∈ copiedPairs false generated origin (c :: text)) :
        generated.le q.1 ∧ q.1.Before (generated.advanceBy (c :: text)) := by
      obtain ⟨hle, hbefore⟩ := ih (copiedPairs_cons ▸ h)
      rw [Position.advanceBy_cons]
      exact ⟨(Position.before_advance.trans_le hle).le, hbefore⟩
    cases fresh with
    | false => exact hrest h
    | true =>
      rcases List.mem_cons.mp (copiedPairs_fresh (List.cons_ne_nil c text) ▸ h) with rfl | h
      · exact ⟨Position.le_refl _, Position.before_advanceBy (List.cons_ne_nil c text)⟩
      · exact hrest h

theorem before_of_mem_copiedPairs (h : q ∈ copiedPairs false generated origin (c :: text)) :
    generated.Before q.1 :=
  Position.before_advance.trans_le (bounds_of_mem_copiedPairs (copiedPairs_cons ▸ h)).1

/-- The latest pair for a character of a copied text, given one for the place where the text starts. -/
theorem exists_latest_copied (h : Aligned pair generated origin) :
    ∃ latest, IsLatest Prod.fst (pair :: copiedPairs false generated origin (before ++ c :: after))
        (generated.advanceBy before) latest ∧
      Aligned latest (generated.advanceBy before) (origin.advanceBy before) := by
  induction before generalizing pair generated origin with
  | nil =>
    refine ⟨pair, ⟨List.mem_cons_self, h.le, fun q hq => ?_⟩, h⟩
    rcases List.mem_cons.mp hq with rfl | hq
    · exact .inl rfl
    · exact .inr (.inr (before_of_mem_copiedPairs hq))
  | cons d before ih =>
    rw [List.cons_append, copiedPairs_cons, Position.advanceBy_cons, Position.advanceBy_cons]
    by_cases hd : d = '\n'
    · -- a new line has a pair of its own, which comes after the one so far
      obtain ⟨latest, hlatest, haligned⟩ := ih (.self (generated.advance d) (origin.advance d))
      have hne : before ++ c :: after ≠ [] := by simp
      have hpair : pair.1.Before latest.1 := by
        have hle : (generated.advance d).le latest.1 := by
          rcases List.mem_cons.mp hlatest.mem with rfl | hmem
          · exact Position.le_refl _
          · exact (bounds_of_mem_copiedPairs hmem).1
        exact Position.le_trans_before h.le (Position.before_advance.trans_le hle)
      rw [beq_iff_eq.mpr hd, copiedPairs_fresh hne]
      refine ⟨latest, ?_, haligned⟩
      rw [← List.singleton_append]
      exact hlatest.append_left fun q hq => List.mem_singleton.mp hq ▸ hpair
    · rw [beq_false_of_ne hd]
      exact ih (h.advance hd)

end Copied

section Stretches

theorem stretchPairs_append {more : List Stretch} : stretchPairs generated origin (ss ++ more) =
    stretchPairs generated origin ss ++ stretchPairs (generated.advanceBy (ss.flatMap Stretch.output))
      (origin.advanceBy (ss.flatMap Stretch.covered)) more := by
  induction ss generalizing generated origin with
  | nil => rfl
  | cons s ss ih => simp [stretchPairs, ih]

theorem stretchPairs_framed {intro outro : List Char} :
    stretchPairs generated origin (.added intro :: ss ++ [.added outro]) =
      stretchPairs (generated.advanceBy intro) origin ss := by
  rw [List.cons_append, stretchPairs, stretchPairs_append]
  simp [stretchPairs, Stretch.pairs, Stretch.output, Stretch.covered]

theorem bounds_of_mem_pairs {s : Stretch} (h : q ∈ s.pairs generated origin) :
    generated.le q.1 ∧ q.1.Before (generated.advanceBy s.output) := by
  cases s with
  | kept text => exact bounds_of_mem_copiedPairs h
  | replaced text cut =>
    cases text with
    | nil => cases h
    | cons c text =>
      obtain rfl := List.mem_singleton.mp h
      exact ⟨Position.le_refl _, Position.before_advanceBy (List.cons_ne_nil c text)⟩
  | added text => cases h

theorem bounds_of_mem_stretchPairs (h : q ∈ stretchPairs generated origin ss) :
    generated.le q.1 ∧ q.1.Before (generated.advanceBy (ss.flatMap Stretch.output)) := by
  induction ss generalizing generated origin with
  | nil => cases h
  | cons s ss ih =>
    rw [List.flatMap_cons, Position.advanceBy_append]
    rcases List.mem_append.mp h with h | h
    · have hs := bounds_of_mem_pairs h
      exact ⟨hs.1, hs.2.trans_le Position.le_advanceBy⟩
    · obtain ⟨hle, hbefore⟩ := ih h
      exact ⟨Position.le_trans Position.le_advanceBy hle, hbefore⟩

/-- The latest pair for a character that is kept. -/
theorem exists_latest_kept : ∃ latest,
    IsLatest Prod.fst (stretchPairs generated origin (.kept (before ++ c :: after) :: ss))
      (generated.advanceBy before) latest ∧
    Aligned latest (generated.advanceBy before) (origin.advanceBy before) := by
  obtain ⟨latest, hlatest, haligned⟩ := exists_latest_copied (.self generated origin)
  refine ⟨latest, ?_, haligned⟩
  rw [stretchPairs, Stretch.pairs, copiedPairs_fresh (by simp)]
  refine hlatest.append_right fun q hq => ?_
  have hnext : (generated.advanceBy before).Before (generated.advanceBy (before ++ c :: after)) := by
    rw [Position.advanceBy_append]
    exact Position.before_advanceBy (List.cons_ne_nil c after)
  exact hnext.trans_le (bounds_of_mem_stretchPairs hq).1

/-- Edits of a text one after the other, the first at or after a place. -/
inductive InTurn (source : List Char) : Nat → List Edit → Prop
  | nil {offset : Nat} : InTurn source offset []
  | cons {offset : Nat} {e : Edit} {edits : List Edit} (hle : offset ≤ e.start) (hfits : e.fits source)
      (hrest : InTurn source e.stop edits) : InTurn source offset (e :: edits)

theorem Reduces.inTurn {last : Edit} (h : Reduces source last edits resolved)
    (hle : offset ≤ last.start) (hfits : last.fits source) : InTurn source offset resolved := by
  induction h generalizing offset with
  | done => exact .cons hle hfits .nil
  | again hfit hspan _ ih => exact ih (hspan.1 ▸ hle) hfit
  | inside _ _ _ _ _ ih => exact ih hle hfits
  | onward hfit _ hafter _ ih => exact .cons hle hfits (ih hafter hfit)

/-- The edits that take effect come one after the other. -/
theorem inTurn_of_resolveEdits (h : resolveEdits source edits = .ok resolved) :
    InTurn source 0 resolved := by
  rcases resolveEdits_cases h with ⟨-, rfl⟩ | ⟨first, rest, -, -, hfits, hreduces⟩
  · exact .nil
  · exact hreduces.inTurn (Nat.zero_le _) hfits

theorem InTurn.le_start (h : InTurn source offset edits) (he : e ∈ edits) :
    offset ≤ e.start ∧ e.start ≤ e.stop := by
  induction h with
  | nil => cases he
  | cons hle hfits _ ih =>
    have hstop := (Edit.fits_iff.mp hfits).1
    rcases List.mem_cons.mp he with rfl | he
    · exact ⟨hle, hstop⟩
    · obtain ⟨hstart, hend⟩ := ih he
      exact ⟨Nat.le_trans (Nat.le_trans hle hstop) hstart, hend⟩

theorem stretches_cons {kept cut after : List Char} (hstart : offset + byteLength kept = e.start)
    (hstop : e.start + byteLength cut = e.stop) : stretches offset (e :: edits) (kept ++ (cut ++ after)) =
      .kept kept :: .replaced e.text.toList cut :: stretches e.stop edits after := by
  have hkept : e.start - offset = byteLength kept := by omega
  have hcut : e.stop - e.start = byteLength cut := by omega
  rw [stretches, hkept, splitAtByte_append, Option.getD_some]
  dsimp only
  rw [hcut, splitAtByte_append, Option.getD_some]

/-- An edit cuts a text in what comes before it, what it replaces, and the rest. -/
theorem exists_stretches_cons (hrest : RestAt source rest offset) (hle : offset ≤ e.start)
    (hfits : e.fits source) :
    ∃ kept cut after, rest = kept ++ (cut ++ after) ∧ offset + byteLength kept = e.start ∧
      e.start + byteLength cut = e.stop ∧ RestAt source after e.stop ∧
      ∀ edits, stretches offset (e :: edits) rest =
        .kept kept :: .replaced e.text.toList cut :: stretches e.stop edits after := by
  obtain ⟨hstop, hstartsAt, hstopsAt⟩ := Edit.fits_iff.mp hfits
  obtain ⟨fromStart, hstartAt⟩ := isBoundary_iff.mp hstartsAt
  obtain ⟨after, hstopAt⟩ := isBoundary_iff.mp hstopsAt
  obtain ⟨kept, rfl, hkept⟩ := hrest.exists_between hstartAt hle
  obtain ⟨cut, rfl, hcut⟩ := hstartAt.exists_between hstopAt hstop
  have hstart : offset + byteLength kept = e.start := by omega
  have hend : e.start + byteLength cut = e.stop := by omega
  exact ⟨kept, cut, after, rfl, hstart, hend, hstopAt, fun edits => stretches_cons hstart hend⟩

/-- Bytes that the edits up to a place cut out. -/
def cutBytes (edits : List Edit) (o : Nat) : Nat :=
  ((edits.filter (·.stop ≤ o)).map fun e => e.stop - e.start).sum

/-- Bytes that the edits up to a place put in. -/
def textBytes (edits : List Edit) (o : Nat) : Nat :=
  ((edits.filter (·.stop ≤ o)).map fun e => byteLength e.text.toList).sum

/-- How far into an edited text a place of the source is that no edit covers. -/
def movedOffset (edits : List Edit) (o : Nat) : Nat :=
  o + textBytes edits o - cutBytes edits o

theorem bytes_cons_of_le (h : e.stop ≤ o) : cutBytes (e :: edits) o = e.stop - e.start + cutBytes edits o ∧
    textBytes (e :: edits) o = byteLength e.text.toList + textBytes edits o := by
  simp [cutBytes, textBytes, h]

/-- Edits that stop after a place leave it where it is. -/
theorem movedOffset_append (h : ∀ e ∈ more, o < e.stop) :
    movedOffset (edits ++ more) o = movedOffset edits o := by
  have hnone : more.filter (·.stop ≤ o) = [] :=
    List.filter_eq_nil_iff.mpr fun e he => by simpa using h e he
  simp [movedOffset, cutBytes, textBytes, hnone]

/-- No edit takes away the character at a place. -/
def Uncovered (edits : List Edit) (o : Nat) : Prop :=
  ∀ e ∈ edits, ¬(e.start ≤ o ∧ o < e.stop)

/-- The latest pair of some stretches, with other stretches before them. -/
theorem IsLatest.stretches_append {passed : List Stretch} {place : Position}
    (h : IsLatest Prod.fst (stretchPairs (generated.advanceBy (passed.flatMap Stretch.output))
      (origin.advanceBy (passed.flatMap Stretch.covered)) ss) place pair) :
    IsLatest Prod.fst (stretchPairs generated origin (passed ++ ss)) place pair := by
  rw [stretchPairs_append]
  refine h.append_left fun q hq => ?_
  exact (bounds_of_mem_stretchPairs hq).2.trans_le (bounds_of_mem_stretchPairs h.mem).1

/-- Some edits in turn cut a text, which starts at byte `offset`, in what they pass and the rest, which starts
where the last one of them stops. -/
inductive Passes : Nat → List Edit → List Char → List Stretch → Nat → List Char → Prop
  | nil {offset : Nat} {rest : List Char} : Passes offset [] rest [] offset rest
  | cons {offset stop : Nat} {e : Edit} {edits : List Edit} {kept cut after rest : List Char}
    {passed : List Stretch} (start : offset + byteLength kept = e.start)
    (cuts : e.start + byteLength cut = e.stop) (onward : Passes e.stop edits after passed stop rest) :
    Passes offset (e :: edits) (kept ++ (cut ++ after))
      (.kept kept :: .replaced e.text.toList cut :: passed) stop rest

theorem InTurn.passes (hturn : InTurn source offset (edits ++ more)) (hrest : RestAt source text offset) :
    ∃ passed stop rest, Passes offset edits text passed stop rest ∧ RestAt source rest stop ∧
      InTurn source stop more := by
  induction edits generalizing offset text with
  | nil => exact ⟨[], offset, text, .nil, hrest, hturn⟩
  | cons e edits ih =>
    cases hturn with
    | cons hle hfits hturn =>
      obtain ⟨kept, cut, after, rfl, hstart, hstop, hafter, -⟩ := exists_stretches_cons hrest hle hfits
      obtain ⟨passed, stop, rest, hpasses, hrest', hturn'⟩ := ih hturn hafter
      exact ⟨_, stop, rest, .cons hstart hstop hpasses, hrest', hturn'⟩

namespace Passes

variable {passed : List Stretch} {stop : Nat} (h : Passes offset edits text passed stop rest)
include h

theorem text_eq : text = passed.flatMap Stretch.covered ++ rest := by
  induction h with
  | nil => rfl
  | cons _ _ _ ih => simp [Stretch.covered, ← ih]

theorem stop_eq : stop = offset + byteLength (passed.flatMap Stretch.covered) := by
  induction h with
  | nil => rfl
  | cons hstart hcuts _ ih =>
    rw [ih]
    simp [Stretch.covered]
    omega

theorem stop_le : offset ≤ stop ∧ ∀ e ∈ edits, e.stop ≤ stop := by
  induction h with
  | nil => simp
  | cons hstart hcuts _ ih =>
    refine ⟨by omega, fun e he => ?_⟩
    rcases List.mem_cons.mp he with rfl | he
    · exact ih.1
    · exact ih.2 e he

/-- What is written differs in length from what is covered by what the edits put in and cut out. -/
theorem bytes (hle : stop ≤ o) : byteLength (passed.flatMap Stretch.output) + cutBytes edits o =
    byteLength (passed.flatMap Stretch.covered) + textBytes edits o := by
  induction h with
  | nil => rfl
  | @cons offset stop e edits _ _ _ _ _ hstart hcuts honward ih =>
    obtain ⟨hcut, htext⟩ := @bytes_cons_of_le edits e o (Nat.le_trans honward.stop_le.1 hle)
    have hbytes := ih hle
    rw [hcut, htext]
    simp [Stretch.output, Stretch.covered]
    omega

theorem stretches_eq (more : List Edit) :
    stretches offset (edits ++ more) text = passed ++ stretches stop more rest := by
  induction h with
  | nil => rfl
  | cons hstart hcuts _ ih =>
    rw [List.cons_append, stretches_cons hstart hcuts, ih]
    rfl

end Passes

/-- A place in a text behind some edits and in front of others, at or in the part that is kept between
them: `before` is what is kept up to the place and `part` what is kept from there on. -/
structure KeptUpTo (offset : Nat) (text : List Char) (edits front more : List Edit) (passed : List Stretch)
    (stop : Nat) (before rest part : List Char) (tail : List Stretch) : Prop where
  edits_eq : edits = front ++ more
  passes : Passes offset front text passed stop (before ++ rest)
  stretches_eq : stretches stop more (before ++ rest) = .kept (before ++ part) :: tail

theorem KeptUpTo.cons {kept cut part : List Char} {front : List Edit} {passed tail : List Stretch}
    {stop : Nat} (h : KeptUpTo e.stop text edits front more passed stop before rest part tail)
    (hstart : offset + byteLength kept = e.start) (hcuts : e.start + byteLength cut = e.stop) :
    KeptUpTo offset (kept ++ (cut ++ text)) (e :: edits) (e :: front) more
      (.kept kept :: .replaced e.text.toList cut :: passed) stop before rest part tail where
  edits_eq := congrArg (e :: ·) h.edits_eq
  passes := .cons hstart hcuts h.passes
  stretches_eq := h.stretches_eq

/-- The edits around a part that none of them touches. -/
theorem InTurn.exists_keptUpTo {part : List Char} (hturn : InTurn source offset edits)
    (hrest : RestAt source text offset) (hpart : RestAt source (part ++ after) o) (hle : offset ≤ o)
    (hclear : ∀ e ∈ edits, e.stop ≤ o ∨ o + byteLength part ≤ e.start) :
    ∃ front more passed stop before following tail,
      KeptUpTo offset text edits front more passed stop before (part ++ after) (part ++ following) tail ∧
        stop + byteLength before = o ∧ InTurn source (o + byteLength part) more := by
  obtain ⟨before, rfl, hbefore⟩ := hrest.exists_between hpart hle
  induction hturn generalizing before with
  | nil => exact ⟨[], [], [], _, before, after, [], ⟨rfl, .nil, rfl⟩, by omega, .nil⟩
  | @cons offset e edits hstartLe hfits hturn ih =>
    obtain ⟨kept, cut, behind, hsplit, hstart, hstop, hbehind, hstretches⟩ :=
      exists_stretches_cons hrest hstartLe hfits
    by_cases hpassed : e.stop ≤ o
    · obtain ⟨between, rfl, hbetween⟩ := hbehind.exists_between hpart hpassed
      obtain ⟨front, more, passed, stop, before, following, tail, hkept, hplace, hmore⟩ :=
        ih hpassed (fun e he => hclear e (List.mem_cons_of_mem _ he)) between hbetween hbehind
      rw [hsplit]
      exact ⟨e :: front, more, _, stop, before, following, tail, hkept.cons hstart hstop, hplace, hmore⟩
    · have hahead := (hclear e List.mem_cons_self).resolve_left hpassed
      have hstartAt : RestAt source (cut ++ behind) e.start := hstart ▸ (hsplit ▸ hrest).append kept
      obtain ⟨following, rfl, -⟩ := (hpart.append part).exists_between hstartAt hahead
      have hkept : kept = before ++ (part ++ following) :=
        List.append_cancel_right (hsplit.symm.trans (by simp))
      exact ⟨[], e :: edits, [], offset, before, following, _, ⟨rfl, .nil, hkept ▸ hstretches edits⟩,
        by omega, .cons hahead hfits hturn⟩

theorem InTurn.fits_of_mem (hturn : InTurn source offset edits) (he : e ∈ edits) : e.fits source := by
  induction hturn with
  | nil => cases he
  | cons _ hfits _ ih =>
    rcases List.mem_cons.mp he with rfl | he
    · exact hfits
    · exact ih he

/-- An edit that does not cover a character ends before it or starts behind it. -/
theorem InTurn.clear_of_uncovered (hturn : InTurn source offset edits) (hchar : RestAt source (c :: after) o)
    (hfree : Uncovered edits o) : ∀ e ∈ edits, e.stop ≤ o ∨ o + byteLength [c] ≤ e.start := by
  intro e he
  obtain ⟨hstop, hstartsAt, -⟩ := Edit.fits_iff.mp (hturn.fits_of_mem he)
  obtain ⟨rest, hrest⟩ := isBoundary_iff.mp hstartsAt
  refine or_iff_not_imp_left.mpr fun hpassed => ?_
  have hcovers := hfree e he
  obtain ⟨part, hpart, hlength⟩ := hchar.exists_between hrest (by omega)
  cases part with
  | nil =>
    rw [byteLength_nil] at hlength
    omega
  | cons d part =>
    obtain rfl : c = d := (List.cons.inj hpart).1
    rw [byteLength_cons] at hlength
    rw [byteLength_cons, byteLength_nil]
    omega

theorem InTurn.lt_stop (hturn : InTurn source offset edits) (ho : o < offset) : ∀ e ∈ edits, o < e.stop := by
  intro e he
  have hbounds := hturn.le_start he
  omega

theorem InTurn.mono (hturn : InTurn source offset edits) (hle : o ≤ offset) : InTurn source o edits := by
  cases hturn with
  | nil => exact .nil
  | cons hstart hfits hturn => exact .cons (Nat.le_trans hle hstart) hfits hturn

/-- The edits around a character that none of them covers. -/
theorem InTurn.exists_keptUpTo_char (hturn : InTurn source 0 edits) (hchar : RestAt source (c :: after) o)
    (hfree : Uncovered edits o) :
    ∃ front more passed stop before following tail,
      KeptUpTo 0 source edits front more passed stop before (c :: after) (c :: following) tail ∧
        stop + byteLength before = o ∧ InTurn source (o + 1) more := by
  have hpart : RestAt source ([c] ++ after) o := hchar
  have hc : 0 < byteLength [c] := Nat.add_pos_left c.utf8Size_pos 0
  obtain ⟨front, more, passed, stop, before, following, tail, hkept, hplace, hmore⟩ :=
    hturn.exists_keptUpTo ⟨[], rfl, rfl⟩ hpart (Nat.zero_le o) (hturn.clear_of_uncovered hchar hfree)
  exact ⟨front, more, passed, stop, before, following, tail, hkept, hplace,
    hmore.mono (Nat.add_le_add_left hc o)⟩

/-- The edits before one of them, and the part that is kept in front of it. -/
theorem InTurn.exists_keptUpTo_edit (hturn : InTurn source 0 (edits ++ e :: more)) :
    ∃ passed stop before rest cut tail,
      KeptUpTo 0 source (edits ++ e :: more) edits (e :: more) passed stop before rest []
        (.replaced e.text.toList cut :: tail) ∧
      stop + byteLength before = e.start ∧ InTurn source e.stop more := by
  obtain ⟨passed, stop, rest, hpasses, hrest, hturn⟩ := hturn.passes ⟨[], rfl, rfl⟩
  cases hturn with
  | cons hle hfits hturn =>
    obtain ⟨kept, cut, behind, rfl, hstart, -, -, hstretches⟩ := exists_stretches_cons hrest hle hfits
    have hkept : stretches stop (e :: more) (kept ++ (cut ++ behind)) =
        .kept (kept ++ []) :: .replaced e.text.toList cut :: stretches e.stop more behind := by
      rw [List.append_nil, hstretches]
    exact ⟨passed, stop, kept, _, cut, _, ⟨rfl, hpasses, hkept⟩, hstart, hturn⟩

namespace KeptUpTo

variable {front : List Edit} {passed tail : List Stretch} {part : List Char} {stop : Nat}
  (h : KeptUpTo 0 source edits front more passed stop before rest part tail)
include h

theorem output_eq : (stretches 0 edits source).flatMap Stretch.output =
    (passed.flatMap Stretch.output ++ before) ++ (part ++ tail.flatMap Stretch.output) := by
  rw [h.edits_eq, h.passes.stretches_eq, h.stretches_eq]
  simp [Stretch.output]

theorem source_eq : source = (passed.flatMap Stretch.covered ++ before) ++ rest := by
  rw [List.append_assoc]
  exact h.passes.text_eq

theorem byteLength_covered : byteLength (passed.flatMap Stretch.covered ++ before) = stop + byteLength before := by
  rw [byteLength_append, h.passes.stop_eq, Nat.zero_add]

theorem positionAt_eq : positionAt source (stop + byteLength before) =
    Position.advanceBy {} (passed.flatMap Stretch.covered ++ before) := by
  rw [← h.byteLength_covered, h.source_eq, positionAt_append]

theorem restAt : RestAt source rest (stop + byteLength before) :=
  ⟨_, h.source_eq, h.byteLength_covered⟩

theorem byteLength_output : byteLength (passed.flatMap Stretch.output ++ before) =
    movedOffset front (stop + byteLength before) := by
  have hbytes := h.passes.bytes (Nat.le_add_right stop (byteLength before))
  have hcovered := h.byteLength_covered
  rw [byteLength_append] at hcovered
  rw [byteLength_append, movedOffset]
  omega

theorem restAt_output : RestAt ((stretches 0 edits source).flatMap Stretch.output)
    (part ++ tail.flatMap Stretch.output) (movedOffset front (stop + byteLength before)) :=
  ⟨_, h.output_eq, h.byteLength_output⟩

end KeptUpTo

/-- In an edited text, each character that no edit covers is found where the edits moved it, and the latest
pair up to there is for its line and as far ahead of it as it is in the source. -/
theorem exists_latest_of_resolveEdits (generated : Position)
    (hresolved : resolveEdits source edits = .ok resolved) (hchar : RestAt source (c :: after) o)
    (hfree : Uncovered resolved o) :
    ∃ written following,
      (stretches 0 resolved source).flatMap Stretch.output = written ++ c :: following ∧
      byteLength written = movedOffset resolved o ∧
      ∃ latest, IsLatest Prod.fst (stretchPairs generated {} (stretches 0 resolved source))
          (generated.advanceBy written) latest ∧
        Aligned latest (generated.advanceBy written) (positionAt source o) := by
  obtain ⟨front, more, passed, stop, before, part, tail, hkept, rfl, hmore⟩ :=
    (inTurn_of_resolveEdits hresolved).exists_keptUpTo_char hchar hfree
  refine ⟨_, _, hkept.output_eq, ?_, ?_⟩
  · rw [hkept.byteLength_output, hkept.edits_eq, movedOffset_append (hmore.lt_stop (Nat.lt_succ_self _))]
  · obtain ⟨latest, hlatest, haligned⟩ := exists_latest_kept
    rw [hkept.positionAt_eq, hkept.edits_eq, hkept.passes.stretches_eq, hkept.stretches_eq,
      Position.advanceBy_append, Position.advanceBy_append]
    exact ⟨latest, hlatest.stretches_append, haligned⟩

end Stretches

namespace EditList

variable {text : String} {request : Option MapRequest} {piece : Piece}

theorem apply_eq_error_iff (e : EditList) {error : EditError} :
    e.apply text request = .error error ↔ resolveEdits text.toList e.edits = .error error := by
  rw [apply, EditList.stretches]
  cases resolveEdits text.toList e.edits <;> simp [Except.map]

/-- What comes of carrying out some edits. -/
theorem exists_of_apply (e : EditList) (h : e.apply text request = .ok piece) :
    ∃ resolved, resolveEdits text.toList e.edits = .ok resolved ∧
      piece.code.toList = e.intro.toList ++
        ((FlatBundle.stretches 0 resolved text.toList).flatMap Stretch.output ++ e.outro.toList) ∧
      piece.map = request.map fun request => pairsMap request text
        (stretchPairs (Position.advanceBy {} e.intro.toList) {} (FlatBundle.stretches 0 resolved text.toList)) := by
  rw [apply, EditList.stretches] at h
  cases hresolved : resolveEdits text.toList e.edits with
  | error error =>
    rw [hresolved] at h
    cases h
  | ok resolved =>
    rw [hresolved] at h
    cases h
    refine ⟨resolved, rfl, by simp [Stretch.output], ?_⟩
    rw [← stretchPairs_framed]

end EditList

end FlatBundle
