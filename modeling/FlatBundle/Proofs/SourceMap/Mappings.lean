import FlatBundle.SourceMap.Text
import Mathlib.Tactic.Ring

/-!
The text of the mappings of a source map, read back: numbers, segments and lines.
-/

namespace FlatBundle

namespace Vlq

variable {n shift value : Nat} {a : Int} {s : List Char}

theorem digit_digitChar (h : n < 64) : digit (Base64.digitChar n) = (n % 32, decide (32 ≤ n)) := by
  revert n
  decide

/-- A number within 64 bits is read back, and the next one starts afresh. -/
theorem decodeFrom_encodeNat (hshift : shift < 64) (hn : n * 2 ^ shift < 2 ^ 64) :
    decodeFrom value shift (encodeNat n ++ s) =
      (decodeFrom 0 0 s).map (toInt (value + n * 2 ^ shift) :: ·) := by
  induction n using encodeNat.induct generalizing value shift with
  | case1 n hlt =>
    have hdigit : digit (Base64.digitChar n) = (n, false) := by
      rw [digit_digitChar (by omega), Nat.mod_eq_of_lt hlt, decide_eq_false (by omega)]
    rw [encodeNat, if_pos hlt, List.singleton_append, decodeFrom, if_neg (by omega), hdigit]
    simp [Nat.shiftLeft_eq]
  | case2 n hlt ih =>
    have hdigit : digit (Base64.digitChar (n % 32 + 32)) = (n % 32, true) := by
      rw [digit_digitChar (by omega), Nat.add_mod_right, Nat.mod_mod, decide_eq_true (by omega)]
    have hpow : 2 ^ (shift + 5) = 32 * 2 ^ shift := by ring
    have hsplit : n % 32 * 2 ^ shift + n / 32 * 2 ^ (shift + 5) = n * 2 ^ shift := by
      rw [hpow, ← mul_assoc, ← add_mul, mul_comm _ 32, Nat.mod_add_div]
    have hrest : n / 32 * 2 ^ (shift + 5) < 2 ^ 64 := by omega
    have hshift' : shift + 5 < 64 := by
      have hone : 1 ≤ n / 32 := by omega
      have := Nat.mul_le_mul_right (2 ^ (shift + 5)) hone
      exact (Nat.pow_lt_pow_iff_right (show 1 < 2 by decide)).mp (by omega)
    rw [encodeNat, if_neg hlt, List.cons_append, decodeFrom, if_neg (by omega), hdigit]
    simp only [if_true, Nat.shiftLeft_eq]
    rw [ih hshift' hrest, Nat.add_assoc, hsplit]

theorem toInt_ofInt (a : Int) : toInt (ofInt a) = a := by
  unfold ofInt toInt
  split_ifs <;> omega

theorem decodeFrom_encode (h : a.natAbs < 2 ^ 62) :
    decodeFrom 0 0 (encode a ++ s) = (decodeFrom 0 0 s).map (a :: ·) := by
  have hn : ofInt a < 2 ^ 64 := by
    unfold ofInt
    split <;> omega
  rw [encode, decodeFrom_encodeNat (by omega) (by rwa [pow_zero, mul_one])]
  rw [Nat.zero_add, pow_zero, mul_one, toInt_ofInt]

/-- The digits of a number are neither commas nor semicolons. -/
theorem isDigit_encodeNat (n : Nat) : ∀ c ∈ encodeNat n, c ≠ ',' ∧ c ≠ ';' := by
  have hdigit : ∀ k < 64, Base64.digitChar k ≠ ',' ∧ Base64.digitChar k ≠ ';' := by decide
  induction n using encodeNat.induct with
  | case1 n hlt =>
    rw [encodeNat, if_pos hlt]
    intro c hc
    exact List.mem_singleton.mp hc ▸ hdigit n (by omega)
  | case2 n hlt ih =>
    rw [encodeNat, if_neg hlt]
    intro c hc
    rcases List.mem_cons.mp hc with rfl | hc
    · exact hdigit _ (by omega)
    · exact ih c hc

end Vlq

namespace Text

variable {mark c : Char} {x s : List Char} {first : List Char} {rest : List (List Char)}

theorem pieces_ne_nil (mark : Char) (s : List Char) : pieces mark s ≠ [] := by
  cases s with
  | nil => exact List.cons_ne_nil _ _
  | cons c s =>
    rw [pieces]
    split
    · exact List.cons_ne_nil _ _
    · split <;> exact List.cons_ne_nil _ _

theorem exists_pieces (mark : Char) (s : List Char) : ∃ first rest, pieces mark s = first :: rest :=
  List.exists_cons_of_ne_nil (pieces_ne_nil mark s)

/-- A text without the mark goes into the first piece. -/
theorem pieces_append (hx : mark ∉ x) (hs : pieces mark s = first :: rest) :
    pieces mark (x ++ s) = (x ++ first) :: rest := by
  induction x with
  | nil => exact hs
  | cons c x ih =>
    obtain ⟨hc, hx⟩ := List.ne_and_not_mem_of_not_mem_cons hx
    rw [List.cons_append, pieces, if_neg hc.symm, ih hx]
    rfl

theorem pieces_mark (mark : Char) (s : List Char) : pieces mark (mark :: s) = [] :: pieces mark s := by
  rw [pieces, if_pos rfl]

end Text

/-- The words of the format are of 32 bits. -/
def wordCount : Nat := 0x100000000

/-- Both numbers of a position are words. -/
def Position.IsWord (p : Position) : Prop :=
  p.line < wordCount ∧ p.column < wordCount

instance (p : Position) : Decidable p.IsWord :=
  inferInstanceAs (Decidable (p.line < wordCount ∧ p.column < wordCount))

/-- A mapping refers to sources and names that there are, and to a name only with a source. -/
structure Mapping.RefersIn (sources names : Nat) (t : Mapping) : Prop where
  source : ∀ i, t.source = some i → i < sources
  name : ∀ i, t.name = some i → i < names
  unnamed : t.source = none → t.name = none

instance (sources names : Nat) (t : Mapping) : Decidable (t.RefersIn sources names) :=
  decidable_of_iff
    ((∀ i ∈ t.source, i < sources) ∧ (∀ i ∈ t.name, i < names) ∧ (t.source = none → t.name = none))
    ⟨fun ⟨source, name, unnamed⟩ => ⟨source, name, unnamed⟩, fun h => ⟨h.source, h.name, h.unnamed⟩⟩

/-- What a mapping tells: the place of origin means nothing without a source. -/
def Mapping.told (t : Mapping) : Position × Option (Nat × Position) × Option Nat :=
  (t.generated, t.source.map (·, t.origin), t.name)

namespace SourceMap

variable {sources names line k : Nat} {o o' : Counters} {x s : List Char} {t t' : Mapping}

/-- Reads on in the middle of a line. -/
def readFrom (sources names line : Nat) (o : Counters) (s : List Char) : Option (List Mapping) := do
  match Text.pieces ';' s with
  | [] => none
  | l :: ls =>
    let (ts, o) ← readLine sources names line o (Text.pieces ',' l)
    let more ← readLines sources names (line + 1) o ls
    return ts ++ more

theorem readLines_eq (s : List Char) : readLines sources names line o (Text.pieces ';' s) =
    readFrom sources names line { o with column := 0 } s := by
  obtain ⟨l, ls, h⟩ := Text.exists_pieces ';' s
  rw [readFrom, h]
  rfl

theorem readFrom_semicolon : readFrom sources names line o (';' :: s) =
    readFrom sources names (line + 1) { o with column := 0 } s := by
  rw [← readLines_eq, readFrom, Text.pieces_mark]
  simp [Text.pieces, readLine]

theorem readFrom_semicolons : readFrom sources names line o (List.replicate (k + 1) ';' ++ s) =
    readFrom sources names (line + (k + 1)) { o with column := 0 } s := by
  induction k generalizing line o with
  | zero => exact readFrom_semicolon
  | succ k ih =>
    rw [List.replicate_succ, List.cons_append, readFrom_semicolon, ih]
    congr 1
    omega

theorem readFrom_comma : readFrom sources names line o (',' :: s) = readFrom sources names line o s := by
  obtain ⟨l, ls, h⟩ := Text.exists_pieces ';' s
  have hcomma : Text.pieces ';' (',' :: s) = (',' :: l) :: ls :=
    Text.pieces_append (x := [',']) (by decide) h
  rw [readFrom, readFrom, h, hcomma]
  simp only [Text.pieces_mark, readLine]

/-- Where a segment ends. -/
def EndsSegment (s : List Char) : Prop :=
  s = [] ∨ ∃ u, s = ',' :: u ∨ s = ';' :: u

/-- What follows a segment has no part in it. -/
theorem EndsSegment.exists_pieces {l : List Char} {ls : List (List Char)} (hs : EndsSegment s)
    (h : Text.pieces ';' s = l :: ls) : ∃ rest, Text.pieces ',' l = [] :: rest := by
  obtain rfl | ⟨u, rfl | rfl⟩ := hs
  · cases h
    exact ⟨[], rfl⟩
  · obtain ⟨f, r, hu⟩ := Text.exists_pieces ';' u
    have hcomma : Text.pieces ';' (',' :: u) = (',' :: f) :: r :=
      Text.pieces_append (x := [',']) (by decide) hu
    rw [hcomma] at h
    cases h
    exact ⟨_, Text.pieces_mark ',' f⟩
  · rw [Text.pieces_mark] at h
    cases h
    exact ⟨[], rfl⟩

theorem readLine_cons {rest : List (List Char)} (hne : x ≠ []) :
    readLine sources names line o (x :: rest) = (readSegment sources names line o x).bind fun (t, o) =>
      (readLine sources names line o rest).map fun (ts, o) => (t :: ts, o) := by
  rw [readLine.eq_3 _ _ _ _ _ _ hne]
  cases readSegment sources names line o x with
  | none => rfl
  | some r =>
    obtain ⟨t, o⟩ := r
    simp only [bind, Option.bind]
    cases readLine sources names line o rest <;> rfl

theorem readFrom_segment (hne : x ≠ []) (hx : ∀ c ∈ x, c ≠ ',' ∧ c ≠ ';') (hs : EndsSegment s)
    (h : readSegment sources names line o x = some (t, o')) :
    readFrom sources names line o (x ++ s) = (readFrom sources names line o' s).map (t :: ·) := by
  have hcomma : ',' ∉ x := fun hmem => (hx _ hmem).1 rfl
  have hsemicolon : ';' ∉ x := fun hmem => (hx _ hmem).2 rfl
  obtain ⟨l, ls, hl⟩ := Text.exists_pieces ';' s
  obtain ⟨rest, hrest⟩ := hs.exists_pieces hl
  have hpieces : Text.pieces ',' (x ++ l) = x :: rest := by
    rw [Text.pieces_append hcomma hrest, List.append_nil]
  rw [readFrom, readFrom, Text.pieces_append hsemicolon hl, hl]
  simp only [hpieces, hrest, readLine_cons hne, h, Option.bind_some]
  rw [readLine]
  cases readLine sources names line o' rest with
  | none => rfl
  | some r =>
    obtain ⟨ts, o⟩ := r
    simp only [Option.map_some, bind, Option.bind]
    cases readLines sources names (line + 1) o ls <;> rfl

theorem step_difference (h : k < wordCount) (n : Nat) : step n ((k : Int) - n) = k := by
  have hsum : (n : Int) + ((k : Int) - n) = k := by omega
  rw [step, hsum]
  unfold wordCount at h
  omega

/-- The counters are words. -/
structure Counters.Fit (o : Counters) : Prop where
  column : o.column < wordCount
  source : o.source < wordCount
  line : o.line < wordCount
  originColumn : o.originColumn < wordCount
  name : o.name < wordCount

/-- A mapping can be written: its numbers are words, and it has a name only with a source. -/
structure FitsIn (sources names : Nat) (t : Mapping) : Prop where
  generated : t.generated.IsWord
  origin : t.origin.IsWord
  refers : t.RefersIn sources names

theorem decodeFrom_difference {a b : Nat} (ha : a < wordCount) (hb : b < wordCount) :
    Vlq.decodeFrom 0 0 (difference a b ++ s) = (Vlq.decodeFrom 0 0 s).map (((a : Int) - b) :: ·) := by
  unfold wordCount at ha hb
  exact Vlq.decodeFrom_encode (by omega)

theorem decode_difference {a b : Nat} (ha : a < wordCount) (hb : b < wordCount) :
    Vlq.decodeFrom 0 0 (difference a b) = some [(a : Int) - b] := by
  have := decodeFrom_difference (s := []) ha hb
  rwa [List.append_nil] at this

theorem readSegment_segmentText (hsources : sources ≤ wordCount) (hnames : names ≤ wordCount)
    (ho : o.Fit) (ht : FitsIn sources names t) :
    ∃ t', readSegment sources names t.generated.line o (segmentText o t).1 =
        some (t', (segmentText o t).2) ∧ t'.told = t.told ∧ (segmentText o t).2.Fit := by
  obtain ⟨⟨line, column⟩, ⟨originLine, originColumn⟩, source, name⟩ := t
  have hcolumn : column < wordCount := ht.generated.2
  have hline : originLine < wordCount := ht.origin.1
  have horigin : originColumn < wordCount := ht.origin.2
  cases source with
  | none =>
    obtain rfl : name = none := ht.refers.unnamed rfl
    refine ⟨⟨⟨line, column⟩, ⟨o.line, o.originColumn⟩, none, none⟩, ?_, rfl, ?_⟩
    · simp [readSegment, segmentText, Vlq.decode, decode_difference hcolumn ho.column,
        step_difference hcolumn]
    · exact { ho with column := hcolumn }
  | some source =>
    have hsource := ht.refers.source source rfl
    have hsource' : source < wordCount := by omega
    have hplace : ∀ s, Vlq.decodeFrom 0 0 (difference column o.column ++ (difference source o.source ++
        (difference originLine o.line ++ (difference originColumn o.originColumn ++ s)))) =
          (Vlq.decodeFrom 0 0 s).map fun rest => ((column : Int) - o.column) ::
            ((source : Int) - o.source) :: ((originLine : Int) - o.line) ::
              ((originColumn : Int) - o.originColumn) :: rest := by
      intro s
      rw [decodeFrom_difference hcolumn ho.column, decodeFrom_difference hsource' ho.source,
        decodeFrom_difference hline ho.line, decodeFrom_difference horigin ho.originColumn]
      simp only [Option.map_map]
      rfl
    cases name with
    | none =>
      refine ⟨⟨⟨line, column⟩, ⟨originLine, originColumn⟩, some source, none⟩, ?_, rfl, ?_⟩
      · have hnumbers := hplace []
        rw [List.append_nil] at hnumbers
        simp [readSegment, segmentText, Vlq.decode, hnumbers, Vlq.decodeFrom, step_difference hcolumn,
          step_difference hsource', step_difference hline, step_difference horigin, hsource]
      · exact ⟨hcolumn, hsource', hline, horigin, ho.name⟩
    | some name =>
      have hname := ht.refers.name name rfl
      have hname' : name < wordCount := by omega
      refine ⟨⟨⟨line, column⟩, ⟨originLine, originColumn⟩, some source, some name⟩, ?_, rfl, ?_⟩
      · simp [readSegment, segmentText, Vlq.decode, hplace, decode_difference hname' ho.name,
          step_difference hcolumn, step_difference hsource', step_difference hline,
          step_difference horigin, step_difference hname', hsource, hname]
      · exact ⟨hcolumn, hsource', hline, horigin, hname'⟩

theorem isDigit_segmentText (o : Counters) (t : Mapping) :
    ∀ c ∈ (segmentText o t).1, c ≠ ',' ∧ c ≠ ';' := by
  have hdigits (a b : Nat) : ∀ c ∈ difference a b, c ≠ ',' ∧ c ≠ ';' := Vlq.isDigit_encodeNat _
  unfold segmentText
  dsimp only
  split
  · exact hdigits _ _
  · split
    · simp only [List.forall_mem_append]
      exact ⟨hdigits _ _, ⟨hdigits _ _, hdigits _ _⟩, hdigits _ _⟩
    · simp only [List.forall_mem_append]
      exact ⟨⟨hdigits _ _, ⟨hdigits _ _, hdigits _ _⟩, hdigits _ _⟩, hdigits _ _⟩

theorem segmentText_ne_nil (o : Counters) (t : Mapping) : (segmentText o t).1 ≠ [] := by
  have hdifference (a b : Nat) : difference a b ≠ [] := by
    rw [difference, Vlq.encode, Vlq.encodeNat]
    split <;> exact List.cons_ne_nil _ _
  unfold segmentText
  dsimp only
  split
  · exact hdifference _ _
  · split <;> simp [hdifference]

/-- The mappings that are written after the mapping `last`: none equal to the one before it. -/
def unrepeated (last : Option Mapping) : List Mapping → List Mapping
  | [] => []
  | t :: rest => if last = some t then unrepeated last rest else t :: unrepeated (some t) rest

theorem endsSegment_mappingsFrom (line : Nat) (o : Counters) (t : Mapping) (ts : List Mapping) :
    EndsSegment (mappingsFrom line o (some t) ts) := by
  induction ts with
  | nil => exact .inl rfl
  | cons t' ts ih =>
    rw [mappingsFrom]
    split
    · exact ih
    · dsimp only
      by_cases hlines : 0 < t'.generated.line - line
      · obtain ⟨k, hk⟩ := Nat.exists_eq_succ_of_ne_zero (Nat.ne_of_gt hlines)
        rw [if_pos hlines, hk, List.replicate_succ]
        exact .inr ⟨_, .inr rfl⟩
      · rw [if_neg hlines]
        exact .inr ⟨_, .inl rfl⟩

/-- Semicolons lead to the line of the next mapping; a comma leads to one on the same line. -/
theorem readFrom_separator {line' : Nat} {later : Bool} (h : line ≤ line') :
    readFrom sources names line o ((if line' - line > 0 then List.replicate (line' - line) ';'
        else if later then [','] else []) ++ s) =
      readFrom sources names line' (if line' - line > 0 then { o with column := 0 } else o) s := by
  by_cases hlines : line' - line > 0
  · obtain ⟨k, hk⟩ := Nat.exists_eq_succ_of_ne_zero (Nat.ne_of_gt hlines)
    have hline : line + (k + 1) = line' := by omega
    rw [if_pos hlines, if_pos hlines, hk, readFrom_semicolons, hline]
  · obtain rfl : line = line' := by omega
    rw [if_neg hlines, if_neg hlines]
    cases later with
    | false => rfl
    | true => exact readFrom_comma

/-- The mappings that are written are read back, with the same counters at each of them. -/
theorem exists_readFrom_mappingsFrom (line : Nat) {ts : List Mapping} (hsources : sources ≤ wordCount)
    (hnames : names ≤ wordCount) (ho : o.Fit) (hts : ∀ t ∈ ts, FitsIn sources names t)
    (hlines : ∀ t ∈ ts, line ≤ t.generated.line) (hsorted : ts.Pairwise fun a b => a.before b)
    (last : Option Mapping) :
    ∃ ts', readFrom sources names line o (mappingsFrom line o last ts) = some ts' ∧
      ts'.map Mapping.told = (unrepeated last ts).map Mapping.told := by
  induction ts generalizing line o last with
  | nil => exact ⟨[], rfl, rfl⟩
  | cons t ts ih =>
    rw [List.forall_mem_cons] at hts hlines
    rw [List.pairwise_cons] at hsorted
    rw [mappingsFrom, unrepeated]
    by_cases hlast : last = some t
    · rw [if_pos hlast, if_pos hlast]
      exact ih _ ho hts.2 hlines.2 hsorted.2 last
    rw [if_neg hlast, if_neg hlast]
    dsimp only
    generalize hcounters : (if t.generated.line - line > 0 then { o with column := 0 } else o) = o'
    have ho' : o'.Fit := by
      rw [← hcounters]
      split
      · exact { ho with column := Nat.two_pow_pos 32 }
      · exact ho
    obtain ⟨t', hread, htold, hfit⟩ := readSegment_segmentText hsources hnames ho' hts.1
    have hbelow : ∀ u ∈ ts, t.generated.line ≤ u.generated.line := by
      intro u hu
      have hbefore := hsorted.1 u hu
      simp only [Mapping.before, Position.le, Bool.or_eq_true, decide_eq_true_eq, Bool.and_eq_true,
        beq_iff_eq] at hbefore
      omega
    obtain ⟨ts', hrest, htolds⟩ := ih _ hfit hts.2 hbelow hsorted.2 (some t)
    refine ⟨t' :: ts', ?_, by rw [List.map_cons, List.map_cons, htold, htolds]⟩
    rw [List.append_assoc, readFrom_separator hlines.1, hcounters,
      readFrom_segment (segmentText_ne_nil _ _) (isDigit_segmentText _ _)
        (endsSegment_mappingsFrom _ _ _ _) hread, hrest]
    rfl

theorem refersIn_of_readSegment (h : readSegment sources names line o x = some (t, o')) :
    t.RefersIn sources names := by
  obtain ⟨numbers, -, h⟩ := Option.bind_eq_some_iff.mp h
  dsimp only at h
  split at h
  · cases h
    exact ⟨by simp, by simp, fun _ => rfl⟩
  · split at h
    · cases h
    next hsource =>
      split at h
      · cases h
        exact ⟨fun i hi => Option.some.inj hi ▸ Nat.not_le.mp hsource, by simp, fun _ => rfl⟩
      · split at h
        · cases h
        next hname =>
          cases h
          exact ⟨fun i hi => Option.some.inj hi ▸ Nat.not_le.mp hsource,
            fun i hi => Option.some.inj hi ▸ Nat.not_le.mp hname, by simp⟩
      · cases h
  · cases h

theorem refersIn_of_readLine {pieces : List (List Char)} {ts : List Mapping}
    (h : readLine sources names line o pieces = some (ts, o')) : ∀ t ∈ ts, t.RefersIn sources names := by
  induction pieces generalizing o ts with
  | nil =>
    cases h
    simp
  | cons x pieces ih =>
    by_cases hne : x = []
    · rw [hne, readLine] at h
      exact ih h
    · rw [readLine_cons hne] at h
      obtain ⟨⟨t, o₁⟩, ht, h⟩ := Option.bind_eq_some_iff.mp h
      obtain ⟨⟨ts, o₂⟩, hts, h⟩ := Option.map_eq_some_iff.mp h
      cases h
      exact List.forall_mem_cons.mpr ⟨refersIn_of_readSegment ht, ih hts⟩

theorem refersIn_of_readLines {lines : List (List Char)} {ts : List Mapping}
    (h : readLines sources names line o lines = some ts) : ∀ t ∈ ts, t.RefersIn sources names := by
  induction lines generalizing line o ts with
  | nil =>
    cases h
    simp
  | cons s lines ih =>
    obtain ⟨⟨ts₁, o₁⟩, hline, h⟩ := Option.bind_eq_some_iff.mp h
    obtain ⟨ts₂, hmore, h⟩ := Option.bind_eq_some_iff.mp h
    cases h
    exact List.forall_mem_append.mpr ⟨refersIn_of_readLine hline, ih hmore⟩

end SourceMap

end FlatBundle
