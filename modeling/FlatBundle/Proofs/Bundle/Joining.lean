import FlatBundle.Proofs.Bundle.Emission
import FlatBundle.Proofs.Script.LineEnd

/-!
A module and the one below it. A line break goes between them, and nothing that ends a statement: what
stands below is read as if it stood alone, token by token, but its first token may go on with the last
statement above.
-/

namespace FlatBundle

open Script (EndsOperand Place State Tokens)

variable {options : Options} {l : Linked} {names : LoaderNames} {piece : Piece} {i : Nat}

/-- Whether a module starts with the declaration of its variable. Where its only export takes the place of
that, it starts as its source does. -/
def declaresFirst (l : Linked) (i : Nat) : Bool :=
  l.isOnDemand i || !(l.facts i).isSimpleExport

theorem intro_of_declaresFirst (h : declaresFirst l i = true) :
    ∃ rest, (moduleFrame l names i).1 = "var " ++ rest := by
  unfold declaresFirst at h
  unfold moduleFrame
  dsimp only
  split
  next =>
    simp only [String.append_assoc]
    exact ⟨_, rfl⟩
  next hdemand =>
    split
    next =>
      simp only [String.append_assoc]
      exact ⟨_, rfl⟩
    next =>
      split
      next hsimple => simp [hdemand, hsimple] at h
      next =>
        simp only [String.append_assoc]
        exact ⟨_, rfl⟩

theorem code_of_declaresFirst (h : declaresFirst l i = true)
    (hpiece : placeModule options l names i = .ok piece) : ∃ rest, piece.code = "var " ++ rest := by
  obtain ⟨edits, -, hcode⟩ := code_of_placeModule hpiece
  obtain ⟨rest, hintro⟩ : ∃ rest, (moduleFrame l names i).1 = "var " ++ rest := intro_of_declaresFirst h
  refine ⟨rest ++ editedText (l.facts i).record.source edits ++ (moduleFrame l names i).2, ?_⟩
  rw [hcode, placedText, hintro]
  simp only [String.append_assoc]

/-- What the place at the start of the lower one of two texts is read as below the upper one. -/
structure JoinedAt (above below : String) (q : Place) : Prop where
  /-- The lower text alone starts there, on a line of its own. -/
  start : Place.start? below.toList = some q
  onNewLine : q.token.onNewLine = true
  /-- The tokens of the upper text lead to this very place, farther on, and those of the lower follow. -/
  tokens : ∃ ts us k, Tokens above.toList ts ∧ Tokens below.toList us ∧
    (∃ p, Place.start? (above ++ "\n" ++ below).toList = some p ∧ p.Trail ts (q.movedBy k)) ∧
    Tokens (above ++ "\n" ++ below).toList (ts ++ us.map (·.movedBy k))
  /-- Whatever is an operand or a statement above ends there, unless the token is one that goes on. -/
  ends : q.token.kind.continuesOperand = false → ∀ (s : State) k, s.place = q.movedBy k →
    EndsOperand s ∧ (q.token.kind ≠ .mark .semicolon → Script.Reader.statementEnd s = some ((), s))

/-- Two scripts, one below the other, are read as the tokens of both. -/
theorem exists_joinedAt_of_parse {above below : String} (habove : (Script.Program.parse? above).isSome)
    (hbelow : (Script.Program.parse? below).isSome) : ∃ q, Place.start? below.toList = some q ∧
      ((∀ rest, below ≠ "#!" ++ rest) → JoinedAt above below q) := by
  obtain ⟨p, hp⟩ := Option.isSome_iff_exists.mp habove
  obtain ⟨p', hp'⟩ := Option.isSome_iff_exists.mp hbelow
  obtain ⟨ts, hts⟩ := Script.exists_tokens hp
  obtain ⟨us, hus⟩ := Script.exists_tokens hp'
  obtain ⟨q, -, hq, -, -⟩ := id hus
  refine ⟨q, hq, fun hhash => ?_⟩
  have hline : q.token.onNewLine = true := by
    obtain ⟨_, hgap, -, -⟩ := Place.first?_eq_some_iff.mp hq
    exact Script.onNewLine_of_gapTo hgap rfl
  have hhash' : ∀ t, below.toList ≠ '#' :: '!' :: t := by
    intro t ht
    refine hhash (String.ofList t) (String.toList_inj.mp ?_)
    simp [ht]
  have hjoined : (above ++ "\n" ++ below).toList = above.toList ++ '\n' :: below.toList := by
    simp
  obtain ⟨p, k, hp, htrail, htokens⟩ := hts.join hq hhash'
  rw [← hjoined] at hp htokens
  have hfirst : Place.first? ⟨below.toList, 0⟩ true = some q := by
    rw [← Script.hashLine.eq_2 _ hhash', ← hq, Place.start?]
  exact ⟨hq, hline, ⟨ts, us, k, hts, hus, ⟨p, hp, htrail⟩, htokens us hus⟩,
    fun hcontinues s k hs => Place.endsAbove hfirst hcontinues hs⟩

/-- Of two modules one below the other, the lower one is read from a line of its own on as if it stood
alone. It goes on with nothing above if it declares its variable first. -/
theorem exists_joinedAt {pieces : List Piece} (hpieces : placeModules options l names = .ok pieces)
    {p q : Piece} (hnext : [p, q] <:+: pieces) (hp : (Script.Program.parse? p.code).isSome)
    (hq : (Script.Program.parse? q.code).isSome) :
    ∃ i ∈ l.order, placeModule options l names i = .ok q ∧
      ∃ first, Place.start? q.code.toList = some first ∧
        ((∀ rest, q.code ≠ "#!" ++ rest) → JoinedAt p.code q.code first) ∧
        (declaresFirst l i = true → JoinedAt p.code q.code first ∧
          first.token.kind.continuesOperand = false ∧ first.token.kind ≠ .mark .semicolon) := by
  obtain ⟨i, hi, hpiece⟩ : ∃ i ∈ l.order, placeModule options l names i = .ok q := by
    rw [placeModules_eq, allResults_eq_ok_iff] at hpieces
    have hmem : .ok q ∈ pieces.map (Except.ok (ε := BuildError)) :=
      List.mem_map_of_mem (hnext.subset (by simp))
    rw [← hpieces] at hmem
    obtain ⟨i, hi, hok⟩ := List.mem_map.mp hmem
    cases hplaced : placeModule options l names i with
    | error error =>
      rw [hplaced] at hok
      cases hok
    | ok piece =>
      rw [hplaced] at hok
      cases hok
      exact ⟨i, hi, hplaced⟩
  obtain ⟨first, hfirst, hjoined⟩ := exists_joinedAt_of_parse hp hq
  refine ⟨i, hi, hpiece, first, hfirst, hjoined, fun hdeclares => ?_⟩
  obtain ⟨rest, hcode⟩ := code_of_declaresFirst hdeclares hpiece
  refine ⟨hjoined fun rest' heq => ?_, ?_⟩
  · rw [hcode] at heq
    simp [← String.toList_inj] at heq
  · rw [hcode, String.toList_append] at hfirst
    obtain ⟨_, _, _, hkind, hcontinues⟩ := Place.word_of_first? (by decide) (by decide) hfirst
    exact ⟨hcontinues, by simp [hkind]⟩

/-- The texts of the directives and statements of a script. -/
def Script.Program.items (p : Program) (source : String) : List String :=
  p.tree.children.map fun n => spanText source n.span

/-- Two scripts, one below the other, are a script with the directives and statements of both. -/
def JoinApart (above below : String) : Prop :=
  ∀ p q, Script.Program.parse? above = some p → Script.Program.parse? below = some q →
    ∃ r, Script.Program.parse? (above ++ "\n" ++ below) = some r ∧
      r.items (above ++ "\n" ++ below) = p.items above ++ q.items below

/-- A module that ends without a semicolon, before one that starts with a parenthesis. -/
def callBelowCall : List Record := [
  { id := .number 1, source := "f()" },
  { id := .number 2, source := "(function () \x7b\x7d)();\nmodule.exports = 5;" }]

/-- The modules in their places. -/
theorem exists_callBelowCall : ∃ t modules, Table.ofRecords callBelowCall = .ok t ∧
    scanModules t = .ok modules ∧
    placeModules {} (.ofModules t modules) (LoaderNames.ofModules modules) =
      .ok [{ code := "var _$module_1 = \x7b\x7d;\nf()" },
        { code := "(function () \x7b\x7d)();\nvar _$module_2 = 5;" }] := by
  let t : Table := ⟨callBelowCall⟩
  have ht : Table.ofRecords callBelowCall = .ok t := Table.ofRecords_eq_ok_iff.mpr ⟨by decide, rfl⟩
  obtain ⟨modules, hm, hcalls, ⟨heager, heager'⟩, ⟨htop, hnone, habove⟩, htop', e, -, hedits, hfits, hbelow⟩ :
      ∃ modules ∈ (scanModules t).toOption, let l := Linked.ofModules t modules
        let names := LoaderNames.ofModules modules
        (∀ m ∈ modules, m.requirements.isEmpty) ∧ (l.isOnDemand 0 = false ∧ l.isOnDemand 1 = false) ∧
        (l.topLevelNames 0 = [] ∧ plainEdits l 0 = [] ∧
          placedText l names 0 [] = "var _$module_1 = \x7b\x7d;\nf()") ∧
        l.topLevelNames 1 = [] ∧
        ∃ e ∈ plainEdits l 1, plainEdits l 1 = [e] ∧ e.fits (l.facts 1).record.source.toList ∧
          placedText l names 1 [e] = "(function () \x7b\x7d)();\nvar _$module_2 = 5;" := by
    decide +kernel
  have hm := mem_toOption_scanModules.mp hm
  let l := Linked.ofModules t modules
  let names := LoaderNames.ofModules modules
  have hsorted : (t.sorted fun _ _ => none) = [0, 1] := by cbv
  have horder : l.order = [0, 1] := by
    have hplace := callPlace_of_no_calls fun m hm' => List.isEmpty_iff.mp (hcalls m hm')
    rw [Linked.order_ofModules, hplace, hsorted]
    simp [heager, heager']
  have hresolved : resolveEdits (l.facts 0).record.source.toList (placedEdits {} l 0) = .ok [] := by
    rw [placedEdits_eq_plainEdits hm (by decide) rfl htop, hnone, resolveEdits_nil]
  have hresolved' : resolveEdits (l.facts 1).record.source.toList (placedEdits {} l 1) = .ok [e] := by
    rw [placedEdits_eq_plainEdits hm (by decide) rfl htop', hedits, resolveEdits_singleton hfits]
  refine ⟨t, modules, ht, hm, ?_⟩
  rw [placeModules_eq, horder, List.map_cons, List.map_singleton,
    placeModule_of_resolved _ rfl hresolved, placeModule_of_resolved _ rfl hresolved', habove, hbelow]
  rfl

theorem exists_joinedAt_callBelowCall :
    ∃ first, JoinedAt "var _$module_1 = \x7b\x7d;\nf()"
      "(function () \x7b\x7d)();\nvar _$module_2 = 5;" first := by
  obtain ⟨t, modules, -, -, hpieces⟩ := exists_callBelowCall
  obtain ⟨i, -, -, first, -, hjoined, -⟩ :=
    exists_joinedAt hpieces (List.infix_refl _) (by decide +kernel) (by decide +kernel)
  exact ⟨first, hjoined fun rest heq => by simp [← String.toList_inj] at heq⟩

theorem not_joinApart :
    ¬∀ (options : Options) (records : List Record) (t : Table) (modules : List ModuleFacts),
      Table.ofRecords records = .ok t → scanModules t = .ok modules →
        ∀ pieces, placeModules options (.ofModules t modules) (LoaderNames.ofModules modules) = .ok pieces →
          ∀ p q, [p, q] <:+: pieces → JoinApart p.code q.code := by
  intro h
  obtain ⟨t, modules, ht, hm, hpieces⟩ := exists_callBelowCall
  have hapart := h {} callBelowCall t modules ht hm _ hpieces _ _ (List.infix_refl _)
  let joined := "var _$module_1 = \x7b\x7d;\nf()\n(function () \x7b\x7d)();\nvar _$module_2 = 5;"
  have hjoined : "var _$module_1 = \x7b\x7d;\nf()" ++ "\n" ++
      "(function () \x7b\x7d)();\nvar _$module_2 = 5;" = joined := by decide +kernel
  obtain ⟨p, hp, q, hq, hitems⟩ : ∃ p ∈ Script.Program.parse? "var _$module_1 = \x7b\x7d;\nf()",
      ∃ q ∈ Script.Program.parse? "(function () \x7b\x7d)();\nvar _$module_2 = 5;",
        ∀ r ∈ Script.Program.parse? joined, r.items joined ≠
          p.items "var _$module_1 = \x7b\x7d;\nf()" ++
            q.items "(function () \x7b\x7d)();\nvar _$module_2 = 5;" := by
    decide +kernel
  rw [← hjoined] at hitems
  obtain ⟨r, hr, heq⟩ := hapart p q hp hq
  exact hitems r hr heq

end FlatBundle
