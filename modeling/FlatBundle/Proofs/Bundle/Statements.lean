import FlatBundle.Proofs.Bundle.Emission
import FlatBundle.Proofs.Script.LineEnd

/-!
The statements of a module, before and after its edits. Where a statement starts without a semicolon above
it, the first token of what is written there decides whether the one above ends.
-/

namespace FlatBundle

open Script (EndsAbove GapTo Place Span State)

variable {l : Linked} {m : ModuleFacts} {d : RequireDeclarator} {r : Reference} {e : Edit}
  {gone : List Span} {source name : String} {i : Nat}

theorem head?_escapeCommentEnd (s : List Char) : (escapeCommentEnd s).head? = s.head? := by
  unfold escapeCommentEnd
  split <;> rfl

/-- A comment with an escaped text in it ends where it is made to end. -/
theorem blockCommentEnd_escape (s rest : List Char) (offset : Nat) (broken : Bool) :
    ∃ stop broken', Script.blockCommentEnd (escapeCommentEnd s ++ ' ' :: '*' :: '/' :: rest) offset broken =
      some (⟨rest, stop⟩, broken') := by
  induction s using escapeCommentEnd.induct generalizing offset broken with
  | case1 s ih =>
    have hlater := ih (offset + '*'.utf8Size + '\\'.utf8Size + '/'.utf8Size)
      (broken || Script.isLineBreak '*' || Script.isLineBreak '\\' || Script.isLineBreak '/')
    simpa [escapeCommentEnd, Script.blockCommentEnd] using hlater
  | case2 c s hend ih =>
    obtain ⟨stop, broken', hlater⟩ := ih (offset + c.utf8Size) (broken || Script.isLineBreak c)
    refine ⟨stop, broken', ?_⟩
    rw [escapeCommentEnd.eq_2 _ _ hend, List.cons_append]
    have hhead : (escapeCommentEnd s ++ ' ' :: '*' :: '/' :: rest).head? = some '/' → s.head? = some '/' := by
      rw [List.head?_append, head?_escapeCommentEnd]
      cases s <;> simp
    rw [Script.blockCommentEnd.eq_3]
    · exact hlater
    · intro t hc ht
      have hs : s.head? = some '/' := hhead (by rw [ht]; rfl)
      obtain ⟨s', rfl⟩ := List.head?_eq_some_iff.mp hs
      exact hend s' hc rfl
  | case3 => exact ⟨_, _, rfl⟩

/-- What is left of a declaration of which every variable is gone: a comment and a semicolon. -/
def removedText (source : String) (declaration : Span) : String :=
  "/* removed: " ++ String.ofList (escapeCommentEnd (spanText source declaration).toList) ++ " */;"

/-- The semicolon ends a statement above it that has none. -/
theorem not_endsAbove_removedText (source : String) (declaration : Span) :
    ¬EndsAbove (removedText source declaration).toList := by
  intro h
  let comment := escapeCommentEnd (spanText source declaration).toList
  obtain ⟨stop, broken, hend⟩ := blockCommentEnd_escape (spanText source declaration).toList [';'] 12 false
  have htext : (removedText source declaration).toList ++ [] =
      "/* removed: ".toList ++ (comment ++ [' ', '*', '/', ';']) := by
    simp [removedText, comment]
  let p : Place := ⟨⟨.mark .semicolon, ⟨stop, stop + 1⟩, true⟩, [';'], []⟩
  have hp : Place.first? ⟨(removedText source declaration).toList ++ [], 0⟩ true = some p := by
    refine Place.first?_eq_some_iff.mpr ⟨stop, ?_, rfl, rfl⟩
    have hlater : GapTo ⟨[';'], stop⟩ (true || broken) ⟨[';'], stop⟩ true :=
      .token ⟨rfl, by simp, by simp; decide⟩
    refine .comment (s := " removed: ".toList ++ (comment ++ [' ', '*', '/', ';'])) ?_ ?_ hlater
    · rw [htext]
      rfl
    · exact hend
  let s : State := ⟨0, p.token, p.source, p.rest, 0, [], [], []⟩
  obtain ⟨-, hstatement⟩ := h [] p hp s 0 rfl
  have hnext : Script.Reader.statementEnd s =
      some ((), ⟨0, ⟨.ending, ⟨stop + 1, stop + 1⟩, false⟩, [], [], stop + 1, [], [], []⟩) := rfl
  rw [hnext] at hstatement
  have hsource := congrArg (fun r => r.map fun a => a.2.source) hstatement
  cases hsource

theorem declaratorEdit?_eq_some (h : declaratorEdit? source gone d = some e) :
    e = .replacing d.declaration (removedText source d.declaration) ∨ e.text = "" := by
  unfold declaratorEdit? at h
  dsimp only at h
  split at h
  · cases h
  · split at h
    · exact .inl (Option.some.inj h).symm
    · split at h
      · exact .inr (by rw [← Option.some.inj h])
      · exact .inr (by rw [← Option.some.inj h])

namespace Linked

theorem endsAbove_of_looksGenerated (h : LooksGenerated name) (rest : List Char) :
    EndsAbove (name.toList ++ rest) := by
  obtain ⟨more, rfl | rfl⟩ := h
  · rw [String.toList_append, List.append_assoc]
    exact Script.endsAbove_word (by decide) (by decide)
  · rw [String.toList_append, List.append_assoc]
    exact Script.endsAbove_word (by decide) (by decide)

/-- What becomes of a statement above the text of an edit that starts a line. -/
inductive LineStart (l : Linked) (i : Nat) (e : Edit) : Prop
  | ends (h : EndsAbove e.text.toList)
  /-- The first token is the one that has been there. -/
  | keeps {r : Reference} {name : String} (shorthand : r.shorthand = true)
    (h : e = renameOccurrence (l.facts i).record.source name r)
  | cut (h : e.text = "")
  /-- A semicolon takes the place of a declaration. -/
  | removed {call : RequireCall} {d : RequireDeclarator} {target : Nat}
    (inlines : l.Inlines i call d target)
    (h : e = .replacing d.declaration (removedText (l.facts i).record.source d.declaration))
  /-- The statement is taken for a function that is called with an object. -/
  | parens (h : e.text = "(\x7b\x7d)")

theorem endsAbove_or_renameOccurrence (h : EndsAbove name.toList) (r : Reference) :
    EndsAbove (renameOccurrence source name r).text.toList ∨
      ∃ r' name', r'.shorthand = true ∧ renameOccurrence source name r = renameOccurrence source name' r' := by
  cases hshort : r.shorthand with
  | true => exact .inr ⟨r, name, hshort, rfl⟩
  | false =>
    refine .inl ?_
    rw [renameOccurrence, hshort]
    exact h

theorem endsAbove_exportsTarget (h : LooksGenerated m.exportsName) :
    EndsAbove (exportsTarget m).toList := by
  unfold exportsTarget
  split
  · rw [String.toList_append]
    exact endsAbove_of_looksGenerated h _
  · simpa using endsAbove_of_looksGenerated h []

theorem endsAbove_exportsAccessText (h : LooksGenerated m.exportsName) :
    EndsAbove (exportsAccessText m).toList := by
  unfold exportsAccessText
  split
  · rw [String.toList_append]
    exact Script.endsAbove_word (by decide) (by decide)
  · exact endsAbove_exportsTarget h

theorem endsAbove_exportsOf {target : Nat} (h : LooksGenerated (l.facts target).exportsName) :
    EndsAbove (l.exportsOf target).toList := by
  unfold exportsOf
  dsimp only
  split
  · rw [String.toList_append]
    exact endsAbove_of_looksGenerated h _
  · simpa using endsAbove_of_looksGenerated h []

theorem lineStart_of_writesNoName (h : l.WritesNoName i e) :
    l.LineStart i e := by
  cases h with
  | typeofRequire =>
    have hquote : EndsAbove "\"function\"".toList := Script.endsAbove_quote
    exact .ends hquote
  | typeofModule =>
    have hquote : EndsAbove "\"object\"".toList := Script.endsAbove_quote
    exact .ends hquote
  | parent =>
    cases hentry : (l.facts i).record.entry with
    | true =>
      have hnull : EndsAbove "null".toList := Script.endsAbove_word (by decide) (by decide)
      refine .ends ?_
      rw [parentText, hentry]
      exact hnull
    | false =>
      refine .parens ?_
      rw [parentText, hentry]
      rfl
  | external =>
    refine .ends ?_
    rw [Edit.replacing, String.append_assoc, String.toList_append]
    exact Script.endsAbove_word (by decide) (by decide)
  | cut inlines removed =>
    rcases declaratorEdit?_eq_some removed with rfl | htext
    · exact .removed inlines rfl
    · exact .cut htext

theorem WritesNoName.of_parens (h : l.WritesNoName i e) (htext : e.text = "(\x7b\x7d)") :
    (l.facts i).record.entry = false ∧ ∃ r ∈ (l.facts i).uses.module, r.property? = some "parent" := by
  have hfirst : e.text.toList.head? = some '(' := by
    rw [htext]
    rfl
  cases h with
  | typeofRequire | typeofModule => exact absurd htext (by simp [Edit.replacing])
  | @parent r access eager use whole parent =>
    refine ⟨?_, r, use, ?_⟩
    · cases hentry : (l.facts i).record.entry with
      | false => rfl
      | true => simp [Edit.replacing, parentText, hentry] at htext
    · simp [Reference.property?, Reference.member?, whole, parent]
  | external => simp [Edit.replacing] at hfirst
  | cut inlines removed =>
    rcases declaratorEdit?_eq_some removed with rfl | hempty
    · simp [Edit.replacing, removedText] at hfirst
    · simp [hempty] at hfirst

section Build

variable {t : Table} {modules : List ModuleFacts} (hm : scanModules t = .ok modules) (hi : i < t.size)
include hm hi

theorem endsAbove_or_of_writes {at_ : Nat} (h : (ofModules t modules).Writes i at_ name e) :
    EndsAbove e.text.toList ∨ ∃ r name, r.shorthand = true ∧
      e = renameOccurrence ((ofModules t modules).facts i).record.source name r := by
  have hown := looksGenerated_exportsName hm hi
  have hplain {name : String} (hname : LooksGenerated name) : EndsAbove name.toList := by
    simpa using endsAbove_of_looksGenerated hname []
  cases h with
  | exports => exact endsAbove_or_renameOccurrence (endsAbove_exportsTarget hown) _
  | moduleExports => exact .inl (endsAbove_exportsAccessText hown)
  | module _ _ named =>
    rw [named]
    exact endsAbove_or_renameOccurrence (hplain hown) _
  | changed => exact endsAbove_or_renameOccurrence (hplain ⟨_, .inr (changedName_eq _ _)⟩) _
  | call _ _ _ needed =>
    have htarget := looksGenerated_exportsName hm (lt_size_of_requirement hm hi needed)
    exact .inl (endsAbove_exportsOf htarget)
  | inlined inlines =>
    have htarget := looksGenerated_exportsName hm (lt_size_of_requirement hm hi inlines.1)
    exact endsAbove_or_renameOccurrence (hplain htarget) _

theorem lineStart_of_mem_moduleEdits (he : e ∈ moduleEdits (ofModules t modules) i) :
    (ofModules t modules).LineStart i e := by
  rcases writes_of_mem_moduleEdits hm hi he with ⟨_, _, hwrites⟩ | hwrites
  · rcases endsAbove_or_of_writes hm hi hwrites with hends | ⟨r, name, hshort, hedit⟩
    · exact .ends hends
    · exact .keeps hshort hedit
  · exact lineStart_of_writesNoName hwrites

/-- Only the parent of a module that is no entry becomes an object in parentheses. -/
theorem exists_parens_iff (heager : (ofModules t modules).isOnDemand i = false) :
    (∃ e ∈ moduleEdits (ofModules t modules) i, e.text = "(\x7b\x7d)") ↔
      ((ofModules t modules).facts i).record.entry = false ∧
        ∃ r ∈ ((ofModules t modules).facts i).uses.module, r.property? = some "parent" := by
  constructor
  · rintro ⟨e, he, htext⟩
    rcases writes_of_mem_moduleEdits hm hi he with ⟨_, _, hwrites⟩ | hwrites
    · exfalso
      rcases endsAbove_or_of_writes hm hi hwrites with hends | ⟨r, name, hshort, rfl⟩
      · exact Script.not_endsAbove_parens (htext ▸ hends)
      · have hcolon : ':' ∈ "(\x7b\x7d)".toList := by
          rw [← htext, renameOccurrence_eq, hshort]
          simp [Edit.replacing]
        exact absurd hcolon (by decide)
    · exact hwrites.of_parens htext
  · rintro ⟨hentry, r, hr, hparent⟩
    obtain ⟨access, hmember, hproperty⟩ := Option.bind_eq_some_iff.mp hparent
    have hedit : moduleEdit ((ofModules t modules).facts i) r = .replacing access.span "(\x7b\x7d)" := by
      rw [moduleEdit, usage_of_member? hmember]
      simp [hproperty, hentry]
    refine ⟨_, ?_, congrArg Edit.text hedit⟩
    have hown : moduleEdit ((ofModules t modules).facts i) r ∈
        ((ofModules t modules).facts i).uses.module.map (moduleEdit ((ofModules t modules).facts i)) :=
      List.mem_map_of_mem hr
    refine List.mem_append_left _ (List.mem_append_right _ ?_)
    rw [heager, if_neg (by simp)]
    exact List.mem_append_left _ (List.mem_append_right _ hown)

theorem endsAbove_outro (names : LoaderNames) {rest : String}
    (heager : (ofModules t modules).isOnDemand i = false)
    (h : (moduleFrame (ofModules t modules) names i).2 = "\n" ++ rest) : EndsAbove rest.toList := by
  have hown := looksGenerated_exportsName hm hi
  have hempty : "" ≠ "\n" ++ rest := fun heq => by simp [← String.toList_inj] at heq
  unfold moduleFrame at h
  dsimp only at h
  rw [heager, if_neg (by simp)] at h
  split at h
  · have hchars := congrArg String.toList h
    simp only [String.toList_append, List.append_assoc] at hchars
    rw [← List.append_cancel_left hchars]
    exact endsAbove_of_looksGenerated hown _
  · split at h
    · exact absurd h hempty
    · exact absurd h hempty

/-- A statement above what an edit writes ends there, except where a name becomes an object in parentheses,
which is just the parent of a module that is no entry, or where a declaration leaves its semicolon. -/
theorem lineStart_cases (names : LoaderNames) (heager : (ofModules t modules).isOnDemand i = false) :
    let l := ofModules t modules
    (∀ e ∈ moduleEdits l i, l.LineStart i e) ∧
    (∀ rest, (moduleFrame l names i).2 = "\n" ++ rest → EndsAbove rest.toList) ∧
    (∀ source declaration, ¬EndsAbove (removedText source declaration).toList) ∧
    ¬EndsAbove "(\x7b\x7d)".toList ∧
    ((∃ e ∈ moduleEdits l i, e.text = "(\x7b\x7d)") ↔
      (l.facts i).record.entry = false ∧ ∃ r ∈ (l.facts i).uses.module, r.property? = some "parent") :=
  ⟨fun _ he => lineStart_of_mem_moduleEdits hm hi he, fun _ h => endsAbove_outro hm hi names heager h,
    not_endsAbove_removedText, Script.not_endsAbove_parens, exists_parens_iff hm hi heager⟩

end Build

/-- A call of what the parent of a module has, after a line that ends without a semicolon. -/
def callOfParent : List Record := [{ id := .number 1, source := "f\nmodule.parent.g();" }]

theorem lineStart_cases_callOfParent :
    ∃ t modules, Table.ofRecords callOfParent = .ok t ∧ scanModules t = .ok modules ∧
      (ofModules t modules).isOnDemand 0 = false ∧
      ∃ e ∈ moduleEdits (ofModules t modules) 0, e.text = "(\x7b\x7d)" ∧ ¬EndsAbove e.text.toList := by
  let t : Table := ⟨callOfParent⟩
  have ht : Table.ofRecords callOfParent = .ok t := Table.ofRecords_eq_ok_iff.mpr ⟨by decide, rfl⟩
  obtain ⟨modules, hm, heager, hentry, r, hr, hparent⟩ :
      ∃ modules ∈ (scanModules t).toOption, let l := ofModules t modules
        l.isOnDemand 0 = false ∧ (l.facts 0).record.entry = false ∧
          ∃ r ∈ (l.facts 0).uses.module, r.property? = some "parent" := by
    decide +kernel
  have hm := mem_toOption_scanModules.mp hm
  obtain ⟨-, -, -, hparens, hiff⟩ :=
    lineStart_cases hm (by decide : 0 < t.size) (LoaderNames.ofModules modules) heager
  obtain ⟨e, he, htext⟩ := hiff.mpr ⟨hentry, r, hr, hparent⟩
  exact ⟨t, modules, ht, hm, heager, e, he, htext, htext ▸ hparens⟩

/-- How many statements the frame of a module adds. -/
def frameStatements (l : Linked) (names : LoaderNames) (i : Nat) : Nat :=
  (if (moduleFrame l names i).1.isEmpty then 0 else 1) + if (moduleFrame l names i).2.isEmpty then 0 else 1

/-- A module in its place has the directives and statements of its source and those of its frame. -/
def KeepsStatements (options : Options) (l : Linked) (names : LoaderNames) (i : Nat) : Prop :=
  ∀ piece, placeModule options l names i = .ok piece →
    ∀ p q, Script.Program.parse? (l.facts i).record.source = some p →
      Script.Program.parse? piece.code = some q →
        q.tree.children.length = p.tree.children.length + l.frameStatements names i

theorem not_keepsStatements :
    ¬∀ (options : Options) (records : List Record) (t : Table) (modules : List ModuleFacts),
      Table.ofRecords records = .ok t → scanModules t = .ok modules →
        ∀ i < t.size, (ofModules t modules).isOnDemand i = false →
          KeepsStatements options (ofModules t modules) (LoaderNames.ofModules modules) i := by
  intro h
  let t : Table := ⟨callOfParent⟩
  have ht : Table.ofRecords callOfParent = .ok t := Table.ofRecords_eq_ok_iff.mpr ⟨by decide, rfl⟩
  obtain ⟨modules, hm, htop, heager, e, -, hedits, hfits, p, hp, q, hq, hcount⟩ :
      ∃ modules ∈ (scanModules t).toOption, let l := ofModules t modules
        l.topLevelNames 0 = [] ∧ l.isOnDemand 0 = false ∧
        ∃ e ∈ plainEdits l 0, plainEdits l 0 = [e] ∧ e.fits (l.facts 0).record.source.toList ∧
          ∃ p ∈ Script.Program.parse? (l.facts 0).record.source,
            ∃ q ∈ Script.Program.parse? (placedText l (LoaderNames.ofModules modules) 0 [e]),
              q.tree.children.length ≠
                p.tree.children.length + l.frameStatements (LoaderNames.ofModules modules) 0 := by
    decide +kernel
  have hm := mem_toOption_scanModules.mp hm
  have hresolved : resolveEdits ((ofModules t modules).facts 0).record.source.toList
      (placedEdits {} (ofModules t modules) 0) = .ok [e] := by
    rw [placedEdits_eq_plainEdits hm (by decide) rfl htop, hedits, resolveEdits_singleton hfits]
  exact hcount (h {} _ t modules ht hm 0 (by decide) heager _ (placeModule_of_resolved _ rfl hresolved)
    p q hp hq)

end Linked

end FlatBundle
