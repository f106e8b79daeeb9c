import FlatBundle.Proofs.Script.Ends
import FlatBundle.Proofs.Script.FormedProgram

/-!
Names, keys, patterns and parameters.
-/

namespace FlatBundle.Script

/-- The phrases that a reader may go through are laid out, an expression ends where it has been read to, and a
target is some text. -/
structure ReadsPhrases (source : List Char) (r : Recur) : Prop where
  forms : FormsPhrases r
  all : ∀ p, Reader.Reads source false (r p) Reader.alone
  ends : ∀ ctx, Reader.EndsOn source [] (r (.assignment ctx)) Reader.alone
  target : ∀ ctx, Reader.Reads source true (r (.bindingTarget ctx)) Reader.alone
  solid : ∀ ctx, Reader.Encloses source (fun _ => True) (r (.bindingTarget ctx)) Reader.nothing

open Reader

variable {source : List Char} {r : Recur} {ctx : Ctx}

/-- The text of a name is the word that stands here. -/
theorem word_of_nameText {s s' : State} {name : String} (h : nameText ctx s = some (name, s')) :
    s = s' ∧ ∃ keyword escaped, s.token.kind = .word keyword name escaped := by
  obtain ⟨kind, s₁, hkind, h⟩ := bind_eq_some h
  cases hkind
  cases hk : s.token.kind with
  | word keyword spelled escaped =>
    rw [hk] at h
    cases keyword with
    | none =>
      cases h
      exact ⟨rfl, none, escaped, rfl⟩
    | some k =>
      obtain ⟨_, s₂, hcheck, h⟩ := bind_eq_some h
      unfold check at hcheck
      split at hcheck <;> cases hcheck
      cases h
      exact ⟨rfl, some k, escaped, rfl⟩
  | _ =>
    rw [hk] at h
    cases h

/-- A name, as a node of some kind. -/
theorem reads_named {kind : String → Kind} (hk : ∀ name, (kind name).isSite)
    (hname : ∀ name, (kind name).name? = some name)
    (hi : ∀ name, Text.isIdentifierName name.toList → (kind name).DeclaresIdentifier) :
    Reads source true (do
      let start ← start
      let name ← nameText ctx
      advance
      node (kind name) start []) alone := by
  intro s n s' hs h
  obtain ⟨_, _, hstart, h⟩ := bind_eq_some h
  cases hstart
  obtain ⟨name, _, htext, h⟩ := bind_eq_some h
  obtain ⟨rfl, keyword, escaped, hword⟩ := word_of_nameText htext
  obtain ⟨u, s₁, hadvance, h⟩ := bind_eq_some h
  cases h
  have hidentifier : Text.isIdentifierName name.toList := by
    have hspells := hs.word
    rwa [hword] at hspells
  have hnames : Names source s.here s'.lastEnd name := by
    rw [passesOne_advance s u s' hs hadvance]
    exact hs.names hword
  exact (reads_advance s u s' hs hadvance).name (hk name) (hname name) (hi name hidentifier) hnames

theorem reads_reference : Reads source true (reference ctx) alone :=
  reads_named (fun _ => rfl) (fun _ => rfl) fun _ _ => trivial

theorem stops_reference : Stops (reference ctx) :=
  .bind fun _ => .bind fun _ => .bind fun _ => .node

theorem reads_bindingName : Reads source true (bindingName ctx) alone :=
  reads_named (fun _ => rfl) (fun _ => rfl) fun _ h => h

theorem reads_wordText : Reads source true wordText nothing := by
  refine .of_on fun _ => .look reads_tokenKind fun _ => ?_
  split
  · exact .move reads_advance fun _ => .pure rfl
  · exact .failure

theorem encloses_wordText : Encloses source (fun _ => True) wordText nothing := by
  intro s name s' hs _ h
  obtain ⟨kind, _, hkind, h⟩ := bind_eq_some h
  cases hkind
  cases hk : s.token.kind with
  | word =>
    rw [hk] at h
    obtain ⟨u, s₁, hadvance, h⟩ := bind_eq_some h
    cases h
    exact encloses_advance s u s' hs (by rw [hk]; rfl) hadvance
  | _ =>
    rw [hk] at h
    cases h

theorem reads_memberKey (hr : ReadsPhrases source r) :
    Reads source true (memberKey r ctx) Prod.snd := by
  refine .of_on fun _ => .look reads_tokenKind fun _ => ?_
  split
  · exact .move reads_advance fun _ => .pure rfl
  · exact .move reads_advance fun _ => .pure rfl
  · exact .move reads_advance fun _ => .pure rfl
  · exact .move reads_take fun _ => .read (hr.all _) fun _ =>
      .move reads_expectMark fun _ => .pure rfl
  · exact .failure

theorem reads_eatModifier {k : Keyword} {sameLine : Bool} :
    Reads source false (eatModifier k sameLine) nothing := by
  refine .of_on fun _ => .look reads_ahead fun follows => ?_
  cases follows with
  | false => exact .pure rfl
  | true => exact .move reads_take fun _ => .weaken (.pure rfl)

theorem reads_bindingElement (hr : ReadsPhrases source r) :
    Reads source true (bindingElement r ctx) alone := by
  refine .of_start fun _ => .gather (hr.target _) fun _ => .look reads_eatMark fun _ => ?_
  split
  · exact .read (hr.all _) fun _ => .node rfl rfl
  · exact .pure rfl

theorem reads_bindingRest {close : Mark} {target : Reader Node} {moved : Bool}
    (h : Reads source moved target alone) : Reads source true (bindingRest close target) alone :=
  .of_start fun _ => .move reads_take fun _ => .read h fun _ => .look reads_isMark fun _ =>
    .look reads_check fun _ => .node rfl rfl

theorem reads_arrayItem (hr : ReadsPhrases source r) :
    Reads source false (arrayItem r ctx) alone := by
  refine .of_on fun _ => .look reads_isMark fun _ => ?_
  split
  · exact .look reads_token fun _ => .pure rfl
  · refine .look reads_isMark fun _ => ?_
    split
    · exact .last (reads_bindingRest (hr.all _)).weaken
    · exact .last (reads_bindingElement hr).weaken

theorem reads_arrayPattern (hr : ReadsPhrases source r) :
    Reads source true (arrayPattern r ctx) alone :=
  .of_start fun _ => .move reads_take fun _ => .many (reads_commaList (reads_arrayItem hr)) fun _ =>
    .move reads_take fun _ => .node rfl rfl

theorem reads_shorthandMember (hr : ReadsPhrases source r) :
    Reads source true (shorthandMember r ctx) alone := by
  refine .of_start fun _ => .gather reads_bindingName fun _ => .look reads_eatMark fun _ => ?_
  split
  · refine .read (hr.all _) fun _ => ?_
    exact (ReadsOn.node rfl rfl).andThen fun _ => .node rfl rfl
  · exact .node rfl rfl

theorem reads_patternMember (hr : ReadsPhrases source r) :
    Reads source true (patternMember r ctx) alone := by
  refine .of_on fun _ => .look reads_isMark fun _ => ?_
  split
  · exact .last (reads_bindingRest reads_bindingName)
  · refine .look reads_tokenKind fun _ => .look reads_ahead fun _ => ?_
    split
    · exact .last (reads_shorthandMember hr)
    · exact .look reads_start fun _ => .gather (reads_memberKey hr) fun _ =>
        .move reads_expectMark fun _ => .read (reads_bindingElement hr) fun _ => .node rfl (by simp)

theorem reads_objectPattern (hr : ReadsPhrases source r) :
    Reads source true (objectPattern r ctx) alone :=
  .of_start fun _ => .move reads_take fun _ =>
    .many (reads_commaList (reads_patternMember hr)) fun _ => .move reads_take fun _ => .node rfl rfl

theorem reads_bindingTarget (hr : ReadsPhrases source r) :
    Reads source true (bindingTarget r ctx) alone := by
  refine .of_on fun _ => .look reads_tokenKind fun _ => ?_
  split
  · exact .last (reads_arrayPattern hr)
  · exact .last (reads_objectPattern hr)
  · exact .last reads_bindingName

theorem encloses_bindingName : Encloses source (fun _ => True) (bindingName ctx) nothing := by
  intro s n s' hs _ h
  obtain ⟨_, _, hstart, h⟩ := bind_eq_some h
  cases hstart
  obtain ⟨name, _, htext, h⟩ := bind_eq_some h
  obtain ⟨rfl, keyword, escaped, hword⟩ := word_of_nameText htext
  obtain ⟨u, s₁, hadvance, h⟩ := bind_eq_some h
  cases h
  exact encloses_advance s u s' hs (by rw [hword]; rfl) hadvance

/-- A target starts with a word, a bracket or a brace. -/
theorem encloses_bindingTarget (hr : ReadsPhrases source r) :
    Encloses source (fun _ => True) (bindingTarget r ctx) nothing := by
  have harray : Encloses source (·.isSolid) (arrayPattern r ctx) nothing :=
    .of_start fun _ => .andThen reads_take encloses_take fun _ => .forget <| .of_on fun _ =>
      .many (reads_commaList (reads_arrayItem hr)) fun _ => .move reads_take fun _ => .node rfl rfl
  have hobject : Encloses source (·.isSolid) (objectPattern r ctx) nothing :=
    .of_start fun _ => .andThen reads_take encloses_take fun _ => .forget <| .of_on fun _ =>
      .many (reads_commaList (reads_patternMember hr)) fun _ => .move reads_take fun _ => .node rfl rfl
  refine .atToken fun t => ?_
  split
  · exact harray.imp fun _ ht => ht ▸ rfl
  · exact hobject.imp fun _ ht => ht ▸ rfl
  · exact encloses_bindingName.imp fun _ _ => trivial

theorem reads_parameter (hr : ReadsPhrases source r) :
    Reads source true (parameter r ctx) alone := by
  refine .of_on fun _ => .look reads_isMark fun _ => ?_
  split
  · exact .last (reads_bindingRest (hr.all _))
  · exact .last (reads_bindingElement hr)

theorem reads_parameters (hr : ReadsPhrases source r) :
    Reads source true (parameters r ctx) alone :=
  .of_start fun _ => .move reads_expectMark fun _ =>
    .many (reads_commaList (reads_parameter hr)) fun _ => .move reads_take fun _ => .node rfl rfl

end FlatBundle.Script
