import FlatBundle.Proofs.Script.Statement
import FlatBundle.Script.Program

/-!
Imports, exports, and whole scripts: the sites of a script that has been read are laid out in its text,
clear of its comments.
-/

namespace FlatBundle.Script

open Reader

variable {source : List Char} {r : Recur} {ctx : Ctx} {s₀ : State} {moved : Bool} {start : Nat}

theorem reads_exportName {name : String} : Reads source false (exportName name) nothing := by
  intro s a s' hs hr
  obtain ⟨_, _, hget, hr⟩ := bind_eq_some hr
  cases hget
  obtain ⟨_, s₁, hcheck, hr⟩ := bind_eq_some hr
  cases hr
  exact .stay hs ⟨rfl, rfl, rfl, rfl, rfl⟩

theorem reads_moduleName : Reads source true moduleName nothing := by
  refine .of_on fun _ => .look reads_tokenKind fun _ => ?_
  split
  · exact .move reads_take fun _ => .pure rfl
  · exact .last reads_wordText

theorem reads_stringToken : Reads source true stringToken nothing := by
  refine .of_on fun _ => .look reads_tokenKind fun _ => ?_
  split
  · exact .last reads_take
  · exact .failure

theorem reads_attributes : Reads source false attributes nothing := by
  refine .of_on fun _ => .look reads_eatWord fun _ => .ite ?_ (.pure rfl)
  refine .move reads_expectMark fun _ => .many (@reads_commaList source true _ _ ?_) fun _ =>
    .weaken (.forget (.tail reads_take))
  exact .of_start fun _ => .move reads_moduleName fun _ => .move reads_expectMark fun _ =>
    .move reads_stringToken fun _ => .node rfl rfl

theorem reads_fromModule : Reads source true fromModule nothing :=
  .of_on fun _ => .move reads_stringToken fun _ => .look reads_attributes fun _ =>
    .last reads_statementEnd

theorem reads_importSpecifier : Reads source true importSpecifier alone := by
  refine .of_on fun s₀ => .look reads_ahead fun _ => ?_
  extract_lets rest
  have hrest : ∀ {moved} u, ReadsOn source moved s₀ [] (rest u) true alone := fun _ =>
    .tail reads_bindingName
  exact .ite (.move reads_moduleName fun _ => .move reads_take hrest) (hrest ())

theorem reads_importNames : Reads source true importNames id := by
  refine .of_on fun _ => .look reads_eatMark fun _ => .ite ?_ ?_
  · exact .move reads_expectWord fun _ => .read reads_bindingName fun _ => .pure rfl
  · exact .move reads_expectMark fun _ => .many (reads_commaList reads_importSpecifier) fun _ =>
      .move reads_take fun _ => .pure rfl

theorem reads_importClause : Reads source true importClause id := by
  refine .of_on fun _ => .look reads_tokenKind fun _ => .ite ?_ (.last reads_importNames)
  refine .gather reads_bindingName fun _ => .look reads_eatMark fun _ => .ite ?_ (.pure rfl)
  exact .many reads_importNames.weaken fun _ => .pure rfl

theorem reads_importPhaseFollows : Reads source false importPhaseFollows nothing :=
  reads_ahead

theorem reads_importDeclaration : Reads source true importDeclaration alone := by
  refine .of_start fun s₀ => .move reads_take fun _ => .look reads_tokenKind fun _ => ?_
  split
  · exact .move reads_fromModule fun _ => .node rfl rfl
  · refine .look reads_importPhaseFollows fun _ => ?_
    extract_lets rest
    have hrest : ∀ u, ReadsOn source true s₀ [] (rest u) true alone := fun _ =>
      .many reads_importClause.weaken fun _ => .move reads_expectWord fun _ =>
        .move reads_fromModule fun _ => .node rfl rfl
    exact .ite (.move reads_take hrest) (hrest ())

theorem passesOne_moduleName : PassesOne source moduleName := by
  refine .look tokenKind_same fun _ => ?_
  split
  · exact .map passesOne_take
  · refine .look tokenKind_same fun _ => ?_
    split
    · exact .map passesOne_advance
    · exact fun _ _ _ _ hr => nomatch hr

/-- A name that may be a reference is the word that stands here. -/
theorem word_of_moduleName {s s' : State} {name : String} (h : moduleName s = some (name, s'))
    (hname : s.token.kind.isName) : ∃ k escaped, s.token.kind = .word k name escaped := by
  obtain ⟨kind, _, hkind, h⟩ := bind_eq_some h
  cases hkind
  cases hk : s.token.kind with
  | word k spelled escaped =>
    rw [hk] at h
    obtain ⟨_, _, htext, h⟩ := bind_eq_some h
    cases htext
    rw [hk] at h
    obtain ⟨_, _, -, h⟩ := bind_eq_some h
    cases h
    exact ⟨k, escaped, rfl⟩
  | _ =>
    rw [hk] at hname
    cases hname

/-- The references in an export list. What is spelled like no reference is another module's. -/
def exportedReferences (items : List (Node × Bool × String)) : List Node :=
  items.filterMap fun (n, isReference, _) => if isReference then some n else none

theorem exportedReferences_eq {items : List (Node × Bool × String)}
    (h : items.all fun (_, isReference, _) => isReference) :
    exportedReferences items = items.map (·.1) := by
  induction items with
  | nil => rfl
  | cons item items ih =>
    obtain ⟨hitem, hitems⟩ := Bool.and_eq_true_iff.mp h
    rw [List.map_cons, ← ih hitems]
    simp [exportedReferences, hitem]

/-- The name is the first token, which stays clear of what follows it. -/
theorem reads_exportSpecifier :
    Reads source true exportSpecifier fun item => exportedReferences [item] := by
  intro s item s' hs hr
  obtain ⟨_, _, htoken, hr⟩ := bind_eq_some hr
  cases htoken
  obtain ⟨name, s₁, hname, hr⟩ := bind_eq_some hr
  let n := Node.mk (.reference name) s.token.span []
  let ns := exportedReferences [(n, s.token.kind.isName, name)]
  have hp : Passed source true s ns s₁ := by
    have hpassed := reads_moduleName s name s₁ hs hname
    cases hkind : s.token.kind.isName with
    | false => simpa [ns, exportedReferences, hkind] using hpassed
    | true =>
      have hend := passesOne_moduleName s name s₁ hs hname
      obtain ⟨_, _, hword⟩ := word_of_moduleName hname hkind
      have hp : Passed source true s [.mk (.reference name) ⟨s.here, s₁.lastEnd⟩ []] s₁ := by
        refine hpassed.name rfl rfl trivial ?_
        rw [hend]
        exact hs.names hword
      rw [hend] at hp
      have hns : ns = [n] := by simp [ns, exportedReferences, hkind]
      rwa [hns]
  have hrest : ReadsOn source true s ns (do
      let exported ← if ← eatWord .asWord then moduleName else pure name
      return (n, s.token.kind.isName, exported)) true fun item => exportedReferences [item] :=
    .look reads_eatWord fun _ => .ite (.move reads_moduleName fun _ => .pure rfl) (.given (.pure rfl))
  exact hrest s₁ item s' hp hr

theorem reads_exportSpecifiers : Reads source false exportSpecifiers exportedReferences := by
  refine .loop (fun items => exportedReferences items.reverse) _ (fun s₀ items => ?_) rfl
  refine .look reads_eatMark fun _ => .ite (.pure rfl) ?_
  refine .many reads_exportSpecifier.weaken fun item => .look reads_isMark fun _ => ?_
  extract_lets rest
  have hlonger : exportedReferences (item :: items).reverse =
      exportedReferences items.reverse ++ exportedReferences [item] := by
    rw [List.reverse_cons]
    exact List.filterMap_append
  have hrest : ∀ {moved} u, ReadsOn source moved s₀
      (exportedReferences items.reverse ++ exportedReferences [item]) (rest u) false
      (roundNodes (fun items => exportedReferences items.reverse) exportedReferences) :=
    fun _ => .weaken (.pure (congrArg sitesOf hlonger))
  exact .ite (.move reads_expectMark hrest) (hrest ())

theorem reads_exportList : Reads source true (exportList start) alone := by
  refine .of_on fun _ => .move reads_take fun _ => .many reads_exportSpecifiers fun items =>
    .look (reads_forM fun _ => reads_exportName) fun _ => .look reads_eatWord fun _ => .ite ?_ ?_
  · exact .forget (.move reads_fromModule fun _ => .node rfl rfl)
  · refine .check fun hall => .look reads_statementEnd fun _ => ?_
    rw [exportedReferences_eq hall]
    exact .node rfl rfl

theorem reads_exportAll : Reads source true (exportAll start) alone := by
  refine .of_on fun s₀ => .move reads_take fun _ => .look reads_eatWord fun _ => ?_
  extract_lets rest
  have hrest : ∀ u, ReadsOn source true s₀ [] (rest u) true alone := fun _ =>
    .move reads_expectWord fun _ => .move reads_fromModule fun _ => .node rfl rfl
  exact .ite (.move reads_moduleName fun _ => .look reads_exportName hrest) (hrest ())

theorem readsOn_exportedClass (hr : ReadsPhrases source r) {decorated : List Node}
    {required : Bool} :
    ReadsOn source moved s₀ decorated (exportedClass r ctx decorated required) true alone :=
  .look reads_start fun _ => .many (reads_decorators hr) fun _ => .look reads_check fun _ =>
    reads_classFrom hr

theorem reads_exportDefault (hr : ReadsPhrases source r) :
    Reads source true (exportDefault r ctx start) alone := by
  refine .of_on fun _ => .move reads_take fun _ => .look reads_exportName fun _ =>
    .look reads_atFunction fun _ => .ite ?_ (.look reads_isWord fun _ => .look reads_isMark fun _ =>
      .ite ?_ ?_)
  · exact .read (reads_function hr) fun _ => .node rfl rfl
  · exact .andThen (readsOn_exportedClass hr) fun _ => .node rfl rfl
  · exact .read (hr.all _) fun _ => .look reads_statementEnd fun _ => .node rfl rfl

theorem reads_exportDeclaration (hr : ReadsPhrases source r) :
    Reads source true (exportDeclaration r ctx) alone := by
  refine .of_on fun s₀ => .look reads_start fun _ => .move reads_take fun _ =>
    .look reads_tokenKind fun _ => ?_
  split
  · exact .tail reads_exportList
  · exact .tail reads_exportAll
  · exact .tail (reads_exportDefault hr)
  · refine .look reads_atFunction fun _ => ?_
    extract_lets rest
    have hrest : ∀ item, ReadsOn source true s₀ ([] ++ [item]) (rest item) true alone := fun item =>
      .look (reads_forM fun _ => reads_exportName) fun _ => .node rfl rfl
    refine .look reads_isWord fun _ => .look reads_isMark fun _ =>
      .ite (.read (reads_function hr) hrest) (.ite ?_ (.read (reads_variableStatement hr) hrest))
    exact .andThen (readsOn_exportedClass hr) hrest

theorem readsOn_decoratedExport (hr : ReadsPhrases source r) {decorated : List Node} :
    ReadsOn source moved s₀ decorated (decoratedExport r ctx decorated) true alone :=
  .look reads_start fun _ => .move reads_take fun _ => .look reads_eatWord fun _ =>
    .andThen (readsOn_exportedClass hr) fun _ => .look (reads_forM fun _ => reads_exportName) fun _ =>
      .node rfl rfl

theorem reads_decoratedClass (hr : ReadsPhrases source r) {isAlone : Bool} :
    Reads source true (decoratedClass r ctx isAlone) alone :=
  .of_on fun _ => .look reads_check fun _ => .look reads_start fun _ =>
    .many (reads_decorators hr) fun _ => .look reads_isWord fun _ =>
      .ite (readsOn_decoratedExport hr) (reads_classFrom hr)

theorem reads_statement (hr : ReadsPhrases source r) {isAlone : Bool} :
    Reads source false (statement r ctx isAlone) alone := by
  have hexpression : Reads source false (expressionOrLabeled r ctx) alone :=
    reads_expressionOrLabeled hr
  refine .of_on fun _ => .look reads_tokenKind fun _ => ?_
  split
  · exact .last (reads_block hr).weaken
  · exact .last reads_emptyStatement.weaken
  · exact .last (reads_decoratedClass hr).weaken
  · split
    · exact .last (reads_ifStatement hr).weaken
    · exact .last (reads_doWhile hr).weaken
    · exact .last (reads_whileStatement hr).weaken
    · exact .last (reads_forStatement hr).weaken
    · exact .last reads_jump.weaken
    · exact .last reads_jump.weaken
    · exact .last (reads_withStatement hr).weaken
    · exact .last (reads_switchStatement hr).weaken
    · exact .last (reads_throwStatement hr).weaken
    · exact .last (reads_tryStatement hr).weaken
    · exact .last reads_debuggerStatement.weaken
    · exact .last (reads_classStatement hr).weaken
    · exact .last (reads_exportDeclaration hr).weaken
    · exact .last (reads_returnStatement hr).weaken
    · exact .last (reads_variableStatement hr).weaken
    · exact .last (reads_variableStatement hr).weaken
    · exact .last (reads_functionStatement hr).weaken
    · exact .look reads_ahead fun _ =>
        .ite (.last reads_importDeclaration.weaken) (.last hexpression)
    · exact .look reads_atFunction fun _ =>
        .ite (.last (reads_functionStatement hr).weaken) (.last hexpression)
    · exact .look reads_usingFollows fun _ =>
        .ite (.last (reads_variableStatement hr).weaken) (.last hexpression)
    · exact .look reads_usingFollows fun _ =>
        .ite (.last (reads_variableStatement hr).weaken) (.last hexpression)
    · exact .ite (.last hexpression) (.last (reads_letStatement hr))
    · exact .last hexpression
  · exact .last hexpression

/-- Each phrase is laid out if those within it are. -/
theorem readsPhrases_phrase {depth : Nat} : ReadsPhrases source (phrase depth) := by
  induction depth with
  | zero =>
    exact ⟨formsPhrases_phrase, fun _ => .failure, fun _ => .failure, fun _ => .failure, fun _ _ _ _ _ _ => nofun⟩
  | succ depth ih =>
    refine ⟨formsPhrases_phrase, fun p => ?_, fun ctx => ends_assignment ih, fun ctx => reads_bindingTarget ih,
      fun ctx => encloses_bindingTarget ih⟩
    cases p with
    | assignment ctx => exact reads_assignment ih
    | unary ctx => exact reads_unary ih
    | binary ctx strength => exact reads_binary ih
    | newTarget ctx => exact reads_newTarget ih
    | leftHand ctx => exact reads_leftHand ih
    | statement ctx isAlone => exact reads_statement ih
    | bindingTarget ctx => exact (reads_bindingTarget ih).weaken

theorem restAt_hashLine : RestAt source (hashLine source).rest (hashLine source).offset := by
  have hstart : RestAt source source 0 := ⟨[], rfl, rfl⟩
  unfold hashLine
  split
  · exact Cursor.restAt_skipWhile hstart
  · exact hstart

theorem sound_start? {s : State} (h : State.start? source = some s) : s.Sound source :=
  (State.sound_moveTo restAt_hashLine (by simp) h).1

/-- A script whose sites are laid out in its text, clear of its comments. -/
structure Program.Spanned (source : List Char) (p : Program) : Prop where
  kind : p.tree.kind = .program
  laidOut : ∃ lo hi, LaidOut source (Clear source p.lineComments) lo hi p.tree.sites
  comments : ∀ c ∈ p.lineComments, ∃ hi, CommentBetween source 0 hi c

theorem spanned_program {depth : Nat} {p : Program} {s s' : State} (hs : s.Sound source)
    (h : program depth s = some (p, s')) : p.Spanned source := by
  obtain ⟨items, s₁, hitems, h⟩ := bind_eq_some h
  obtain ⟨_, _, hget, h⟩ := bind_eq_some h
  cases hget
  obtain ⟨_, s₂, hcheck, h⟩ := bind_eq_some h
  cases h
  have hends : Reads source false (do return (← tokenKind) == .ending) nothing :=
    .of_on fun _ => .look reads_tokenKind fun _ => .pure rfl
  have hp := reads_statements readsPhrases_phrase hends s items s₁ hs hitems
  refine ⟨rfl, ⟨s.here, s₁.lastEnd, ?_⟩, fun c hc => ⟨s₁.here, hp.after.comments c (by simpa using hc)⟩⟩
  rw [sites_of_not_isSite rfl]
  exact hp.laidOut.imp fun q _ hq => ⟨hq.1, fun c hc => hq.2 c (by simpa using hc)⟩

/-- Every script that can be read is laid out in its text. -/
theorem spanned_parse? {text : String} {p : Program} (h : Program.parse? text = some p) :
    p.Spanned text.toList := by
  obtain ⟨s, hs, h⟩ := Option.bind_eq_some_iff.mp h
  obtain ⟨⟨q, s'⟩, hq, h⟩ := Option.bind_eq_some_iff.mp h
  cases h
  exact spanned_program (sound_start? hs) hq

end FlatBundle.Script
