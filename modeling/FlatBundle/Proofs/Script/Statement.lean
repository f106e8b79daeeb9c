import FlatBundle.Proofs.Script.Expression
import FlatBundle.Script.Statement

/-!
Statements, except those of modules.
-/

namespace FlatBundle.Script

open Reader

variable {source : List Char} {r : Recur} {ctx : Ctx} {s₀ : State} {moved alone? : Bool} {n : Node}
  {start : Nat}

theorem readsOn_expressionStatement :
    ReadsOn source moved s₀ [n] (expressionStatement start n) moved alone :=
  .look reads_statementEnd fun _ => .node rfl rfl

theorem reads_expressionOrLabeled (hr : ReadsPhrases source r) :
    Reads source false (expressionOrLabeled r ctx) alone := by
  refine .of_start fun _ => .read (reads_expression hr) fun e => ?_
  split
  · refine .look reads_eatMark fun _ => .ite (.forget ?_) readsOn_expressionStatement
    exact .read (hr.all _) fun _ => .node rfl rfl
  · exact readsOn_expressionStatement

theorem reads_declarator (hr : ReadsPhrases source r) {kind : VariableKind} {isConst inHead : Bool} :
    Reads source true (declarator r ctx kind isConst inHead) alone := by
  refine .of_start fun _ => .solid (hr.target _) (hr.solid _) (hr.forms.bindingTarget _)
    fun _ htarget => .eat ?_ (.look reads_check fun _ => .bare rfl htarget.quiet)
  exact .knowing (hr.all _) (hr.forms.assignment _) fun _ hvalue =>
    .site rfl rfl nofun nofun (.cons htarget.quiet (.alone hvalue.quiet)) nofun rfl

/-- A declarator without statements. -/
def QuietDeclarator (d : Node) : Prop :=
  d.kind.isDeclarator ∧ Quiet d

theorem declarator_quiet (hr : FormsPhrases r) {kind : VariableKind} {isConst inHead : Bool} :
    Yields (declarator r ctx kind isConst inHead) QuietDeclarator := by
  have hkind : Yields (declarator r ctx kind isConst inHead) (·.kind.isDeclarator) :=
    .bind fun _ => .bind fun _ => .bind fun _ => .ite (.bind fun _ => Yields.node.imp fun _ hk => hk ▸ rfl)
      (.bind fun _ => Yields.node.imp fun _ hk => hk ▸ rfl)
  exact hkind.and ((ordinary_declarator hr).imp fun _ => Ordinary.quiet)

theorem reads_declarators (hr : ReadsPhrases source r) {kind : VariableKind}
    {isConst inHead : Bool} : Reads source false (declarators r ctx kind isConst inHead) id := by
  refine .loop List.reverse id (fun s₀ items => ?_) rfl
  refine .read (reads_declarator hr) fun _ => .look reads_eatMark fun _ => ?_
  exact .ite (.pure (by simp [roundNodes])) (.pure (by simp [roundNodes]))

/-- At least one declarator, and all of them without statements. -/
def QuietDeclarators (items : List Node) : Prop :=
  items ≠ [] ∧ ∀ d ∈ items, QuietDeclarator d

theorem QuietDeclarators.declarators {items : List Node} (h : QuietDeclarators items) :
    items ≠ [] ∧ ∀ d ∈ items, d.kind.isDeclarator :=
  ⟨h.1, fun d hd => (h.2 d hd).1⟩

theorem QuietDeclarators.quiet {items : List Node} (h : QuietDeclarators items) : AllQuiet items :=
  fun d hd => (h.2 d hd).2

theorem declarators_quiet (hr : FormsPhrases r) {kind : VariableKind} {isConst inHead : Bool} :
    Yields (declarators r ctx kind isConst inHead) QuietDeclarators := by
  refine .loop (I := fun items => ∀ d ∈ items, QuietDeclarator d) (fun items hitems => ?_) nofun
  refine (declarator_quiet hr).andThen fun d hd => ?_
  have hall : ∀ e ∈ d :: items, QuietDeclarator e := List.forall_mem_cons.mpr ⟨hd, hitems⟩
  refine .bind fun _ => .ite (.pure hall) (.pure ⟨by simp, fun e he => ?_⟩)
  exact hall e (List.mem_reverse.mp he)

theorem reads_variableWord : Reads source true variableWord nothing := by
  refine .of_on fun _ => .look reads_keyword? fun _ => ?_
  split
  · exact .move reads_take fun _ => .pure rfl
  · exact .move reads_take fun _ => .pure rfl
  · exact .move reads_take fun _ => .pure rfl
  · exact .look reads_eatWord fun _ => .move reads_expectWord fun _ => .pure rfl

theorem encloses_variableWord : Encloses source (fun _ => True) variableWord nothing := by
  have htake {v : VariableKind × Bool} : Encloses source (·.isSolid) (do take; return v) nothing :=
    .andThen reads_take encloses_take fun _ => .pure rfl
  have husing : Encloses source (fun _ => True) (do
      let _ ← eatWord .awaitWord
      expectWord .usingWord
      return (VariableKind.lexical, true)) nothing :=
    .after reads_eatWord fun _ => .andThen reads_expectWord encloses_expectWord fun _ => .pure rfl
  intro s v s' hs _ h
  obtain ⟨keyword, s₁, hkeyword, h⟩ := bind_eq_some h
  obtain ⟨rfl, hsolid⟩ := solid_of_keyword? hkeyword
  split at h
  · exact htake s v s' hs (hsolid _ rfl) h
  · exact htake s v s' hs (hsolid _ rfl) h
  · exact htake s v s' hs (hsolid _ rfl) h
  · exact husing s v s' hs trivial h

theorem reads_variableStatement (hr : ReadsPhrases source r) {alone? : Bool} :
    Reads source true (variableStatement r ctx alone?) alone :=
  .of_start fun _ => .past reads_variableWord encloses_variableWord fun _ =>
    .knowing (reads_declarators hr) (declarators_quiet hr.forms) fun _ hitems =>
      .look reads_statementEnd fun _ => .look reads_check fun _ =>
        .site rfl rfl nofun (fun _ => hitems.declarators) hitems.quiet nofun rfl

theorem reads_letUse {alone? : Bool} : Reads source false (letUse alone?) nothing := by
  refine .of_on fun _ => .look reads_get fun s => ?_
  split
  · exact .failure
  · split <;> exact .pure rfl

theorem reads_expressionInParens (hr : ReadsPhrases source r) :
    Reads source true (expressionInParens r ctx) alone :=
  .of_on fun _ => .move reads_expectMark fun _ => .read (reads_expression hr) fun _ =>
    .move reads_expectMark fun _ => .pure rfl

theorem reads_letStatement (hr : ReadsPhrases source r) {alone? : Bool} :
    Reads source false (letStatement r ctx alone?) alone := by
  refine .of_on fun _ => .look reads_start fun _ => .look reads_letUse fun _ => ?_
  split
  · exact .read (reads_expression hr) fun _ => readsOn_expressionStatement
  · exact .read reads_reference fun _ => readsOn_expressionStatement
  · exact .last (reads_variableStatement hr).weaken

theorem reads_ifStatement (hr : ReadsPhrases source r) :
    Reads source true (ifStatement r ctx) alone := by
  refine .of_start fun _ => .move reads_take fun _ => .read (reads_expressionInParens hr) fun _ =>
    .read (hr.all _) fun _ => .look reads_eatWord fun _ => .ite ?_ (.node rfl rfl)
  exact .read (hr.all _) fun _ => .node rfl rfl

theorem reads_doWhile (hr : ReadsPhrases source r) : Reads source true (doWhile r ctx) alone :=
  .of_start fun _ => .move reads_take fun _ => .read (hr.all _) fun _ => .move reads_expectWord fun _ =>
    .read (reads_expressionInParens hr) fun _ => .look reads_eatMark fun _ => .node rfl rfl

theorem reads_whileStatement (hr : ReadsPhrases source r) :
    Reads source true (whileStatement r ctx) alone :=
  .of_start fun _ => .move reads_take fun _ => .read (reads_expressionInParens hr) fun _ =>
    .read (hr.all _) fun _ => .node rfl rfl

theorem reads_withStatement (hr : ReadsPhrases source r) :
    Reads source true (withStatement r ctx) alone :=
  .of_start fun _ => .move reads_take fun _ => .read (reads_expressionInParens hr) fun _ =>
    .read (hr.all _) fun _ => .node rfl rfl

theorem readsOn_forRest (hr : ReadsPhrases source r) {head : List Node} :
    ReadsOn source moved s₀ head (forRest r ctx start head) true alone := by
  refine .move reads_expectMark fun _ => .look reads_isMark fun _ => ?_
  extract_lets rest
  have hrest : ∀ test, ReadsOn source true s₀ (head ++ test) (rest test) true alone := by
    intro test
    refine .move reads_expectMark fun _ => .look reads_isMark fun _ => ?_
    extract_lets rest
    have hrest : ∀ step, ReadsOn source true s₀ (head ++ test ++ step) (rest step) true alone :=
      fun step => .move reads_expectMark fun _ => .read (hr.all _) fun _ => .node rfl rfl
    exact .ite (.given ((hrest []).of_sites (by simp)))
      (.read (reads_expression hr) fun step => .given (hrest [step]))
  exact .ite (.given ((hrest []).of_sites (by simp)))
    (.read (reads_expression hr) fun test => .given (hrest [test]))

theorem readsOn_forEachRest (hr : ReadsPhrases source r) :
    ReadsOn source moved s₀ [n] (forEachRest r ctx start n) true alone := by
  refine .look reads_isWord fun isIn => .move reads_take fun _ => ?_
  extract_lets rest
  have hrest : ∀ object, ReadsOn source true s₀ [n, object] (rest object) true alone := fun object =>
    .move reads_expectMark fun _ => .read (hr.all _) fun _ => .node (by cases isIn <;> rfl) rfl
  exact .ite (.read (reads_expression hr) hrest) (.read (hr.all _) hrest)

theorem reads_atForEach : Reads source false atForEach nothing :=
  .of_on fun _ => .look reads_isWord fun _ => .look reads_isWord fun _ => .pure rfl

theorem reads_usingFollows : Reads source false usingFollows nothing :=
  reads_ahead

theorem reads_declarationInHead : Reads source false declarationInHead nothing := by
  refine .of_on fun _ => .look reads_keyword? fun _ => ?_
  split
  · exact .pure rfl
  · exact .pure rfl
  · exact .last reads_ahead
  · exact .look reads_usingFollows fun _ => .ite (.last reads_ahead) (.pure rfl)

theorem reads_forDeclaration (hr : ReadsPhrases source r) {isAsync : Bool} :
    Reads source true (forDeclaration r ctx start isAsync) alone := by
  refine .of_start fun s₀ => .past reads_variableWord encloses_variableWord fun ⟨kind, isConst⟩ =>
    .knowing (reads_declarators hr) (declarators_quiet hr.forms) fun items hitems => .andThen
      (.site rfl rfl nofun (fun _ => hitems.declarators) hitems.quiet nofun rfl) fun head =>
        .look reads_atForEach fun _ => ?_
  refine .ite (readsOn_forEachRest hr) (.look reads_check fun _ => ?_)
  exact .look reads_check fun _ => readsOn_forRest hr

theorem reads_forExpression (hr : ReadsPhrases source r) {isAsync : Bool} :
    Reads source true (forExpression r ctx start isAsync) alone := by
  refine .of_on fun s₀ => .look reads_ahead fun _ => .look reads_isWord fun _ =>
    .read (reads_expression hr) fun head => .look reads_atForEach fun _ => .ite ?_ ?_
  · refine .look reads_isWord fun _ => ?_
    extract_lets rest
    have hrest : ∀ u, ReadsOn source false s₀ [head] (rest u) true alone := fun _ =>
      .andThen readsOn_target fun _ => readsOn_forEachRest hr
    exact .ite (.look reads_check hrest) (hrest ())
  · exact .look reads_check fun _ => readsOn_forRest hr

theorem reads_forStatement (hr : ReadsPhrases source r) :
    Reads source true (forStatement r ctx) alone := by
  refine .of_start fun _ => .move reads_take fun _ => .look reads_eatWord fun _ =>
    .look reads_check fun _ => .move reads_expectMark fun _ => .look reads_isMark fun _ => .ite ?_ ?_
  · exact .look reads_check fun _ => readsOn_forRest hr
  · exact .look reads_declarationInHead fun _ =>
      .ite (.last (reads_forDeclaration hr)) (.last (reads_forExpression hr))

theorem reads_jump : Reads source true (jump ctx) alone := by
  refine .of_start fun s₀ => .move reads_take fun _ => .look reads_atStatementEnd fun _ => ?_
  extract_lets rest
  have hrest : ∀ u, ReadsOn source true s₀ [] (rest u) true alone := fun _ =>
    .look reads_statementEnd fun _ => .node rfl rfl
  exact .ite (.read reads_reference fun _ => .forget (hrest ())) (hrest ())

theorem reads_debuggerStatement : Reads source true debuggerStatement alone :=
  .of_start fun _ => .move reads_take fun _ => .look reads_statementEnd fun _ => .node rfl rfl

theorem reads_returnStatement (hr : ReadsPhrases source r) :
    Reads source true (returnStatement r ctx) alone := by
  refine .of_on fun s₀ => .look reads_check fun _ => ?_
  refine .look reads_start fun _ => .move reads_take fun _ => .look reads_atStatementEnd fun _ => ?_
  extract_lets rest
  have hrest : ∀ value, ReadsOn source true s₀ value (rest value) true alone := fun _ =>
    .look reads_statementEnd fun _ => .node rfl rfl
  exact .ite (.given (hrest [])) (.read (reads_expression hr) fun value => .given (hrest [value]))

theorem reads_throwStatement (hr : ReadsPhrases source r) :
    Reads source true (throwStatement r ctx) alone :=
  .of_start fun _ => .move reads_take fun _ => .look reads_onNewLine fun _ => .look reads_check fun _ =>
    .read (reads_expression hr) fun _ => .look reads_statementEnd fun _ => .node rfl rfl

theorem reads_atCaseEnd : Reads source false atCaseEnd nothing :=
  .of_on fun _ => .look reads_isWord fun _ => .look reads_isWord fun _ => .look reads_isMark fun _ =>
    .pure rfl

theorem reads_switchCase (hr : ReadsPhrases source r) :
    Reads source false (switchCase r ctx) alone := by
  refine .of_start fun s₀ => .look reads_eatWord fun _ => ?_
  extract_lets rest
  have hrest : ∀ {moved} test, ReadsOn source moved s₀ test (rest test) false alone := by
    intro moved test
    refine .move reads_expectMark fun _ => .many (.loop List.reverse id ?_ rfl) fun _ =>
      .weaken (.node rfl rfl)
    intro s₀ items
    refine .look reads_atCaseEnd fun _ => .ite (.pure rfl) ?_
    exact .read (hr.all _) fun _ => .pure (by simp [roundNodes])
  exact .ite (.read (reads_expression hr) fun test => .given (hrest [test]))
    (.move reads_expectWord fun _ => .given (hrest []))

theorem reads_switchStatement (hr : ReadsPhrases source r) :
    Reads source true (switchStatement r ctx) alone := by
  refine .of_start fun _ => .move reads_take fun _ => .read (reads_expressionInParens hr) fun _ =>
    .move reads_expectMark fun _ => .many (.loop List.reverse id ?_ rfl) fun _ =>
      .move reads_take fun _ => .node rfl rfl
  intro s₀ items
  refine .look reads_isMark fun _ => .ite (.pure rfl) ?_
  exact .read (reads_switchCase hr) fun _ => .pure (by simp [roundNodes])

theorem reads_catchClause (hr : ReadsPhrases source r) :
    Reads source true (catchClause r ctx) alone := by
  refine .of_start fun s₀ => .move reads_take fun _ => .look reads_eatMark fun _ => ?_
  extract_lets rest
  have hrest : ∀ param, ReadsOn source true s₀ param (rest param) true alone := fun _ =>
    .read (reads_block hr) fun _ => .node rfl rfl
  refine .ite (.look reads_start fun _ => .read (hr.all _) fun _ => .andThen (.node rfl rfl) ?_)
    (.given (hrest []))
  exact fun param => .move reads_expectMark fun _ => .given (hrest [param])

theorem reads_tryStatement (hr : ReadsPhrases source r) :
    Reads source true (tryStatement r ctx) alone := by
  refine .of_start fun s₀ => .move reads_take fun _ => .read (reads_block hr) fun body =>
    .look reads_isWord fun _ => ?_
  extract_lets rest
  have hrest : ∀ handler, ReadsOn source true s₀ (body :: handler) (rest handler) true alone := by
    intro handler
    refine .look reads_eatWord fun _ => ?_
    extract_lets rest
    have hrest : ∀ finalizer, ReadsOn source true s₀ (body :: handler ++ finalizer) (rest finalizer)
        true alone := fun _ => .look reads_check fun _ => .node rfl rfl
    exact .ite (.read (reads_block hr) fun finalizer => .given (hrest [finalizer]))
      (.given ((hrest []).of_sites (by simp)))
  exact .ite (.read (reads_catchClause hr) fun handler => .given (hrest [handler]))
    (.given (hrest []))

theorem reads_functionStatement (hr : ReadsPhrases source r) {alone? : Bool} :
    Reads source true (functionStatement r ctx alone?) alone := by
  refine .of_on fun _ => .gather (reads_function hr) fun f => ?_
  split
  · exact .look reads_check fun _ => .pure rfl
  · exact .failure

theorem reads_classStatement (hr : ReadsPhrases source r) {alone? : Bool} :
    Reads source true (classStatement r ctx alone?) alone :=
  .of_on fun _ => .look reads_check fun _ => .look reads_start fun _ => reads_classFrom hr

theorem reads_emptyStatement : Reads source true emptyStatement alone :=
  .of_start fun _ => .move reads_take fun _ => .node rfl rfl

end FlatBundle.Script
