import FlatBundle.Proofs.Script.Formed

/-!
Expressions, statements and whole scripts are formed.
-/

namespace FlatBundle.Script

open Reader

variable {r : Recur} {ctx : Ctx} {item : Reader Node} {close : Mark} {n : Node} {start : Nat}
  {isAsync alone isConst inHead : Bool} {kind : VariableKind} {head decorated : List Node}

section Expressions

variable {a : Access} (hr : FormsPhrases r)
include hr

theorem ordinary_expression : Yields (expression r ctx) Ordinary := by
  refine .bind fun _ => (hr.assignment _).andThen fun first hfirst => .bind fun _ => .ite (.pure hfirst) ?_
  refine .andThen (.loop (I := AllHave Ordinary) (fun items hitems => .bind fun _ => .ite ?_ (.pure hitems.reverse))
    (.alone hfirst)) fun _ hitems => .ordinary rfl hitems
  exact (hr.assignment _).andThen fun _ hn => .pure (hitems.cons hn)

omit hr in
theorem ordinary_literal : Yields literal Ordinary :=
  .bind fun _ => .bind fun _ => .ordinary rfl .nil

theorem ordinary_spreadOr (h : Yields item Ordinary) : Yields (spreadOr r ctx item) Ordinary :=
  .bind fun _ => .bind fun _ => .ite ((hr.assignment _).andThen fun _ hn => .ordinary rfl (.alone hn)) h

omit hr in
theorem ordinary_literalItems (h : Yields item Ordinary) : Yields (literalItems close item) (AllHave Ordinary) := by
  refine .loop (I := AllHave Ordinary) (fun items hitems => ?_) .nil
  refine .bind fun _ => .ite (.pure hitems.reverse) (h.andThen fun n hn => ?_)
  refine .bind fun _ => .ite (.pure (hitems.cons hn).reverse) (.bind fun _ => .bind fun _ => .bind fun _ => ?_)
  exact .ite (.pure ((hitems.cons hn).cons ordinary_hole).reverse) (.pure (hitems.cons hn))

theorem ordinary_arrayLiteral : Yields (arrayLiteral r ctx) Ordinary := by
  refine .bind fun _ => .bind fun _ => (ordinary_literalItems ?_).andThen fun _ hitems => .bind fun _ =>
    .ordinary rfl hitems
  exact .bind fun _ => .ite (.bind fun _ => .pure ordinary_hole) (ordinary_spreadOr hr (hr.assignment _))

theorem ordinary_shorthandProperty : Yields (shorthandProperty r ctx start) Ordinary := by
  refine ordinary_reference.andThen fun _ hname => .bind fun _ => .ite ?_ (.ordinary rfl (.alone hname))
  exact (hr.assignment _).andThen fun _ hvalue => .bind fun _ => .ordinary rfl (.cons hname (.alone hvalue))

theorem ordinary_literalMember : Yields (literalMember r ctx) Ordinary := by
  refine .bind fun _ => .bind fun isAsync => .bind fun isGenerator => ?_
  extract_lets rest
  have hrest : ∀ accessor, Yields (rest accessor) Ordinary := by
    intro accessor
    refine .bind fun _ => .bind fun _ => .ite (ordinary_shorthandProperty hr) ?_
    refine (ordinary_memberKey hr).andThen fun _ hkey => .bind fun _ => .ite ?_ ?_
    · exact (ordinary_methodFunction hr).andThen fun _ hf => .ordinary rfl (hkey.append (.alone hf))
    · exact .bind fun _ => (hr.assignment _).andThen fun _ hvalue => .ordinary rfl (hkey.append (.alone hvalue))
  exact .ite (.given (hrest _)) (.bind hrest)

theorem ordinary_objectLiteral : Yields (objectLiteral r ctx) Ordinary :=
  .bind fun _ => .bind fun _ =>
    (ordinary_literalItems (ordinary_spreadOr hr (ordinary_literalMember hr))).andThen fun _ hmembers =>
      .bind fun _ => .ordinary rfl hmembers

/-- There is one piece of text before each substitution, and one after the last. -/
theorem ordinary_template {hasTag : Bool} : Yields (template r ctx hasTag) Ordinary := by
  refine .bind fun _ => .loop (I := fun st => st.1.length = st.2.length ∧ AllHave Ordinary st.2)
    (fun ⟨pieces, values⟩ ⟨hlength, hvalues⟩ => ?_) ⟨rfl, .nil⟩
  refine .bind fun _ => ?_
  split
  · refine .bind fun _ => .bind fun _ => .ite ?_ ?_
    · have hpieces {piece : Option String} :
          (Kind.template (piece :: pieces).reverse).Holds values.reverse := by simp [Kind.Holds, hlength]
      exact (Yields.holder hpieces (hvalues.reverse.imp fun _ hn => hn _) fun _ => rfl).andThen fun _ hn =>
        .pure hn
    · exact (ordinary_expression hr).andThen fun _ hvalue => .bind fun _ => .bind fun _ => .bind fun _ =>
        .pure ⟨congrArg (· + 1) hlength, hvalues.cons hvalue⟩
  · exact .failure

omit hr in
theorem ordinary_regularExpression : Yields regularExpression Ordinary :=
  .bind fun _ => .bind fun _ => .bind fun _ => .ordinary rfl .nil

theorem ordinary_parenthesized : Yields (parenthesized r ctx) Ordinary :=
  .bind fun _ => (ordinary_expression hr).andThen fun _ hn => .bind fun _ => .pure hn

omit hr in
theorem ordinary_superword : Yields superword Ordinary :=
  ordinary_literal.andThen fun _ hn => .bind fun _ => .bind fun _ => .bind fun _ => .bind fun _ => .pure hn

theorem ordinary_importExpression : Yields (importExpression r ctx) Ordinary := by
  refine .bind fun _ => .bind fun _ => .bind fun _ => ?_
  extract_lets rest
  have hrest : ∀ isMeta, Yields (rest isMeta) Ordinary := fun _ =>
    .ite (.ordinary rfl .nil) (.bind fun _ => (allHave_commaList (hr.assignment _)).andThen fun _ hitems =>
      .bind fun _ => .bind fun _ => .ordinary rfl hitems)
  refine .ite (.bind fun _ => .ite (.given (hrest _)) ?_) (.given (hrest _))
  exact .bind fun _ => .bind fun _ => .bind fun _ => .bind fun _ => .given (hrest _)

theorem ordinary_callArguments : Yields (callArguments r ctx) (AllHave Ordinary) :=
  .bind fun _ => (allHave_commaList (ordinary_spreadOr hr (hr.assignment _))).andThen fun _ hitems =>
    .bind fun _ => .pure hitems

theorem ordinary_newExpression : Yields (newExpression r ctx) Ordinary := by
  refine .bind fun _ => .bind fun _ => .bind fun _ => .ite (.bind fun _ => .ordinary rfl .nil) ?_
  refine (hr.newTarget _).andThen fun callee hcallee => .bind fun _ => .bind fun _ => ?_
  extract_lets rest
  have hrest {args : List Node} (hargs : AllHave Ordinary args) : Yields (rest args) Ordinary :=
    .ordinary rfl (.cons hcallee hargs)
  exact .ite ((ordinary_callArguments hr).andThen fun _ hargs => hrest hargs) (.given (hrest .nil))

omit hr in
theorem ordinary_stringLiteral {value : String} : Yields (stringLiteral value) Ordinary :=
  .bind fun _ => .bind fun _ => .ordinary rfl .nil

theorem ordinary_classExpression : Yields (classExpression r ctx) Ordinary :=
  .bind fun _ => (ordinary_decorators hr).andThen fun _ hhead => ordinary_classFrom hr hhead

theorem ordinary_primary : Yields (primary r ctx) Ordinary := by
  refine .bind fun _ => .ite (ordinary_function hr) (.bind fun _ => ?_)
  split
  · exact ordinary_stringLiteral
  · exact ordinary_literal
  · exact ordinary_template hr
  · exact ordinary_arrayLiteral hr
  · exact ordinary_objectLiteral hr
  · exact ordinary_parenthesized hr
  · exact ordinary_regularExpression
  · exact ordinary_regularExpression
  · exact ordinary_classExpression hr
  · exact ordinary_classExpression hr
  · exact ordinary_literal
  · exact ordinary_literal
  · exact ordinary_literal
  · exact ordinary_literal
  · exact ordinary_newExpression hr
  · exact ordinary_superword
  · exact ordinary_importExpression hr
  · exact ordinary_reference

omit hr in
theorem ordinary_dotAccess (hn : Ordinary n) : Yields (dotAccess start n) Ordinary := by
  refine .bind fun _ => ?_
  split
  · exact .bind fun _ => .ordinary rfl (.alone hn)
  · exact .bind fun _ => .ordinary rfl (.alone hn)

theorem ordinary_indexAccess (hn : Ordinary n) : Yields (indexAccess r ctx start n) Ordinary :=
  .bind fun _ => (ordinary_expression hr).andThen fun _ hkey => .bind fun _ =>
    .ordinary rfl (.cons hn (.alone hkey))

/-- An operand with its accesses, in the middle of reading it or at the end. -/
def Access.Forms : Round Access Access → Prop
  | .again a => Ordinary a.node
  | .done a => Ordinary a.node

omit hr in
theorem Access.Forms.keeps {round : Round Access Access} (h : Access.Forms round) :
    roundKeeps (fun a => Ordinary a.node) round := by
  cases round with
  | again => exact h
  | done => trivial

theorem ordinary_accessStep (ha : Ordinary a.node) : Yields (accessStep r ctx start a) Access.Forms := by
  refine .bind fun _ => ?_
  split
  · exact .bind fun _ => (ordinary_dotAccess ha).andThen fun _ hn => .pure hn
  · exact .ite (.pure ha) ((ordinary_indexAccess hr ha).andThen fun _ hn => .pure hn)
  · refine .bind fun _ => .ite (.pure ha) (.bind fun _ => .bind fun _ => .ite ?_ ?_)
    · exact (ordinary_indexAccess hr ha).andThen fun _ hn => .pure hn
    · exact (ordinary_dotAccess ha).andThen fun _ hn => .pure hn
  · exact .bind fun _ => (ordinary_template hr).andThen fun _ ht =>
      (Yields.ordinary rfl (.cons ha (.alone ht))).andThen fun _ hn => .pure hn
  · exact .pure ha

theorem ordinary_accesses (ha : Ordinary a.node) : Yields (accesses r ctx start a) fun a => Ordinary a.node :=
  .loop (fun _ ha => (ordinary_accessStep hr ha).imp fun round hround => by cases round <;> exact hround) ha

theorem ordinary_newTarget : Yields (newTarget r ctx) Ordinary :=
  .bind fun _ => (ordinary_primary hr).andThen fun _ hn =>
    (ordinary_accesses hr (a := ⟨_, false⟩) hn).andThen fun _ ha => .bind fun _ => .pure ha

theorem ordinary_callStep (ha : Ordinary a.node) : Yields (callStep r ctx start a) Access.Forms := by
  refine (ordinary_accesses hr ha).andThen fun _ ha => .bind fun _ => .bind fun _ =>
    .ite ?_ (.bind fun _ => .pure ha)
  exact (ordinary_callArguments hr).andThen fun _ hargs =>
    (Yields.ordinary rfl (.cons ha hargs)).andThen fun _ hn => .pure hn

theorem ordinary_leftHand : Yields (leftHand r ctx) Ordinary := by
  refine .bind fun _ => (ordinary_primary hr).andThen fun _ hn => ?_
  refine .andThen (.loop (I := fun a => Ordinary a.node) (P := fun a => Ordinary a.node) (fun _ ha => ?_) hn)
    fun _ ha => .ite (.ordinary rfl (.alone ha)) (.pure ha)
  exact (ordinary_callStep hr ha).imp fun round hround => by cases round <;> exact hround

theorem ordinary_update : Yields (update r ctx) Ordinary := by
  refine .bind fun _ => .bind fun _ => .ite (.bind fun _ => ?_) ?_
  · exact (hr.unary _).andThen fun _ hn => (ordinary_simpleTarget hn).andThen fun _ hn => .ordinary rfl (.alone hn)
  · refine (ordinary_leftHand hr).andThen fun _ hn => .bind fun _ => .ite ?_ (.pure hn)
    exact (ordinary_simpleTarget hn).andThen fun _ hn => .bind fun _ => .ordinary rfl (.alone hn)

theorem ordinary_prefixed {kind : Kind} (hk : kind.isPlain) : Yields (prefixed r ctx kind) Ordinary :=
  .bind fun _ => .bind fun _ => (hr.unary _).andThen fun _ hn =>
    (Yields.ordinary hk (.alone hn)).andThen fun _ hn => .bind fun _ => .bind fun _ => .pure hn

theorem ordinary_unary : Yields (unary r ctx) Ordinary := by
  refine .bind fun _ => ?_
  split
  next kind hkind =>
    refine ordinary_prefixed hr ?_
    unfold unaryKind? at hkind
    split at hkind <;> cases hkind <;> rfl
  next =>
    refine .bind fun _ => .ite (.ite (ordinary_prefixed hr rfl) ?_) (ordinary_update hr)
    exact .bind fun _ => .bind fun _ => ordinary_update hr

theorem ordinary_binaryRest {strength : Nat} {leftParen : Bool} (hn : Ordinary n) :
    Yields (binaryRest r ctx start strength leftParen n) Ordinary := by
  refine .loop (I := Ordinary) (fun left hleft => .bind fun _ => ?_) hn
  split
  · exact .pure hleft
  · refine .ite (.pure hleft) (.bind fun _ => .bind fun _ => ?_)
    exact (hr.binary _ _).andThen fun _ hright => .bind fun _ =>
      (Yields.ordinary rfl (.cons hleft (.alone hright))).andThen fun _ hn => .pure hn

theorem ordinary_privateIn : Yields (privateIn r ctx) Ordinary :=
  .bind fun _ => .bind fun _ => .bind fun _ => (hr.binary _ _).andThen fun _ hn => .bind fun _ =>
    .ordinary rfl (.alone hn)

theorem ordinary_binary {strength : Nat} : Yields (binary r ctx strength) Ordinary := by
  refine .bind fun _ => .bind fun _ => .bind fun _ => ?_
  extract_lets rest
  exact .ite ((ordinary_privateIn hr).andThen fun _ hn => ordinary_binaryRest hr hn)
    ((ordinary_unary hr).andThen fun _ hn => ordinary_binaryRest hr hn)

theorem ordinary_arrowRest (hparams : Member (.arrow isAsync) n) :
    Yields (arrowRest r ctx start isAsync n) Ordinary := by
  refine .bind fun _ => .bind fun _ => .bind fun _ => .bind fun _ => ?_
  extract_lets rest
  have hrest {body : Node} (hbody : Stated body) : Yields (rest body) Ordinary :=
    .holder trivial (.cons hparams (.alone (hbody _ rfl))) fun _ => rfl
  refine .ite ((stated_bodyInBraces hr).andThen fun _ hbody => hrest hbody) (.bind fun _ => ?_)
  exact (hr.assignment _).andThen fun _ hvalue =>
    (Yields.stated rfl (.alone hvalue.stated)).andThen fun _ hs =>
      (Yields.stated rfl (.alone hs)).andThen fun _ hbody => hrest hbody

theorem ordinary_arrowWithParens : Yields (arrowWithParens r ctx) Ordinary :=
  .bind fun _ => .bind fun _ => (member_parameters hr rfl).andThen fun _ hparams =>
    ordinary_arrowRest hr hparams

theorem ordinary_arrowWithName : Yields (arrowWithName r ctx start isAsync) Ordinary :=
  named_bindingName.andThen fun _ hname =>
    ordinary_arrowRest hr ⟨.of_members trivial (.alone (hname .parameters rfl)), rfl⟩

theorem ordinary_arrow? : Yields (arrow? r ctx) fun n? => ∀ n ∈ n?, Ordinary n := by
  have hsome {n : Node} (hn : Ordinary n) : ∀ m ∈ some n, Ordinary m := fun m hm => Option.some.inj hm ▸ hn
  have hnone : ∀ n ∈ (none : Option Node), Ordinary n := nofun
  have hname {start : Nat} {isAsync : Bool} :
      Yields (do return some (← arrowWithName r ctx start isAsync)) fun n? => ∀ n ∈ n?, Ordinary n :=
    (ordinary_arrowWithName hr).andThen fun _ hn => .pure (hsome hn)
  refine .bind fun _ => ?_
  split
  · exact (ordinary_arrowWithParens hr).andThen fun _ hn => .pure (hsome hn)
  · refine (ordinary_arrowWithParens hr).attempt.andThen fun n? hn? => ?_
    split
    · exact .pure hn?
    · exact .pure hnone
  · refine .bind fun _ => .bind fun _ => .ite ?_ ?_
    · exact .bind fun _ => hname
    · exact .bind fun _ => .ite hname (.pure hnone)

theorem ordinary_yieldExpression : Yields (yieldExpression r ctx) Ordinary :=
  .bind fun _ => .bind fun _ => .bind fun _ => .ite (.ordinary rfl .nil) <| .bind fun _ =>
    .ite (.ordinary rfl .nil) ((hr.assignment _).andThen fun _ hn => .ordinary rfl (.alone hn))

theorem ordinary_conditionalRest (hn : Ordinary n) : Yields (conditionalRest r ctx start n) Ordinary :=
  .bind fun _ => .ite ((hr.assignment _).andThen fun _ hyes => .bind fun _ =>
    (hr.assignment _).andThen fun _ hno => .ordinary rfl (.cons hn (.cons hyes (.alone hno)))) (.pure hn)

theorem ordinary_assignmentRest (hn : Ordinary n) : Yields (assignmentRest r ctx start n) Ordinary := by
  refine .bind fun _ => ?_
  split
  · exact (ordinary_target hn).andThen fun _ htarget => .bind fun _ => (hr.assignment _).andThen fun _ hvalue =>
      .ordinary rfl (.cons htarget (.alone hvalue))
  · exact (ordinary_simpleTarget hn).andThen fun _ htarget => .bind fun _ =>
      (hr.assignment _).andThen fun _ hvalue => .ordinary rfl (.cons htarget (.alone hvalue))
  · exact ordinary_conditionalRest hr hn

theorem ordinary_assignment : Yields (assignment r ctx) Ordinary := by
  refine .bind fun _ => ?_
  extract_lets rest
  have hrest : ∀ yields, Yields (rest yields) Ordinary := by
    intro yields
    refine .ite (ordinary_yieldExpression hr) ((ordinary_arrow? hr).andThen fun n? hn? => ?_)
    split
    · exact .pure (hn? _ rfl)
    · exact .bind fun _ => (ordinary_binary hr).andThen fun _ hn => ordinary_assignmentRest hr hn
  exact .ite (.ite (.given (hrest _)) (.bind fun _ => .bind fun _ => .given (hrest _))) (.given (hrest _))

end Expressions

section Statements

variable (hr : FormsPhrases r)
include hr

omit hr in
theorem stated_expressionStatement (hn : Ordinary n) : Yields (expressionStatement start n) Stated :=
  .bind fun _ => .stated rfl (.alone hn.stated)

theorem stated_expressionOrLabeled : Yields (expressionOrLabeled r ctx) Stated := by
  refine .bind fun _ => (ordinary_expression hr).andThen fun e he => ?_
  split
  · exact .bind fun _ => .ite ((hr.statement _ _).andThen fun _ hs => .stated rfl (.alone hs))
      (stated_expressionStatement he)
  · exact stated_expressionStatement he

theorem ordinary_declarator : Yields (declarator r ctx kind isConst inHead) Ordinary := by
  refine .bind fun _ => (hr.bindingTarget _).andThen fun _ htarget => .bind fun _ => .ite ?_ ?_
  · exact (hr.assignment _).andThen fun _ hvalue =>
      .holder trivial (.cons (htarget _ rfl) (.alone (hvalue _))) fun _ => rfl
  · exact .bind fun _ => .holder trivial (.alone (htarget _ rfl)) fun _ => rfl

theorem ordinary_declarators : Yields (declarators r ctx kind isConst inHead) (AllHave Ordinary) := by
  refine .loop (I := AllHave Ordinary) (fun items hitems => ?_) .nil
  exact (ordinary_declarator hr).andThen fun _ hd => .bind fun _ =>
    .ite (.pure (hitems.cons hd)) (.pure (hitems.cons hd).reverse)

theorem stated_variableStatement : Yields (variableStatement r ctx alone) Stated :=
  .bind fun _ => .bind fun _ => (ordinary_declarators hr).andThen fun _ hitems => .bind fun _ =>
    .bind fun _ => .stated rfl hitems.stated

theorem stated_letStatement : Yields (letStatement r ctx alone) Stated := by
  refine .bind fun _ => .bind fun _ => ?_
  split
  · exact (ordinary_expression hr).andThen fun _ he => stated_expressionStatement he
  · exact ordinary_reference.andThen fun _ he => stated_expressionStatement he
  · exact stated_variableStatement hr

theorem ordinary_expressionInParens : Yields (expressionInParens r ctx) Ordinary :=
  .bind fun _ => (ordinary_expression hr).andThen fun _ he => .bind fun _ => .pure he

theorem stated_soleStatement : Yields (soleStatement r ctx) Stated :=
  hr.statement _ _

theorem stated_ifStatement : Yields (ifStatement r ctx) Stated :=
  .bind fun _ => .bind fun _ => (ordinary_expressionInParens hr).andThen fun _ htest =>
    (stated_soleStatement hr).andThen fun _ hyes => .bind fun _ => .ite
      ((stated_soleStatement hr).andThen fun _ hno => .stated rfl (.cons htest.stated (.cons hyes (.alone hno))))
      (.stated rfl (.cons htest.stated (.alone hyes)))

theorem stated_doWhile : Yields (doWhile r ctx) Stated :=
  .bind fun _ => .bind fun _ => (stated_soleStatement hr).andThen fun _ hbody => .bind fun _ =>
    (ordinary_expressionInParens hr).andThen fun _ htest => .bind fun _ =>
      .stated rfl (.cons hbody (.alone htest.stated))

theorem stated_whileStatement : Yields (whileStatement r ctx) Stated :=
  .bind fun _ => .bind fun _ => (ordinary_expressionInParens hr).andThen fun _ htest =>
    (stated_soleStatement hr).andThen fun _ hbody => .stated rfl (.cons htest.stated (.alone hbody))

theorem stated_withStatement : Yields (withStatement r ctx) Stated :=
  .bind fun _ => .bind fun _ => (ordinary_expressionInParens hr).andThen fun _ hobject =>
    (stated_soleStatement hr).andThen fun _ hbody => .stated rfl (.cons hobject.stated (.alone hbody))

theorem stated_forRest (hhead : AllHave Stated head) :
    Yields (forRest r ctx start head) Stated := by
  refine .bind fun _ => .bind fun _ => ?_
  extract_lets rest
  have hrest {test : List Node} (htest : AllHave Stated test) : Yields (rest test) Stated := by
    refine .bind fun _ => .bind fun _ => ?_
    extract_lets rest
    have hrest {step : List Node} (hstep : AllHave Stated step) : Yields (rest step) Stated :=
      .bind fun _ => (stated_soleStatement hr).andThen fun _ hbody =>
        .stated rfl (((hhead.append htest).append hstep).append (.alone hbody))
    exact .ite (.given (hrest .nil)) ((ordinary_expression hr).andThen fun _ he => .given (hrest (.alone he.stated)))
  exact .ite (.given (hrest .nil)) ((ordinary_expression hr).andThen fun _ he => .given (hrest (.alone he.stated)))

theorem stated_forEachRest (hn : Stated n) : Yields (forEachRest r ctx start n) Stated := by
  refine .bind fun isIn => .bind fun _ => ?_
  extract_lets rest
  have hrest {object : Node} (hobject : Stated object) : Yields (rest object) Stated :=
    .bind fun _ => (stated_soleStatement hr).andThen fun _ hbody =>
      .stated (by cases isIn <;> rfl) (.cons hn (.cons hobject (.alone hbody)))
  exact .ite ((ordinary_expression hr).andThen fun _ he => hrest he.stated)
    ((hr.assignment _).andThen fun _ he => hrest he.stated)

theorem stated_forDeclaration : Yields (forDeclaration r ctx start isAsync) Stated :=
  .bind fun _ => .bind fun _ => (ordinary_declarators hr).andThen fun _ hitems =>
    (Yields.stated rfl hitems.stated).andThen fun _ hhead => .bind fun _ => .ite (stated_forEachRest hr hhead)
      (.bind fun _ => .bind fun _ => stated_forRest hr (.alone hhead))

theorem stated_forExpression : Yields (forExpression r ctx start isAsync) Stated := by
  refine .bind fun _ => .bind fun _ => (ordinary_expression hr).andThen fun head hhead => .bind fun _ =>
    .ite (.bind fun _ => ?_) (.bind fun _ => stated_forRest hr (.alone hhead.stated))
  extract_lets rest
  have hrest : ∀ u, Yields (rest u) Stated := fun _ =>
    (ordinary_target hhead).andThen fun _ htarget => stated_forEachRest hr htarget.stated
  exact .ite (.bind hrest) (.given (hrest ()))

theorem stated_forStatement : Yields (forStatement r ctx) Stated :=
  .bind fun _ => .bind fun _ => .bind fun _ => .bind fun _ => .bind fun _ => .bind fun _ =>
    .ite (.bind fun _ => stated_forRest hr .nil) <| .bind fun _ =>
      .ite (stated_forDeclaration hr) (stated_forExpression hr)

omit hr in
theorem stated_jump : Yields (jump ctx) Stated := by
  refine .bind fun _ => .bind fun _ => .bind fun _ => ?_
  extract_lets rest
  have hrest : ∀ u, Yields (rest u) Stated := fun _ => .bind fun _ => .stated rfl .nil
  exact .ite (.bind fun _ => .given (hrest ())) (.given (hrest ()))

omit hr in
theorem stated_debuggerStatement : Yields debuggerStatement Stated :=
  .bind fun _ => .bind fun _ => .bind fun _ => .stated rfl .nil

theorem stated_returnStatement : Yields (returnStatement r ctx) Stated := by
  refine .bind fun _ => .bind fun _ => .bind fun _ => .bind fun _ => ?_
  extract_lets rest
  have hrest {value : List Node} (hvalue : AllHave Stated value) : Yields (rest value) Stated :=
    .bind fun _ => .stated rfl hvalue
  exact .ite (.given (hrest .nil)) ((ordinary_expression hr).andThen fun _ he => .given (hrest (.alone he.stated)))

theorem stated_throwStatement : Yields (throwStatement r ctx) Stated :=
  .bind fun _ => .bind fun _ => .bind fun _ => .bind fun _ => (ordinary_expression hr).andThen fun _ he =>
    .bind fun _ => .stated rfl (.alone he.stated)

theorem stated_switchCase : Yields (switchCase r ctx) Stated := by
  refine .bind fun _ => .bind fun _ => ?_
  extract_lets rest
  have hrest {test : List Node} (htest : AllHave Stated test) : Yields (rest test) Stated := by
    refine .bind fun _ => .andThen (.loop (I := AllHave Stated) (fun items hitems => ?_) .nil) fun _ hbody =>
      .stated rfl (htest.append hbody)
    exact .bind fun _ => .ite (.pure hitems.reverse)
      ((hr.statement _ _).andThen fun _ hs => .pure (hitems.cons hs))
  exact .ite ((ordinary_expression hr).andThen fun _ he => .given (hrest (.alone he.stated)))
    (.bind fun _ => .given (hrest .nil))

theorem stated_switchStatement : Yields (switchStatement r ctx) Stated := by
  refine .bind fun _ => .bind fun _ => (ordinary_expressionInParens hr).andThen fun _ hvalue => .bind fun _ =>
    .andThen (.loop (I := AllHave Stated) (fun items hitems => ?_) .nil) fun _ hcases =>
      .bind fun _ => .stated rfl (.cons hvalue.stated hcases)
  exact .bind fun _ => .ite (.pure hitems.reverse)
    ((stated_switchCase hr).andThen fun _ hs => .pure (hitems.cons hs))

theorem stated_catchClause : Yields (catchClause r ctx) Stated := by
  refine .bind fun _ => .bind fun _ => .bind fun _ => ?_
  extract_lets rest
  have hrest {param : List Node} (hparam : AllHave (Member .catchClause) param) :
      Yields (rest param) Stated :=
    (stated_block hr).andThen fun _ hbody =>
      .clause rfl (hparam.append (.alone (hbody _ rfl)))
  refine .ite (.bind fun _ => (hr.bindingTarget _).andThen fun target htarget => ?_) (.given (hrest .nil))
  have htarget : AllHave (Member .catchParameter) [target] := .alone (htarget _ rfl)
  have hholds : Kind.catchParameter.Holds [target] := trivial
  exact (Yields.member hholds htarget rfl).andThen fun _ hparam => .bind fun _ =>
    .given (hrest (.alone hparam))

theorem stated_tryStatement : Yields (tryStatement r ctx) Stated := by
  refine .bind fun _ => .bind fun _ => (stated_block hr).andThen fun body hbody => .bind fun _ => ?_
  extract_lets rest
  have hrest {handler : List Node} (hhandler : AllHave Stated handler) :
      Yields (rest handler) Stated := by
    refine .bind fun _ => ?_
    extract_lets rest
    have hrest {finalizer : List Node} (hfinalizer : AllHave Stated finalizer) :
        Yields (rest finalizer) Stated :=
      .bind fun _ => .stated rfl ((hhandler.cons hbody).append hfinalizer)
    exact .ite ((stated_block hr).andThen fun _ hb => .given (hrest (.alone hb))) (.given (hrest .nil))
  exact .ite ((stated_catchClause hr).andThen fun _ hc => .given (hrest (.alone hc))) (.given (hrest .nil))

theorem stated_functionStatement : Yields (functionStatement r ctx alone) Stated := by
  refine (ordinary_function hr).andThen fun f hf => ?_
  split
  · exact .bind fun _ => .pure hf.stated
  · exact .failure

theorem stated_classStatement : Yields (classStatement r ctx alone) Stated :=
  .bind fun _ => .bind fun _ => (ordinary_classFrom hr .nil).imp fun _ => Ordinary.stated

omit hr in
theorem stated_emptyStatement : Yields emptyStatement Stated :=
  .bind fun _ => .bind fun _ => .stated rfl .nil

end Statements

section ModuleItems

theorem named_importSpecifier : Yields importSpecifier Named := by
  refine .bind fun _ => ?_
  extract_lets rest
  have hrest : ∀ u, Yields (rest u) Named := fun _ => named_bindingName
  exact .ite (.bind fun _ => .bind hrest) (.given (hrest ()))

theorem named_importNames : Yields importNames (AllHave Named) :=
  .bind fun _ => .ite (.bind fun _ => named_bindingName.andThen fun _ hn => .pure (.alone hn)) <|
    .bind fun _ => (allHave_commaList named_importSpecifier).andThen fun _ hitems => .bind fun _ => .pure hitems

theorem named_importClause : Yields importClause (AllHave Named) :=
  .bind fun _ => .ite (named_bindingName.andThen fun _ hname => .bind fun _ => .ite
    (named_importNames.andThen fun _ hnames => .pure (hnames.cons hname)) (.pure (.alone hname)))
    named_importNames

theorem ordinary_importDeclaration : Yields importDeclaration Ordinary := by
  refine .bind fun _ => .bind fun _ => .bind fun _ => ?_
  split
  · exact .bind fun _ => .holder trivial .nil fun _ => rfl
  · refine .bind fun _ => ?_
    extract_lets rest
    have hrest : ∀ u, Yields (rest u) Ordinary := fun _ => named_importClause.andThen fun _ hnames =>
      .bind fun _ => .bind fun _ => .holder trivial (hnames.imp fun _ hn => hn _ rfl) fun _ => rfl
    exact .ite (.bind hrest) (.given (hrest ()))

theorem ordinary_exportSpecifiers :
    Yields exportSpecifiers fun items => AllHave Ordinary (items.map (·.1)) := by
  refine .loop (I := fun items => AllHave Ordinary (items.map (·.1))) (fun items hitems => ?_) .nil
  have hitem : Yields exportSpecifier fun item => Ordinary item.1 :=
    .bind fun _ => .bind fun _ => .bind fun _ => .ite
      (.bind fun _ => .pure ((ordinary_iff rfl).mpr .nil)) (.given (.pure ((ordinary_iff rfl).mpr .nil)))
  have hall : AllHave Ordinary (items.reverse.map (·.1)) := List.map_reverse ▸ hitems.reverse
  refine .bind fun _ => .ite (.pure hall) (hitem.andThen fun item hn => .bind fun _ => ?_)
  have hlonger : AllHave Ordinary ((item :: items).map (·.1)) := hitems.cons hn
  split
  · exact .bind fun _ => .pure hlonger
  · exact .pure hlonger

theorem stated_exportList : Yields (exportList start) Stated :=
  .bind fun _ => ordinary_exportSpecifiers.andThen fun _ hitems => .bind fun _ => .bind fun _ => .ite
    (.bind fun _ => .stated rfl .nil) (.bind fun _ => .bind fun _ => .stated rfl hitems.stated)

theorem stated_exportAll : Yields (exportAll start) Stated := by
  refine .bind fun _ => .bind fun _ => ?_
  extract_lets rest
  have hrest : ∀ u, Yields (rest u) Stated := fun _ => .bind fun _ => .bind fun _ => .stated rfl .nil
  exact .ite (.bind fun _ => .bind hrest) (.given (hrest ()))

variable {required : Bool} (hr : FormsPhrases r)
include hr

theorem ordinary_exportedClass (hhead : AllHave Ordinary decorated) :
    Yields (exportedClass r ctx decorated required) Ordinary :=
  .bind fun _ => (ordinary_decorators hr).andThen fun _ hmore => .bind fun _ =>
    ordinary_classFrom hr (hhead.append hmore)

theorem stated_exportDefault : Yields (exportDefault r ctx start) Stated :=
  .bind fun _ => .bind fun _ => .bind fun _ => .ite
    ((ordinary_function hr).andThen fun _ hf => .stated rfl (.alone hf.stated)) <| .bind fun _ => .bind fun _ => .ite
      ((ordinary_exportedClass hr .nil).andThen fun _ hc => .stated rfl (.alone hc.stated))
      ((hr.assignment _).andThen fun _ he => .bind fun _ => .stated rfl (.alone he.stated))

theorem stated_exportDeclaration : Yields (exportDeclaration r ctx) Stated := by
  refine .bind fun _ => .bind fun _ => .bind fun _ => ?_
  split
  · exact stated_exportList
  · exact stated_exportAll
  · exact stated_exportDefault hr
  · refine .bind fun _ => ?_
    extract_lets rest
    have hrest {declared : Node} (h : Stated declared) : Yields (rest declared) Stated :=
      .bind fun _ => .stated rfl (.alone h)
    refine .bind fun _ => .bind fun _ => .ite ((ordinary_function hr).andThen fun _ hf => hrest hf.stated) ?_
    exact .ite ((ordinary_exportedClass hr .nil).andThen fun _ hc => hrest hc.stated)
      ((stated_variableStatement hr).andThen fun _ hv => hrest hv)

theorem stated_decoratedExport (hhead : AllHave Ordinary decorated) :
    Yields (decoratedExport r ctx decorated) Stated :=
  .bind fun _ => .bind fun _ => .bind fun _ => (ordinary_exportedClass hr hhead).andThen fun _ hc =>
    .bind fun _ => .stated rfl (.alone hc.stated)

theorem stated_decoratedClass : Yields (decoratedClass r ctx alone) Stated :=
  .bind fun _ => .bind fun _ => (ordinary_decorators hr).andThen fun _ hhead => .bind fun _ =>
    .ite (stated_decoratedExport hr hhead) ((ordinary_classFrom hr hhead).imp fun _ => Ordinary.stated)

end ModuleItems

theorem stated_statement (hr : FormsPhrases r) : Yields (statement r ctx alone) Stated := by
  have hexpression : Yields (expressionOrLabeled r ctx) Stated := stated_expressionOrLabeled hr
  refine .bind fun _ => ?_
  split
  · exact stated_block hr
  · exact stated_emptyStatement
  · exact stated_decoratedClass hr
  · split
    · exact stated_ifStatement hr
    · exact stated_doWhile hr
    · exact stated_whileStatement hr
    · exact stated_forStatement hr
    · exact stated_jump
    · exact stated_jump
    · exact stated_withStatement hr
    · exact stated_switchStatement hr
    · exact stated_throwStatement hr
    · exact stated_tryStatement hr
    · exact stated_debuggerStatement
    · exact stated_classStatement hr
    · exact stated_exportDeclaration hr
    · exact stated_returnStatement hr
    · exact stated_variableStatement hr
    · exact stated_variableStatement hr
    · exact stated_functionStatement hr
    · exact .bind fun _ => .ite (ordinary_importDeclaration.imp fun _ => Ordinary.stated) hexpression
    · exact .bind fun _ => .ite (stated_functionStatement hr) hexpression
    · exact .bind fun _ => .ite (stated_variableStatement hr) hexpression
    · exact .bind fun _ => .ite (stated_variableStatement hr) hexpression
    · exact .ite hexpression (stated_letStatement hr)
    · exact hexpression
  · exact hexpression

theorem formsPhrases_phrase {depth : Nat} : FormsPhrases (phrase depth) := by
  -- a phrase is made of phrases that are one level less deep
  induction depth with
  | zero => exact ⟨fun _ => .failure, fun _ => .failure, fun _ _ => .failure, fun _ => .failure,
      fun _ => .failure, fun _ _ => .failure, fun _ => .failure⟩
  | succ depth ih =>
    exact ⟨fun _ => ordinary_assignment ih, fun _ => ordinary_unary ih, fun _ _ => ordinary_binary ih,
      fun _ => ordinary_newTarget ih, fun _ => ordinary_leftHand ih, fun _ _ => stated_statement ih,
      fun _ => part_bindingTarget ih⟩

theorem formed_program {depth : Nat} {p : Program} {s s' : State} (h : program depth s = some (p, s')) :
    Formed p.tree := by
  have hyields : Yields (program depth) fun p => Formed p.tree :=
    (stated_statements formsPhrases_phrase).andThen fun _ hitems => .bind fun _ => .bind fun _ =>
      .pure (.of_members trivial (hitems.imp fun _ hn => hn _ rfl))
  exact hyields s p s' h

/-- Every script that can be read is formed. -/
theorem formed_parse? {text : String} {p : Program} (h : Program.parse? text = some p) : Formed p.tree := by
  obtain ⟨s, -, h⟩ := Option.bind_eq_some_iff.mp h
  obtain ⟨⟨q, s'⟩, hq, h⟩ := Option.bind_eq_some_iff.mp h
  cases h
  exact formed_program hq

end FlatBundle.Script
