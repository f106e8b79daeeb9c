import FlatBundle.Proofs.Script.Binding
import FlatBundle.Script.Class

/-!
Functions and classes.
-/

namespace FlatBundle.Script

open Reader

variable {source : List Char} {r : Recur} {ctx : Ctx} {role : Role} {required : Bool}
  {isAsync isGenerator : Bool}

theorem reads_statements (hr : ReadsPhrases source r) {ends : Reader Bool}
    (he : Reads source false ends nothing) : Reads source false (statements r ctx ends) id := by
  refine .loop (fun st => st.1.reverse) id (fun s₀ st => ?_) rfl
  refine .look he fun _ => ?_
  split
  · exact .pure rfl
  · refine .read (hr.all _) fun s => ?_
    split
    · have hs : (Node.mk .directive s.span []).sites = [] := sites_of_not_isSite rfl
      exact .weaken (.pure_of_sublist (by simp [roundNodes, hs]))
    · exact .weaken (.pure (by simp [roundNodes]))

theorem reads_blockStatements (hr : ReadsPhrases source r) :
    Reads source true (blockStatements r ctx) id := by
  refine .of_on fun _ => .move reads_expectMark fun _ => .many (.loop List.reverse id ?_ rfl)
    fun (_ : List Node) => .move reads_take fun _ => .pure rfl
  intro s₀ items
  refine .look reads_isMark fun _ => ?_
  split
  · exact .pure rfl
  · exact .read (hr.all _) fun _ => .weaken (.pure (by simp [roundNodes]))

theorem reads_block (hr : ReadsPhrases source r) : Reads source true (block r ctx) alone :=
  .of_start fun _ => .gather (reads_blockStatements hr) fun _ => .node rfl rfl

theorem reads_bodyInBraces (hr : ReadsPhrases source r) :
    Reads source true (bodyInBraces r ctx) alone :=
  .of_start fun _ => .move reads_expectMark fun _ => .many (reads_statements hr reads_isMark) fun _ =>
    .move reads_take fun _ => .node rfl rfl

theorem reads_functionRest (hr : ReadsPhrases source r) :
    Reads source true (functionRest r isAsync isGenerator) id :=
  .of_on fun _ => .gather (reads_parameters hr) fun _ => .read (reads_bodyInBraces hr) fun _ =>
    .pure rfl

theorem reads_functionFrom (hr : ReadsPhrases source r) {start : Nat} :
    Reads source true (functionFrom r ctx start role isAsync required) alone := by
  refine .of_on fun s₀ => .move reads_expectWord fun _ => .look reads_eatMark fun isGenerator => ?_
  refine .look reads_tokenKind fun _ => ?_
  extract_lets rest
  have hrest : ∀ name, ReadsOn source true s₀ name (rest name) true alone := fun name =>
    .gather (reads_functionRest hr) fun _ => .node rfl rfl
  split
  · exact .read reads_bindingName fun name => .given (hrest [name])
  · exact .look reads_check fun _ => .given (hrest [])

theorem reads_atFunction : Reads source false atFunction nothing := by
  refine .of_on fun _ => .look reads_isWord fun _ => ?_
  split
  · exact .pure rfl
  · exact .last reads_ahead

theorem reads_function (hr : ReadsPhrases source r) :
    Reads source true (function r ctx role required) alone :=
  .of_on fun _ => .look reads_start fun _ => .look reads_eatWord fun _ =>
    .last (reads_functionFrom hr)

theorem stops_function : Stops (function r ctx role required) := by
  refine .bind fun _ => .bind fun isAsync => .bind fun _ => .bind fun isGenerator => .bind fun _ => ?_
  extract_lets rest
  have hrest : ∀ name, Stops (rest name) := fun _ => .bind fun _ => .node
  exact .ite (.bind fun _ => .given (hrest _)) (.bind fun _ => .given (hrest _))

theorem reads_methodFunction (hr : ReadsPhrases source r) {a : Accessor} :
    Reads source true (methodFunction r a isAsync isGenerator) alone :=
  .of_start fun _ => .gather (reads_functionRest hr) fun _ => .look reads_check fun _ =>
    .node rfl rfl

theorem reads_decorators (hr : ReadsPhrases source r) :
    Reads source false (decorators r ctx) id := by
  refine .loop List.reverse id (fun s₀ items => ?_) rfl
  refine .look reads_eatMark fun _ => ?_
  split
  · exact .read (hr.all _) fun _ => .weaken (.pure (by simp [roundNodes]))
  · exact .pure rfl

theorem reads_elementKey (hr : ReadsPhrases source r) :
    Reads source true (elementKey r ctx) Prod.snd := by
  refine .of_on fun _ => .look reads_tokenKind fun _ => ?_
  split
  · exact .move reads_advance fun _ => .pure rfl
  · exact .last (reads_memberKey hr)

theorem reads_accessorKind : Reads source false accessorKind nothing := by
  refine .of_on fun _ => .look reads_ahead fun _ => ?_
  split
  · exact .pure rfl
  refine .look reads_eatModifier fun _ => ?_
  split
  · exact .pure rfl
  refine .look reads_eatModifier fun _ => ?_
  split <;> exact .pure rfl

theorem reads_propertyValue (hr : ReadsPhrases source r) :
    Reads source false (propertyValue r) id := by
  refine .of_on fun s₀ => .look reads_eatMark fun _ => ?_
  extract_lets rest
  have hrest : ∀ {moved} value, ReadsOn source moved s₀ value (rest value) false id :=
    fun value => .look reads_statementEnd fun _ => .weaken (.pure rfl)
  split
  · exact .read (hr.all _) fun value => .given (hrest [value])
  · exact .given (hrest [])

theorem reads_namedElement (hr : ReadsPhrases source r) {start : Nat} {s₀ : State} {moved : Bool}
    {decorators : List Node} :
    ReadsOn source moved s₀ decorators (namedElement r ctx start decorators) true alone := by
  refine .look reads_eatModifier fun isStatic => .look reads_eatModifier fun isAccessor => ?_
  extract_lets afterAsync
  have hafterAsync : ∀ isAsync, ReadsOn source moved s₀ decorators (afterAsync isAsync) true
      alone := by
    intro isAsync
    unfold afterAsync
    extract_lets afterStar
    have hafterStar : ∀ isGenerator, ReadsOn source moved s₀ decorators (afterStar isGenerator) true
        alone := by
      intro isGenerator
      unfold afterStar
      extract_lets atKey
      have hatKey : ∀ accessor, ReadsOn source moved s₀ decorators (atKey accessor) true alone := by
        intro accessor
        refine .gather (reads_elementKey hr) fun ⟨name, key⟩ => .look reads_isMark fun _ => ?_
        split
        · exact .look reads_check fun _ => .read (reads_methodFunction hr) fun _ => .node rfl rfl
        · exact .look reads_check fun _ => .many (reads_propertyValue hr) fun _ => .node rfl rfl
      split
      · exact .given (hatKey _)
      · exact .look reads_accessorKind hatKey
    split
    · exact .given (hafterStar _)
    · exact .look reads_eatMark hafterStar
  split
  · exact .given (hafterAsync _)
  · exact .look reads_eatModifier hafterAsync

theorem reads_classElement (hr : ReadsPhrases source r) :
    Reads source true (classElement r ctx) alone := by
  refine .of_on fun s₀ => .look reads_start fun _ => .many (reads_decorators hr) fun decorators =>
    .look reads_ahead fun _ => ?_
  split
  · exact .forget (.move reads_take fun _ => .gather (reads_blockStatements hr) fun _ =>
      .node rfl rfl)
  · exact reads_namedElement hr

theorem reads_classElements (hr : ReadsPhrases source r) :
    Reads source true (classElements r ctx) id := by
  refine .of_on fun _ => .move reads_expectMark fun _ => .many (.loop List.reverse id ?_ rfl)
    fun (_ : List Node) => .move reads_take fun _ => .pure rfl
  intro s₀ items
  refine .look reads_isMark fun _ => ?_
  split
  · exact .pure rfl
  refine .look reads_eatMark fun _ => ?_
  split
  · exact .pure rfl
  · exact .read (reads_classElement hr) fun _ => .weaken (.pure (by simp [roundNodes]))

/-- The decorators may have been read long before the class itself. -/
theorem reads_classFrom (hr : ReadsPhrases source r) {start : Nat} {s₀ : State} {moved : Bool}
    {decorators : List Node} :
    ReadsOn source moved s₀ decorators (classFrom r ctx start decorators role required) true
      alone := by
  refine .move reads_expectWord fun _ => .look reads_tokenKind fun _ => ?_
  extract_lets rest
  have hrest : ∀ name, ReadsOn source true s₀ (decorators ++ name) (rest name) true alone := by
    intro name
    refine .look reads_eatWord fun _ => ?_
    extract_lets rest
    have hrest : ∀ parent, ReadsOn source true s₀ (decorators ++ name ++ parent) (rest parent) true
        alone := fun parent => .gather (reads_classElements hr) fun _ => .node rfl rfl
    split
    · exact .read (hr.all _) fun parent => .given (hrest [parent])
    · exact .given ((hrest []).of_sites (by simp))
  split
  · exact .read reads_bindingName fun name => .given (hrest [name])
  · exact .look reads_check fun _ => .given ((hrest []).of_sites (by simp))

theorem stops_classFrom {start : Nat} {decorators : List Node} :
    Stops (classFrom r ctx start decorators role required) := by
  refine .bind fun _ => .bind fun _ => ?_
  extract_lets rest
  have hrest : ∀ name, Stops (rest name) := by
    intro name
    refine .bind fun _ => ?_
    extract_lets rest
    have hrest : ∀ parent, Stops (rest parent) := fun _ => .bind fun _ => .node
    exact .ite (.bind fun _ => .given (hrest _)) (.given (hrest _))
  exact .ite (.bind fun _ => .given (hrest _)) (.bind fun _ => .given (hrest _))

end FlatBundle.Script
