import FlatBundle.Proofs.Script.Class
import FlatBundle.Script.Expression

/-!
Targets and expressions.
-/

namespace FlatBundle.Script

/-- Taken as a target, an expression keeps its sites, except those that stand in no target. -/
theorem goesThrough_sites : GoesThrough fun ns ns' => (sitesOf ns').Sublist (sitesOf ns) where
  refl _ := List.Sublist.refl _
  drop _ := List.nil_sublist _
  cons h hns := by simpa using h.append hns
  node hk hk' h := by
    have hsite := Kind.not_isSite_of_groups hk
    have hsite' := Kind.not_isSite_of_groups hk'
    simpa [sites_of_not_isSite hsite, sites_of_not_isSite hsite'] using h

open Reader

variable {source : List Char} {r : Recur} {ctx : Ctx} {s₀ : State} {moved : Bool} {n : Node}

theorem readsOn_target : ReadsOn source moved s₀ [n] (target n) moved alone := by
  unfold target
  split
  · rename_i taken htarget
    refine .look (reads_modify fun _ => ⟨rfl, rfl, rfl, rfl, rfl⟩) fun _ => .pure_of_sublist ?_
    exact goesThrough_sites.targets.1 _ _ _ htarget
  · exact .failure

theorem readsOn_simpleTarget : ReadsOn source moved s₀ [n] (simpleTarget n) moved alone :=
  .look reads_check fun _ => .pure rfl

theorem reads_expression (hr : ReadsPhrases source r) :
    Reads source false (expression r ctx) alone := by
  refine .of_start fun s₀ => .read (hr.all _) fun first => .look reads_isMark fun _ =>
    .ite (.pure rfl) ?_
  refine .andThen (.loop List.reverse id (fun items => ?_) rfl) fun items => .node rfl rfl
  refine .look reads_eatMark fun _ => .ite ?_ (.pure rfl)
  exact .read (hr.all _) fun _ => .pure (by simp [roundNodes])

theorem reads_literal : Reads source true literal alone :=
  .of_start fun _ => .move reads_take fun _ => .node rfl rfl

theorem reads_spreadOr (hr : ReadsPhrases source r) {item : Reader Node}
    (h : Reads source false item alone) : Reads source false (spreadOr r ctx item) alone :=
  .of_start fun _ => .look reads_eatMark fun _ =>
    .ite (.read (hr.all _) fun _ => .node rfl rfl) (.last h)

theorem reads_literalItems {close : Mark} {item : Reader Node} (h : Reads source false item alone) :
    Reads source false (literalItems close item) id := by
  refine .loop List.reverse id (fun s₀ items => ?_) rfl
  refine .look reads_isMark fun _ => .ite (.pure rfl) ?_
  refine .read h fun n => .look reads_isMark fun _ => .ite (.pure (by simp [roundNodes])) ?_
  refine .look reads_token fun comma => .move reads_expectMark fun _ => .look reads_isMark fun _ => ?_
  exact .weaken (.ite (.pure (by simp [roundNodes])) (.pure (by simp [roundNodes])))

theorem reads_arrayLiteral (hr : ReadsPhrases source r) :
    Reads source true (arrayLiteral r ctx) alone := by
  refine .of_start fun _ => .move reads_take fun _ => .many (reads_literalItems ?_) fun _ =>
    .move reads_take fun _ => .node rfl rfl
  exact .of_on fun _ => .look reads_isMark fun _ =>
    .ite (.look reads_token fun _ => .pure rfl) (.last (reads_spreadOr hr (hr.all _)))

theorem reads_shorthandProperty (hr : ReadsPhrases source r) {start : Nat} :
    Reads source true (shorthandProperty r ctx start) alone := by
  refine .of_on fun _ => .gather reads_reference fun _ => .look reads_eatMark fun _ =>
    .ite ?_ (.node rfl rfl)
  exact .read (hr.all _) fun _ => .look (reads_modify fun _ => ⟨rfl, rfl, rfl, rfl, rfl⟩) fun _ =>
    .node rfl rfl

theorem reads_literalMember (hr : ReadsPhrases source r) :
    Reads source true (literalMember r ctx) alone := by
  refine .of_start fun s₀ => .look reads_eatModifier fun isAsync => .look reads_eatMark fun _ => ?_
  extract_lets rest
  have hrest : ∀ accessor, ReadsOn source false s₀ [] (rest accessor) true alone := by
    intro accessor
    refine .look reads_tokenKind fun _ => .look reads_ahead fun _ =>
      .ite (.last (reads_shorthandProperty hr)) ?_
    refine .gather (reads_memberKey hr) fun ⟨_, key⟩ => .look reads_isMark fun _ => .ite ?_ ?_
    · exact .read (reads_methodFunction hr) fun _ => .node rfl rfl
    · exact .move reads_expectMark fun _ => .read (hr.all _) fun _ => .node rfl rfl
  exact .ite (.given (hrest _)) (.look reads_accessorKind hrest)

theorem reads_objectLiteral (hr : ReadsPhrases source r) :
    Reads source true (objectLiteral r ctx) alone :=
  .of_start fun _ => .move reads_take fun _ =>
    .many (reads_literalItems (reads_spreadOr hr (reads_literalMember hr).weaken)) fun _ =>
      .move reads_take fun _ => .node rfl rfl

theorem reads_template (hr : ReadsPhrases source r) {hasTag : Bool} :
    Reads source false (template r ctx hasTag) alone := by
  refine .of_start fun s₀ => .loop (fun (st : List (Option String) × List Node) => st.2.reverse)
    alone (fun ⟨pieces, values⟩ => ?_) rfl
  refine .look reads_tokenKind fun _ => ?_
  split
  · refine .look reads_check fun _ => .move reads_advance fun _ => .weaken (.ite ?_ ?_)
    · exact ReadsOn.andThen (.node rfl rfl) fun _ => .pure rfl
    · refine .read (reads_expression hr) fun value => .look reads_isMark fun _ =>
        .look reads_check fun _ => .look (reads_rescan fun s kind rest h => ?_) fun _ =>
          .pure (by simp [roundNodes])
      obtain ⟨⟨_, _, _⟩, hrest, h⟩ := Option.bind_eq_some_iff.mp h
      cases h
      exact .template hrest
  · exact .failure

theorem reads_regularExpression : Reads source true regularExpression alone := by
  refine .of_start fun _ => .look (reads_rescan fun s kind rest h => ?_) fun _ =>
    .move reads_advance fun _ => .node rfl rfl
  obtain ⟨_, hrest, h⟩ := Option.bind_eq_some_iff.mp h
  cases h
  exact .regularExpression hrest

theorem reads_parenthesized (hr : ReadsPhrases source r) :
    Reads source true (parenthesized r ctx) alone :=
  .of_on fun _ => .move reads_take fun _ => .read (reads_expression hr) fun _ =>
    .move reads_expectMark fun _ => .pure rfl

theorem reads_superword : Reads source true superword alone :=
  .of_on fun _ => .gather reads_literal fun _ => .look reads_isMark fun _ => .look reads_isMark fun _ =>
    .look reads_isMark fun _ => .look reads_check fun _ => .pure rfl

theorem reads_importExpression (hr : ReadsPhrases source r) :
    Reads source true (importExpression r ctx) alone := by
  refine .of_start fun s₀ => .move reads_take fun _ => .look reads_eatMark fun _ => ?_
  extract_lets rest
  have hrest : ∀ isMeta, ReadsOn source true s₀ [] (rest isMeta) true alone := fun isMeta =>
    .ite (.node rfl rfl) (.move reads_expectMark fun _ => .many (reads_commaList (hr.all _)) fun _ =>
      .look reads_check fun _ => .move reads_take fun _ => .node rfl rfl)
  refine .ite (.look reads_eatWord fun _ => .ite (.given (hrest _)) ?_) (.given (hrest _))
  exact .look reads_isWord fun _ => .look reads_isWord fun _ => .look reads_check fun _ =>
    .move reads_take fun _ => .given (hrest _)

theorem reads_callArguments (hr : ReadsPhrases source r) :
    Reads source true (callArguments r ctx) id :=
  .of_on fun _ => .move reads_take fun _ =>
    .many (reads_commaList (reads_spreadOr hr (hr.all _))) fun _ => .move reads_take fun _ => .pure rfl

theorem encloses_callArguments (hr : ReadsPhrases source r) :
    Encloses source (·.isSolid) (callArguments r ctx) id :=
  .andThen reads_take encloses_take fun _ => .of_on fun _ =>
    .many (reads_commaList (reads_spreadOr hr (hr.all _))) fun _ => .move reads_take fun _ => .pure rfl

theorem reads_newExpression (hr : ReadsPhrases source r) :
    Reads source true (newExpression r ctx) alone := by
  refine .of_start fun s₀ => .move reads_take fun _ => .look reads_eatMark fun _ => .ite ?_ ?_
  · exact .move reads_expectWord fun _ => .node rfl rfl
  · refine .read (hr.all _) fun callee => .look reads_check fun _ => .look reads_isMark fun _ => ?_
    extract_lets rest
    exact .ite (.gather (reads_callArguments hr) fun _ => .node rfl rfl) (.given (.node rfl rfl))

theorem reads_stringLiteral {value : String} : Reads source true (stringLiteral value) alone :=
  .of_start fun _ => .move reads_take fun _ => .node rfl rfl

theorem reads_classExpression (hr : ReadsPhrases source r) :
    Reads source true (classExpression r ctx) alone :=
  .of_start fun _ => .many (reads_decorators hr) fun _ => reads_classFrom hr

theorem reads_primary (hr : ReadsPhrases source r) :
    Reads source false (primary r ctx) alone := by
  refine .of_on fun _ => .look reads_atFunction fun _ => .ite (.last (reads_function hr).weaken) ?_
  refine .look reads_tokenKind fun _ => ?_
  split
  · exact .last reads_stringLiteral.weaken
  · exact .last reads_literal.weaken
  · exact .last (reads_template hr)
  · exact .last (reads_arrayLiteral hr).weaken
  · exact .last (reads_objectLiteral hr).weaken
  · exact .last (reads_parenthesized hr).weaken
  · exact .last reads_regularExpression.weaken
  · exact .last reads_regularExpression.weaken
  · exact .last (reads_classExpression hr).weaken
  · exact .last (reads_classExpression hr).weaken
  · exact .last reads_literal.weaken
  · exact .last reads_literal.weaken
  · exact .last reads_literal.weaken
  · exact .last reads_literal.weaken
  · exact .last (reads_newExpression hr).weaken
  · exact .last reads_superword.weaken
  · exact .last (reads_importExpression hr).weaken
  · exact .last reads_reference.weaken

section Ends

theorem ends_expression (hr : ReadsPhrases source r) : EndsOn source [] (expression r ctx) alone := by
  refine .look reads_start fun _ => .read (hr.ends _) fun first => .look reads_isMark fun _ =>
    .ite (.pure rfl) ?_
  refine .andThen (.loop (fun _ => [first]) nothing _ fun items => ?_) fun _ => .node
  exact .look reads_eatMark fun _ => .ite (.look (hr.all _) fun _ => .pure rfl)
    (.pure_of_subset (List.nil_subset _))

theorem ends_commaList {close : Mark} {item : Reader Node} (h : EndsOn source [] item alone) :
    EndsOn source [] (commaList close item) id := by
  refine .loop List.reverse id [] fun items => ?_
  refine .look reads_isMark fun _ => .ite (.pure rfl) (.read h fun n => ?_)
  have hlonger : (n :: items).reverse ⊆ items.reverse ++ [n] := by simp
  exact .look reads_isMark fun _ => .ite (.pure_of_subset hlonger) <|
    .look reads_expectMark fun _ => .pure_of_subset hlonger

theorem stops_literal : Stops literal :=
  .bind fun _ => .bind fun _ => .node

theorem ends_spreadOr (hr : ReadsPhrases source r) {item : Reader Node} (h : EndsOn source [] item alone) :
    EndsOn source [] (spreadOr r ctx item) alone :=
  .look reads_start fun _ => .look reads_eatMark fun _ => .ite (.look (hr.all _) fun _ => .node) h

theorem stops_arrayLiteral : Stops (arrayLiteral r ctx) :=
  .bind fun _ => .bind fun _ => .bind fun _ => .bind fun _ => .node

theorem stops_objectLiteral : Stops (objectLiteral r ctx) :=
  .bind fun _ => .bind fun _ => .bind fun _ => .bind fun _ => .node

theorem ends_template (hr : ReadsPhrases source r) {hasTag : Bool} :
    EndsOn source [] (template r ctx hasTag) alone := by
  refine .look reads_start fun _ => .loop nothing alone _ fun ⟨pieces, values⟩ => .look reads_tokenKind fun _ => ?_
  split
  · refine .look reads_check fun _ => .look reads_advance fun _ => .ite ?_ ?_
    · exact .andThen .node fun _ => .pure rfl
    · refine .look (reads_expression hr) fun _ => .look reads_isMark fun _ => .look reads_check fun _ =>
        .look (reads_rescan fun s kind rest h => ?_) fun _ => .pure_of_subset (List.nil_subset _)
      obtain ⟨⟨_, _, _⟩, hrest, h⟩ := Option.bind_eq_some_iff.mp h
      cases h
      exact .template hrest
  · exact .failure

theorem stops_regularExpression : Stops regularExpression :=
  .bind fun _ => .bind fun _ => .bind fun _ => .node

theorem ends_parenthesized (hr : ReadsPhrases source r) : EndsOn source [] (parenthesized r ctx) alone :=
  .look reads_take fun _ => .read (ends_expression hr) fun _ => .look reads_expectMark fun _ =>
    .pure rfl

theorem ends_superword : EndsOn source [] superword alone :=
  .read (.of_stops reads_literal stops_literal) fun _ => .look reads_isMark fun _ => .look reads_isMark fun _ =>
    .look reads_isMark fun _ => .look reads_check fun _ => .pure rfl

theorem stops_importExpression : Stops (importExpression r ctx) := by
  refine .bind fun _ => .bind fun _ => .bind fun _ => ?_
  extract_lets rest
  have hrest : ∀ isMeta, Stops (rest isMeta) := fun _ =>
    .ite .node (.bind fun _ => .bind fun _ => .bind fun _ => .bind fun _ => .node)
  refine .ite (.bind fun _ => .ite (.given (hrest _)) ?_) (.given (hrest _))
  exact .bind fun _ => .bind fun _ => .bind fun _ => .bind fun _ => .given (hrest _)

theorem stops_newExpression : Stops (newExpression r ctx) := by
  refine .bind fun _ => .bind fun _ => .bind fun _ => .ite (.bind fun _ => .node) ?_
  refine .bind fun _ => .bind fun _ => .bind fun _ => ?_
  extract_lets rest
  exact .ite (.bind fun _ => .node) (.given .node)

theorem stops_stringLiteral {value : String} : Stops (stringLiteral value) :=
  .bind fun _ => .bind fun _ => .node

theorem stops_classExpression : Stops (classExpression r ctx) :=
  .bind fun _ => .bind fun _ => stops_classFrom

theorem ends_primary (hr : ReadsPhrases source r) : EndsOn source [] (primary r ctx) alone := by
  refine .look reads_atFunction fun _ => .ite (.of_stops (reads_function hr) stops_function) ?_
  refine .look reads_tokenKind fun _ => ?_
  have hliteral : EndsOn source [] literal alone := .of_stops reads_literal stops_literal
  have hregular : EndsOn source [] regularExpression alone :=
    .of_stops reads_regularExpression stops_regularExpression
  have hclass : EndsOn source [] (classExpression r ctx) alone :=
    .of_stops (reads_classExpression hr) stops_classExpression
  split
  · exact .of_stops reads_stringLiteral stops_stringLiteral
  · exact hliteral
  · exact ends_template hr
  · exact .of_stops (reads_arrayLiteral hr) stops_arrayLiteral
  · exact .of_stops (reads_objectLiteral hr) stops_objectLiteral
  · exact ends_parenthesized hr
  · exact hregular
  · exact hregular
  · exact hclass
  · exact hclass
  · exact hliteral
  · exact hliteral
  · exact hliteral
  · exact hliteral
  · exact .of_stops (reads_newExpression hr) stops_newExpression
  · exact ends_superword
  · exact .of_stops (reads_importExpression hr) stops_importExpression
  · exact .of_stops reads_reference stops_reference

end Ends

/-- The nodes of an operand with its accesses so far. -/
def Access.nodes (a : Access) : List Node :=
  [a.node]

theorem readsOn_dotAccess (hn : Ordinary n) :
    ReadsOn source moved s₀ [n] (dotAccess s₀.here n) true alone := by
  refine .look reads_tokenKind fun _ => ?_
  split
  · exact .move reads_advance fun _ => .node rfl rfl
  · exact .past reads_wordText encloses_wordText fun _ => .site rfl rfl nofun nofun (.alone hn.quiet) (fun _ => nofun) rfl

theorem readsOn_indexAccess (hr : ReadsPhrases source r) (hn : Ordinary n) :
    ReadsOn source moved s₀ [n] (indexAccess r ctx s₀.here n) true alone :=
  .move reads_take fun _ => .knowing (reads_expression hr) (ordinary_expression hr.forms) fun _ hkey =>
    .past reads_expectMark encloses_expectMark fun _ =>
      .site rfl rfl nofun nofun (.cons hn.quiet (.alone hkey.quiet)) nofun rfl

theorem readsOn_accessStep (hr : ReadsPhrases source r) {a : Access} (ha : Ordinary a.node) :
    ReadsOn source false s₀ a.nodes (accessStep r ctx s₀.here a) false
      (roundNodes Access.nodes Access.nodes) := by
  refine .look reads_tokenKind fun _ => ?_
  split
  · exact .move reads_take fun _ => .andThen (readsOn_dotAccess ha) fun _ => .weaken (.pure rfl)
  · exact .ite (.pure rfl) (.andThen (readsOn_indexAccess hr ha) fun _ => .weaken (.pure rfl))
  · refine .look reads_ahead fun _ => .ite (.pure rfl) ?_
    refine .move reads_take fun _ => .look reads_isMark fun _ => .ite ?_ ?_
    · exact .andThen (readsOn_indexAccess hr ha) fun _ => .weaken (.pure rfl)
    · exact .andThen (readsOn_dotAccess ha) fun _ => .weaken (.pure rfl)
  · exact .look reads_check fun _ => .read (reads_template hr) fun _ =>
      .andThen (.node rfl rfl) fun _ => .pure rfl
  · exact .pure rfl

theorem endsOn_dotAccess {ns : List Node} {start : Nat} : EndsOn source ns (dotAccess start n) alone := by
  refine .look reads_tokenKind fun _ => ?_
  split
  · exact .look reads_advance fun _ => .node
  · exact .look reads_wordText fun _ => .node

theorem endsOn_indexAccess (hr : ReadsPhrases source r) {ns : List Node} {start : Nat} :
    EndsOn source ns (indexAccess r ctx start n) alone :=
  .look reads_take fun _ => .look (reads_expression hr) fun _ => .look reads_expectMark fun _ => .node

theorem endsOn_accessStep (hr : ReadsPhrases source r) {a : Access} {start : Nat} :
    EndsOn source a.nodes (accessStep r ctx start a) (roundNodes Access.nodes Access.nodes) := by
  refine .look reads_tokenKind fun _ => ?_
  split
  · exact .look reads_take fun _ => .andThen endsOn_dotAccess fun _ => .pure rfl
  · exact .ite (.pure rfl) (.andThen (endsOn_indexAccess hr) fun _ => .pure rfl)
  · refine .look reads_ahead fun _ => .ite (.pure rfl) ?_
    refine .look reads_take fun _ => .look reads_isMark fun _ => .ite ?_ ?_
    · exact .andThen (endsOn_indexAccess hr) fun _ => .pure rfl
    · exact .andThen endsOn_dotAccess fun _ => .pure rfl
  · exact .look reads_check fun _ => .look (reads_template hr) fun _ => .andThen .node fun _ => .pure rfl
  · exact .pure rfl

theorem endsOn_accesses (hr : ReadsPhrases source r) {a : Access} {start : Nat} :
    EndsOn source a.nodes (accesses r ctx start a) Access.nodes :=
  .loop Access.nodes Access.nodes a fun _ => endsOn_accessStep hr

theorem readsOn_accesses (hr : ReadsPhrases source r) {a : Access} (ha : Ordinary a.node) :
    ReadsOn source false s₀ a.nodes (accesses r ctx s₀.here a) false Access.nodes :=
  .loopKeeping Access.nodes Access.nodes (fun _ => readsOn_accessStep hr)
    (fun _ ha => (ordinary_accessStep hr.forms ha).imp fun _ => Access.Forms.keeps) ha rfl

theorem reads_newTarget (hr : ReadsPhrases source r) :
    Reads source false (newTarget r ctx) alone := by
  refine .of_start fun _ => .knowing (reads_primary hr) (ordinary_primary hr.forms) fun _ hn =>
    .andThen (readsOn_accesses hr (a := ⟨_, false⟩) hn) ?_
  exact fun _ => .look reads_check fun _ => .pure rfl

theorem endsOn_callStep (hr : ReadsPhrases source r) {a : Access} {start : Nat} :
    EndsOn source a.nodes (callStep r ctx start a) (roundNodes Access.nodes Access.nodes) := by
  refine .andThen (endsOn_accesses hr) fun a => .look reads_eatMark fun _ => .look reads_isMark fun _ => .ite ?_ ?_
  · exact .look (reads_callArguments hr) fun _ => .andThen .node fun _ => .pure rfl
  · exact .look reads_check fun _ => .pure rfl

/-- Arguments end behind the parenthesis that opens them, which what is called ends before. -/
theorem endsFirst_of_callArguments (hr : ReadsPhrases source r) {s s' : State} {args : List Node}
    (hs : s.Sound source) (hparen : s.token.kind = .mark .parenOpen) (hn : n.span.stop ≤ s.lastEnd)
    (h : callArguments r ctx s = some (args, s')) : EndsFirst (n :: args) := by
  obtain ⟨u, s₁, htake, h⟩ := bind_eq_some h
  obtain ⟨items, s₂, hitems, h⟩ := bind_eq_some h
  obtain ⟨_, _, -, h⟩ := bind_eq_some h
  cases h
  have hpast : s.here < s₁.lastEnd := (encloses_take s u s₁ hs (hparen ▸ rfl) htake).1
  have hended := ends_commaList (ends_spreadOr hr (hr.ends _)) s₁.lastEnd s₁ args s₂
    ⟨(reads_take s u s₁ hs htake).after, Nat.le_refl _, nofun⟩ hitems
  intro m hm
  have hstop := (hended.inside m hm).1
  have hend := hs.lastEnd_le
  omega

/-- All that is in arguments ends before the parenthesis that closes them. -/
theorem closed_of_callArguments (hr : ReadsPhrases source r) {s s' : State} {args : List Node} (hs : s.Sound source)
    (h : callArguments r ctx s = some (args, s')) :
    s.lastEnd < s'.lastEnd ∧ ∀ m ∈ sitesOf args, m.span.stop < s'.lastEnd := by
  obtain ⟨u, s₁, htake, h⟩ := bind_eq_some h
  obtain ⟨items, s₂, hitems, h⟩ := bind_eq_some h
  obtain ⟨_, s₃, hclose, h⟩ := bind_eq_some h
  cases h
  have hfirst := reads_take s u s₁ hs htake
  have hlist := reads_commaList (reads_spreadOr hr (hr.all _)) s₁ args s₂ hfirst.after hitems
  have hpast : s₂.here < s'.lastEnd :=
    (encloses_take s₂ _ s' hlist.after (closing_of_commaList hitems ▸ rfl) hclose).1
  have hend : s₂.lastEnd ≤ s₂.here := hlist.after.lastEnd_le
  refine ⟨?_, fun m hm => ?_⟩
  · have hle := hfirst.onward.lastEnd_le
    have hle' := hlist.onward.lastEnd_le
    omega
  · have hstop := (hlist.laidOut.of_siteIn (.of_mem hm)).2.2
    omega

theorem passed_call (hr : ReadsPhrases source r) {a : Access} {inChain : Bool} {s s' : State}
    {round : Round Access Access} (ha : Ordinary a.node) (hp : Passed source false s₀ a.nodes s)
    (hparen : s.token.kind = .mark .parenOpen) (hcallee : a.node.span.stop ≤ s.lastEnd)
    (h : (do
      let args ← callArguments r ctx
      return Round.again ⟨← node .call s₀.here (a.node :: args), inChain⟩ : Reader (Round Access Access)) s =
        some (round, s')) :
    Passed source true s₀ (roundNodes Access.nodes Access.nodes round) s' := by
  obtain ⟨args, s₁, hargs, h⟩ := bind_eq_some h
  have hpassed := hp.trans (reads_callArguments hr s args s₁ hp.after hargs)
  have hnarrow := hp.narrow_append (encloses_callArguments hr s args s₁ hp.after (hparen ▸ rfl) hargs)
  have hfirst := endsFirst_of_callArguments hr hp.after hparen hcallee hargs
  obtain ⟨hpast, hinside⟩ := closed_of_callArguments hr hp.after hargs
  have hquiet := (ordinary_callArguments hr.forms s args s₁ hargs).quiet
  have hclosed : ∀ m ∈ sitesOf (a.nodes ++ args), m.span.stop < s₁.lastEnd := by
    intro m hm
    rw [sitesOf_append] at hm
    rcases List.mem_append.mp hm with hm | hm
    · exact Nat.lt_of_le_of_lt (hp.laidOut.of_siteIn (.of_mem hm)).2.2 hpast
    · exact hinside m hm
  cases h
  exact hpassed.site rfl ⟨hnarrow.1, nofun, trivial, nofun, .cons ha.quiet hquiet, fun _ => hfirst,
    fun _ => hclosed, fun _ => hnarrow⟩

theorem passed_callStep (hr : ReadsPhrases source r) {a : Access} {s s' : State} {round : Round Access Access}
    (ha : Ordinary a.node) (hended : Ended source 0 a.nodes s) (hp : Passed source false s₀ a.nodes s)
    (h : callStep r ctx s₀.here a s = some (round, s')) :
    Passed source false s₀ (roundNodes Access.nodes Access.nodes round) s' := by
  obtain ⟨a', s₁, haccesses, h⟩ := bind_eq_some h
  have hp₁ := readsOn_accesses hr ha s a' s₁ hp haccesses
  have ha' := ordinary_accesses hr.forms ha s a' s₁ haccesses
  have hended₁ := endsOn_accesses hr 0 s a' s₁ hended haccesses
  obtain ⟨optional, s₂, heat, h⟩ := bind_eq_some h
  have hone := reads_eatMark s₁ optional s₂ hp₁.after heat
  have hp₂ := hp₁.trans hone
  rw [List.append_nil, Bool.or_false] at hp₂
  obtain ⟨there, _, hmark, h⟩ := bind_eq_some h
  cases hmark
  split at h
  next hm =>
    have hcallee := (hended₁.inside a'.node (List.mem_singleton_self _)).2
    exact (passed_call hr ha' hp₂ (eq_of_beq hm) (Nat.le_trans hcallee hone.onward.lastEnd_le) h).weaken
  next =>
    have hdone : ReadsOn source false s₀ a'.nodes (do
        check (!optional)
        return .done a') false (roundNodes Access.nodes Access.nodes) :=
      .look reads_check fun _ => .pure rfl
    exact hdone s₂ round s' hp₂ h

theorem reads_leftHand (hr : ReadsPhrases source r) : Reads source false (leftHand r ctx) alone := by
  intro s n s' hs h
  obtain ⟨start, _, hstart, h⟩ := bind_eq_some h
  cases hstart
  obtain ⟨first, s₁, hprimary, h⟩ := bind_eq_some h
  obtain ⟨a, s₂, hcalls, h⟩ := bind_eq_some h
  have hfirst : Ordinary (Access.mk first false).node := ordinary_primary hr.forms s first s₁ hprimary
  have hended : Ended source 0 (Access.mk first false).nodes s₁ :=
    ends_primary hr 0 s first s₁ ⟨hs, Nat.zero_le _, nofun⟩ hprimary
  have hp : Passed source false s a.nodes s₂ := by
    refine passed_loopFor (I := fun a s => Ordinary a.node ∧ Ended source 0 a.nodes s) Access.nodes Access.nodes
      (fun _ _ _ _ hst => passed_callStep hr hst.1 hst.2) (fun a s round s' hst hround => ?_)
      ⟨hfirst, hended⟩ (reads_primary hr s first s₁ hs hprimary) hcalls
    have hforms := ordinary_callStep hr.forms hst.1 s round s' hround
    have hends := endsOn_callStep hr 0 s round s' hst.2 hround
    cases round with
    | again a => exact ⟨hforms, hends⟩
    | done a => trivial
  have hrest : ReadsOn source false s a.nodes
      (if a.inChain then node .chain s.here [a.node] else return a.node) false alone :=
    .ite (.node rfl rfl) (.pure rfl)
  exact hrest s₂ n s' hp h

theorem ends_leftHand (hr : ReadsPhrases source r) : EndsOn source [] (leftHand r ctx) alone :=
  .look reads_start fun _ => .read (ends_primary hr) fun first =>
    .andThen (.loop Access.nodes Access.nodes ⟨first, false⟩ fun _ => endsOn_callStep hr) fun _ =>
      .ite .node (.pure rfl)

theorem reads_update (hr : ReadsPhrases source r) : Reads source false (update r ctx) alone := by
  refine .of_start fun _ => .look reads_tokenKind fun _ => .ite ?_ ?_
  · exact .move reads_take fun _ => .read (hr.all _) fun _ => .andThen readsOn_simpleTarget fun _ =>
      .weaken (.node rfl rfl)
  · refine .read (reads_leftHand hr) fun _ => .look reads_token fun _ => .ite ?_ (.pure rfl)
    exact .andThen readsOn_simpleTarget fun _ => .move reads_take fun _ => .weaken (.node rfl rfl)

theorem reads_prefixed (hr : ReadsPhrases source r) {kind : Kind} (hk : kind.isSite = false) :
    Reads source true (prefixed r ctx kind) alone :=
  .of_start fun _ => .move reads_take fun _ => .read (hr.all _) fun _ =>
    .andThen (.node hk rfl) fun _ => .look reads_isMark fun _ => .look reads_check fun _ => .pure rfl

theorem readsFrom_typeof (hr : ReadsPhrases source r) :
    ReadsFrom source (·.isSolid) true (prefixed r ctx .typeof) alone :=
  .of_start fun _ => .around reads_take encloses_take fun _ =>
    .knowing (hr.all _) (hr.forms.unary _) fun _ hn =>
      .andThen (.site rfl rfl nofun nofun (.alone hn.quiet) nofun rfl) fun _ =>
        .look reads_isMark fun _ => .look reads_check fun _ => .pure rfl

theorem reads_unary (hr : ReadsPhrases source r) : Reads source false (unary r ctx) alone := by
  refine .of_on fun _ => .atToken fun t => ?_
  split
  next kind hkind =>
    by_cases htypeof : kind = .typeof
    · subst htypeof
      refine .last ((readsFrom_typeof hr).imp ?_).weaken
      rintro _ rfl
      unfold unaryKind? at hkind
      split at hkind <;> first | rfl | cases hkind
    · refine .of_on (.last (reads_prefixed hr ?_).weaken)
      unfold unaryKind? at hkind
      split at hkind <;> cases hkind <;> first | rfl | exact absurd rfl htypeof
  next =>
    refine .of_on (.look reads_isWord fun _ => .ite (.ite (.last (reads_prefixed hr rfl).weaken) ?_)
      (.last (reads_update hr)))
    exact .look reads_ahead fun _ => .look reads_check fun _ => .last (reads_update hr)

theorem readsOn_binaryRest (hr : ReadsPhrases source r) {start strength : Nat} {leftParen : Bool} :
    ReadsOn source false s₀ [n] (binaryRest r ctx start strength leftParen n) false alone := by
  refine .loop alone alone (fun left => .look reads_tokenKind fun _ => ?_) rfl
  split
  · exact .pure rfl
  · refine .ite (.pure rfl) (.move reads_take fun _ => .look reads_isMark fun _ => ?_)
    exact .read (hr.all _) fun _ => .look reads_check fun _ => .andThen (.node rfl rfl) fun _ =>
      .weaken (.pure rfl)

theorem reads_privateIn (hr : ReadsPhrases source r) :
    Reads source true (privateIn r ctx) alone :=
  .of_start fun _ => .move reads_advance fun _ => .move reads_expectWord fun _ =>
    .read (hr.all _) fun _ => .look reads_check fun _ => .node rfl rfl

theorem reads_binary (hr : ReadsPhrases source r) {strength : Nat} :
    Reads source false (binary r ctx strength) alone := by
  refine .of_start fun _ => .look reads_isMark fun _ => .look reads_tokenKind fun _ => ?_
  extract_lets rest
  exact .ite (.read (reads_privateIn hr) fun _ => readsOn_binaryRest hr)
    (.read (reads_unary hr) fun _ => readsOn_binaryRest hr)

theorem reads_arrowLikelihood : Reads source false arrowLikelihood nothing :=
  fun _ _ _ hs hr => by cases hr; exact .refl hs

theorem readsOn_arrowRest (hr : ReadsPhrases source r) {start : Nat} {isAsync : Bool} :
    ReadsOn source moved s₀ [n] (arrowRest r ctx start isAsync n) true alone := by
  refine .look reads_onNewLine fun _ => .look reads_check fun _ => .move reads_expectMark fun _ =>
    .look reads_isMark fun _ => ?_
  extract_lets rest
  have hrest : ∀ body, ReadsOn source true s₀ [n, body] (rest body) true alone := fun body =>
    .node rfl rfl
  refine .ite (.read (reads_bodyInBraces hr) hrest) ?_
  refine .look reads_start fun _ => .read (hr.all _) fun value => ?_
  exact .andThen (.wrap rfl rfl) fun _ => .andThen (.wrap rfl rfl) hrest

theorem reads_arrowWithParens (hr : ReadsPhrases source r) :
    Reads source true (arrowWithParens r ctx) alone :=
  .of_start fun _ => .look reads_eatWord fun _ => .read (reads_parameters hr) fun _ =>
    readsOn_arrowRest hr

theorem reads_arrowWithName (hr : ReadsPhrases source r) {start : Nat} {isAsync : Bool} :
    Reads source true (arrowWithName r ctx start isAsync) alone :=
  .of_on fun _ => .read reads_bindingName fun _ =>
    (readsOn_arrowRest hr).of_sites (by simp)

theorem reads_arrow? (hr : ReadsPhrases source r) :
    Reads source false (arrow? r ctx) fun n? => (n?.map alone).getD [] := by
  refine .of_on fun _ => .look reads_arrowLikelihood fun likelihood => ?_
  split
  · exact .read (reads_arrowWithParens hr) fun _ => .pure rfl
  · refine .many (reads_attempt (reads_arrowWithParens hr)) fun n? => ?_
    split <;> exact .pure rfl
  · refine .look reads_start fun _ => .look reads_ahead fun _ => .ite ?_ ?_
    · exact .move reads_take fun _ => .read (reads_arrowWithName hr) fun _ => .weaken (.pure rfl)
    · exact .look reads_ahead fun _ =>
        .ite (.read (reads_arrowWithName hr) fun _ => .pure rfl) (.pure rfl)

theorem reads_yieldExpression (hr : ReadsPhrases source r) :
    Reads source true (yieldExpression r ctx) alone :=
  .of_start fun _ => .move reads_take fun _ => .look reads_token fun _ =>
    .ite (.node rfl rfl) (.look reads_eatMark fun _ =>
      .ite (.node rfl rfl) (.read (hr.all _) fun _ => .node rfl rfl))

theorem readsOn_conditionalRest (hr : ReadsPhrases source r) {start : Nat} :
    ReadsOn source false s₀ [n] (conditionalRest r ctx start n) false alone :=
  .look reads_eatMark fun _ => .ite
    (.read (hr.all _) fun _ => .move reads_expectMark fun _ => .read (hr.all _) fun _ =>
      .weaken (.node rfl rfl))
    (.pure rfl)

theorem readsOn_assignmentRest (hr : ReadsPhrases source r) {start : Nat} :
    ReadsOn source false s₀ [n] (assignmentRest r ctx start n) false alone := by
  refine .look reads_tokenKind fun _ => ?_
  split
  · exact .andThen readsOn_target fun _ => .move reads_take fun _ => .read (hr.all _) fun _ =>
      .weaken (.node rfl rfl)
  · exact .andThen readsOn_simpleTarget fun _ => .move reads_take fun _ => .read (hr.all _) fun _ =>
      .weaken (.node rfl rfl)
  · exact readsOn_conditionalRest hr

theorem reads_assignment (hr : ReadsPhrases source r) :
    Reads source false (assignment r ctx) alone := by
  refine .of_on fun s₀ => .look reads_isWord fun _ => ?_
  extract_lets rest
  have hrest : ∀ yields, ReadsOn source false s₀ [] (rest yields) false alone := by
    intro yields
    refine .ite (.last (reads_yieldExpression hr).weaken) (.many (reads_arrow? hr) fun n? => ?_)
    split
    · exact .pure rfl
    · exact .look reads_start fun _ => .read (reads_binary hr) fun _ => readsOn_assignmentRest hr
  exact .ite (.ite (.given (hrest _)) (.look reads_ahead fun _ => .look reads_check fun _ =>
    .given (hrest _))) (.given (hrest _))

section Ends

variable {ns : List Node} {start : Nat}

theorem endsOn_target : EndsOn source ns (target n) fun _ => ns := by
  unfold target
  split
  · exact .look (reads_modify fun _ => ⟨rfl, rfl, rfl, rfl, rfl⟩) fun _ => .pure rfl
  · exact .failure

theorem endsOn_simpleTarget : EndsOn source ns (simpleTarget n) fun _ => ns :=
  .look reads_check fun _ => .pure rfl

theorem stops_privateIn : Stops (privateIn r ctx) :=
  .bind fun _ => .bind fun _ => .bind fun _ => .bind fun _ => .bind fun _ => .node

theorem stops_arrowRest {isAsync : Bool} : Stops (arrowRest r ctx start isAsync n) := by
  refine .bind fun _ => .bind fun _ => .bind fun _ => .bind fun _ => ?_
  extract_lets rest
  have hrest : ∀ body, Stops (rest body) := fun _ => .node
  exact .ite (.bind hrest) (.bind fun _ => .bind fun _ => .bind fun _ => .bind hrest)

theorem stops_yieldExpression : Stops (yieldExpression r ctx) :=
  .bind fun _ => .bind fun _ => .bind fun _ => .ite .node (.bind fun _ => .ite .node (.bind fun _ => .node))

variable (hr : ReadsPhrases source r)
include hr

theorem ends_update : EndsOn source [] (update r ctx) alone := by
  refine .look reads_start fun _ => .look reads_tokenKind fun _ => .ite ?_ ?_
  · exact .look reads_take fun _ => .look (hr.all _) fun _ => .andThen endsOn_simpleTarget fun _ => .node
  · refine .read (ends_leftHand hr) fun n => .look reads_token fun _ => .ite ?_ (.pure rfl)
    exact .andThen endsOn_simpleTarget fun _ => .look reads_take fun _ => .node

theorem ends_prefixed {kind : Kind} : EndsOn source [] (prefixed r ctx kind) alone :=
  .look reads_start fun _ => .look reads_take fun _ => .look (hr.all _) fun _ => .andThen .node fun _ =>
    .look reads_isMark fun _ => .look reads_check fun _ => .pure rfl

theorem ends_unary : EndsOn source [] (unary r ctx) alone := by
  refine .look reads_tokenKind fun _ => ?_
  split
  · exact ends_prefixed hr
  · refine .look reads_isWord fun _ => .ite (.ite (ends_prefixed hr) ?_) (ends_update hr)
    exact .look reads_ahead fun _ => .look reads_check fun _ => ends_update hr

theorem endsOn_binaryRest {strength : Nat} {leftParen : Bool} :
    EndsOn source [n] (binaryRest r ctx start strength leftParen n) alone := by
  refine .loop alone alone n fun left => .look reads_tokenKind fun _ => ?_
  split
  · exact .pure rfl
  · refine .ite (.pure rfl) (.look reads_take fun _ => .look reads_isMark fun _ => ?_)
    exact .look (hr.all _) fun _ => .look reads_check fun _ => .andThen .node fun _ => .pure rfl

theorem ends_binary {strength : Nat} : EndsOn source [] (binary r ctx strength) alone := by
  refine .look reads_start fun _ => .look reads_isMark fun _ => .look reads_tokenKind fun _ => ?_
  extract_lets rest
  have hrest : ∀ left, EndsOn source [left] (rest left) alone := fun _ => endsOn_binaryRest hr
  exact .ite (.read (.of_stops (reads_privateIn hr) stops_privateIn) hrest) (.read (ends_unary hr) hrest)

theorem ends_arrow? : EndsOn source [] (arrow? r ctx) fun n? => (n?.map alone).getD [] := by
  have hparens : EndsOn source [] (arrowWithParens r ctx) alone :=
    .of_stops (reads_arrowWithParens hr) (.bind fun _ => .bind fun _ => .bind fun _ => stops_arrowRest)
  have hname {start : Nat} {isAsync : Bool} : EndsOn source [] (arrowWithName r ctx start isAsync) alone :=
    .of_stops (reads_arrowWithName hr) (.bind fun _ => stops_arrowRest)
  refine .look reads_arrowLikelihood fun likelihood => ?_
  split
  · exact .read hparens fun _ => .pure rfl
  · refine .andThen (.attempt hparens) fun n? => ?_
    split <;> exact .pure rfl
  · refine .look reads_start fun _ => .look reads_ahead fun _ => .ite ?_ (.look reads_ahead fun _ => .ite ?_ ?_)
    · exact .look reads_take fun _ => .read hname fun _ => .pure rfl
    · exact .read hname fun _ => .pure rfl
    · exact .pure_of_subset (List.nil_subset _)

theorem endsOn_conditionalRest : EndsOn source [n] (conditionalRest r ctx start n) alone :=
  .look reads_eatMark fun _ => .ite
    (.look (hr.all _) fun _ => .look reads_expectMark fun _ => .look (hr.all _) fun _ => .node)
    (.pure rfl)

theorem endsOn_assignmentRest : EndsOn source [n] (assignmentRest r ctx start n) alone := by
  refine .look reads_tokenKind fun _ => ?_
  split
  · exact .andThen endsOn_target fun _ => .look reads_take fun _ => .look (hr.all _) fun _ => .node
  · exact .andThen endsOn_simpleTarget fun _ => .look reads_take fun _ => .look (hr.all _) fun _ => .node
  · exact endsOn_conditionalRest hr

theorem ends_assignment : EndsOn source [] (assignment r ctx) alone := by
  refine .look reads_isWord fun _ => ?_
  extract_lets rest
  have hrest : ∀ yields, EndsOn source [] (rest yields) alone := by
    intro yields
    refine .ite (.of_stops (reads_yieldExpression hr) stops_yieldExpression) (.andThen (ends_arrow? hr) fun n? => ?_)
    split
    · exact .pure rfl
    · exact .look reads_start fun _ => .read (ends_binary hr) fun _ => endsOn_assignmentRest hr
  exact .ite (.ite (.given (hrest _)) (.look reads_ahead fun _ => .look reads_check fun _ =>
    .given (hrest _))) (.given (hrest _))

end Ends

end FlatBundle.Script
