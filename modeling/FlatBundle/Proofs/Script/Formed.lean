import FlatBundle.Proofs.Script.Reader
import FlatBundle.Proofs.Script.Target
import FlatBundle.Script.Program

/-!
What can stand where. Names are declared by functions, classes and imports, and in the patterns of declarators and
parameters, but in no other place. No statement is a part of an expression, a pattern or a class, but inside of a
function or a static block.
-/

namespace FlatBundle.Script

open Reader

/-- The kinds of declared names and of the parts of patterns around them. -/
def Kind.isPatternPart : Kind → Bool
  | .binding _ | .arrayPattern | .objectPattern | .patternMember _ | .patternDefault | .patternRest => true
  | _ => false

/-- The kinds of nodes that have patterns. -/
def Kind.holdsPatterns : Kind → Bool
  | .declarator _ | .parameters | .catchParameter => true
  | .arrayPattern | .objectPattern | .patternMember _ | .patternDefault | .patternRest => true
  | _ => false

/-- The kinds of nodes that have names of their own. -/
def Kind.holdsNames : Kind → Bool
  | .function _ _ _ _ | .classDef _ _ | .importDeclaration => true
  | _ => false

def Kind.isFunction : Kind → Bool
  | .function _ _ _ _ | .arrow _ => true
  | _ => false

def Kind.isCatchClause : Kind → Bool
  | .catchClause => true
  | _ => false

/-- The kinds of statements, and of what holds statements and is no part of an expression. -/
def Kind.isStated : Kind → Bool
  | .body | .exportDeclaration => true
  | kind => kind.isStatement

def Kind.holdsStatements : Kind → Bool
  | .program => true
  | kind => kind.isStated || kind.opensBody

/-- Whether the children of a node can be of a kind. -/
def Kind.admits (kind : Kind) : Kind → Bool
  | .program => false
  | .binding _ => kind.holdsPatterns || kind.holdsNames
  | .arrayPattern | .objectPattern | .patternMember _ | .patternDefault | .patternRest => kind.holdsPatterns
  | .parameters => kind.isFunction
  | .catchParameter => kind.isCatchClause
  | inner => !inner.isStated || kind.holdsStatements

/-- A default is no part of a pattern, and a template has a piece more than it has substitutions. -/
def Kind.Holds (kind : Kind) (children : List Node) : Prop :=
  match kind with
  | .patternDefault => ∀ n ∈ children.tail, n.kind.isPatternPart = false
  | .template pieces => pieces.length = children.length + 1
  | _ => True

/-- A node in which patterns, parameters and statements stand only where they can, and no script is in another
one. -/
inductive Formed : Node → Prop
  | mk {kind : Kind} {span : Span} {children : List Node} (admits : ∀ n ∈ children, kind.admits n.kind)
      (holds : kind.Holds children) (inside : ∀ n ∈ children, Formed n) : Formed (.mk kind span children)

theorem Formed.admits {n m : Node} (h : Formed n) (hm : m ∈ n.children) : n.kind.admits m.kind := by
  cases h with
  | mk admits => exact admits m hm

theorem Formed.child {n m : Node} (h : Formed n) (hm : m ∈ n.children) : Formed m := by
  cases h with
  | mk _ _ inside => exact inside m hm

/-- A node that can be a child of nodes of a kind. -/
structure Member (kind : Kind) (n : Node) : Prop where
  formed : Formed n
  admitted : kind.admits n.kind

/-- A node that can be where patterns are. -/
def Part (n : Node) : Prop :=
  ∀ kind : Kind, kind.holdsPatterns → Member kind n

/-- A node that can be anywhere. -/
def Ordinary (n : Node) : Prop :=
  ∀ kind, Member kind n

/-- A node that can be where statements are. -/
def Stated (n : Node) : Prop :=
  ∀ kind : Kind, kind.holdsStatements → Member kind n

/-- A name that can be where names and patterns are. -/
def Named (n : Node) : Prop :=
  ∀ kind : Kind, kind.holdsPatterns || kind.holdsNames → Member kind n

theorem Ordinary.part {n : Node} (h : Ordinary n) : Part n :=
  fun kind _ => h kind

theorem Ordinary.stated {n : Node} (h : Ordinary n) : Stated n :=
  fun kind _ => h kind

theorem Named.part {n : Node} (h : Named n) : Part n :=
  fun kind hk => h kind (Bool.or_eq_true_iff.mpr (.inl hk))

theorem Ordinary.not_isPatternPart {n : Node} (h : Ordinary n) : n.kind.isPatternPart = false := by
  have hadmitted := (h .program).admitted
  cases hk : n.kind <;> first | rfl | (rw [hk] at hadmitted; cases hadmitted)

/-- All nodes of a list have a property, which lists made of them then have. -/
def AllHave (P : Node → Prop) (ns : List Node) : Prop :=
  ∀ n ∈ ns, P n

namespace AllHave

variable {P Q : Node → Prop} {n : Node} {ns ms : List Node}

theorem nil : AllHave P [] :=
  nofun

theorem cons (h : P n) (hns : AllHave P ns) : AllHave P (n :: ns) :=
  List.forall_mem_cons.mpr ⟨h, hns⟩

theorem alone (h : P n) : AllHave P [n] :=
  cons h nil

theorem append (h : AllHave P ns) (h' : AllHave P ms) : AllHave P (ns ++ ms) :=
  List.forall_mem_append.mpr ⟨h, h'⟩

theorem reverse (h : AllHave P ns) : AllHave P ns.reverse :=
  fun n hn => h n (List.mem_reverse.mp hn)

theorem imp (h : AllHave P ns) (hPQ : ∀ n, P n → Q n) : AllHave Q ns :=
  fun n hn => hPQ n (h n hn)

end AllHave

section Statements

variable {kind inner : Kind} {n : Node}

theorem Kind.holdsStatements_of_isStated (h : kind.isStated) : kind.holdsStatements := by
  cases kind <;> first | rfl | cases h

theorem Kind.holdsStatements_of_isFunction (h : kind.isFunction) : kind.holdsStatements := by
  cases kind <;> first | rfl | cases h

theorem Kind.admits_of_isStated (h : inner.isStated) (hk : kind.holdsStatements) : kind.admits inner := by
  have hlast : (!inner.isStated || kind.holdsStatements) = true := by rw [hk, Bool.or_true]
  cases inner <;> first | exact hlast | cases h

theorem Kind.not_isStated_of_admits (hk : kind.holdsStatements = false) (h : kind.admits inner) :
    inner.isStated = false ∧ inner ≠ .program := by
  cases inner <;> first
    | (cases h; done)
    | exact ⟨rfl, by intro heq; cases heq⟩
    | exact absurd (hk.symm.trans h) Bool.false_ne_true

/-- What is no statement has none but in functions and static blocks. -/
theorem Formed.quiet (h : Formed n) (hn : n.kind.isStated = false) (hprogram : n.kind ≠ .program) : Quiet n := by
  induction h with
  | @mk kind span children admits holds inside ih =>
    cases hbody : kind.opensBody with
    | true => exact .body hbody
    | false =>
      have hkind : kind.isStatement = false ∧ kind.holdsStatements = false := by
        cases kind <;> first
          | exact ⟨rfl, rfl⟩
          | exact absurd rfl hprogram
          | (cases hn; done)
          | cases hbody
      refine .plain hkind.1 fun n hmem => ?_
      obtain ⟨hstated, hother⟩ := Kind.not_isStated_of_admits hkind.2 (admits n hmem)
      exact ih n hmem hstated hother

theorem Member.quiet (h : Member kind n) (hk : kind.holdsStatements = false) : Quiet n := by
  obtain ⟨hstated, hprogram⟩ := Kind.not_isStated_of_admits hk h.admitted
  exact h.formed.quiet hstated hprogram

theorem Ordinary.quiet (h : Ordinary n) : Quiet n :=
  (h .call).quiet rfl

theorem Part.quiet (h : Part n) : Quiet n :=
  (h .arrayPattern rfl).quiet rfl

theorem AllHave.stated {ns : List Node} (h : AllHave Ordinary ns) : AllHave Stated ns :=
  h.imp fun _ => Ordinary.stated

theorem AllHave.quiet {ns : List Node} (h : AllHave Ordinary ns) : AllQuiet ns :=
  fun n hn => (h n hn).quiet

end Statements

/-- The kinds of nodes that can be anywhere, and whose children can be. -/
def Kind.isPlain : Kind → Bool
  | .program | .declarator _ | .parameters | .catchParameter => false
  | .binding _ | .arrayPattern | .objectPattern | .patternMember _ | .patternDefault | .patternRest => false
  | .function _ _ _ _ | .arrow _ | .staticBlock | .classDef _ _ | .importDeclaration | .template _ => false
  | kind => !kind.isStated

theorem Kind.admits_of_isPlain {kind : Kind} (h : kind.isPlain) (outer : Kind) : outer.admits kind := by
  cases kind <;> first | rfl | cases h

theorem Kind.holds_of_isPlain {kind : Kind} {ns : List Node} (h : kind.isPlain || kind.isStated) :
    kind.Holds ns := by
  cases kind <;> first | exact True.intro | cases h

theorem Kind.not_holds_of_isPlain {kind : Kind} (h : kind.isPlain) :
    kind.holdsPatterns = false ∧ kind.holdsNames = false ∧ kind.isFunction = false ∧
      kind.isCatchClause = false ∧ kind.holdsStatements = false := by
  cases kind <;> first | exact ⟨rfl, rfl, rfl, rfl, rfl⟩ | cases h

/-- What a plain node can have can be anywhere. -/
theorem Kind.admits_of_admits {kind inner : Kind} (hk : kind.isPlain) (h : kind.admits inner) (outer : Kind) :
    outer.admits inner := by
  obtain ⟨hpatterns, hnames, hfunction, hcatch, hstatements⟩ := Kind.not_holds_of_isPlain hk
  unfold Kind.admits at h ⊢
  split at h
  · cases h
  · rw [hpatterns, hnames] at h
    cases h
  iterate 5
    rw [hpatterns] at h
    cases h
  · rw [hfunction] at h
    cases h
  · rw [hcatch] at h
    cases h
  · rw [hstatements, Bool.or_false] at h
    exact Bool.or_eq_true_iff.mpr (.inl h)

theorem Kind.admits_of_isPatternPart {kind outer : Kind} (h : kind.isPatternPart) (houter : outer.holdsPatterns) :
    outer.admits kind := by
  cases kind <;> first | exact houter | exact Bool.or_eq_true_iff.mpr (.inl houter) | cases h

theorem Kind.isPlain_of_groups {kind : Kind} (h : kind.groups) : kind.isPlain := by
  cases kind <;> first | rfl | cases h

variable {kind : Kind} {span : Span} {start : Nat} {children : List Node} {n : Node}

theorem Formed.of_members (holds : kind.Holds children) (h : AllHave (Member kind) children) :
    Formed (.mk kind span children) :=
  .mk (fun n hn => (h n hn).admitted) holds fun n hn => (h n hn).formed

/-- A plain node is ordinary if what is in it is. -/
theorem ordinary_iff (hk : kind.isPlain) : Ordinary (.mk kind span children) ↔ AllHave Ordinary children := by
  constructor
  · intro h n hn outer
    have hformed := (h .program).formed
    exact ⟨hformed.child hn, Kind.admits_of_admits hk (hformed.admits hn) outer⟩
  · intro h outer
    have hformed : Formed (.mk kind span children) :=
      .of_members (Kind.holds_of_isPlain (Bool.or_eq_true_iff.mpr (.inl hk))) (h.imp fun _ hn => hn kind)
    exact ⟨hformed, Kind.admits_of_isPlain hk outer⟩

theorem ordinary_hole : Ordinary (.mk .hole span []) :=
  (ordinary_iff rfl).mpr .nil

namespace Reader.Yields

theorem ordinary (hk : kind.isPlain) (h : AllHave Ordinary children) :
    Yields (Reader.node kind start children) Ordinary := by
  intro s n s' hr
  cases hr
  exact (ordinary_iff hk).mpr h

/-- A node with the children that it can have can be in all nodes that admit it. -/
theorem member {outer : Kind} (holds : kind.Holds children) (h : AllHave (Member kind) children)
    (houter : outer.admits kind) : Yields (Reader.node kind start children) (Member outer) := by
  intro s n s' hr
  cases hr
  exact ⟨.of_members holds h, houter⟩

/-- A node with special children, such as a function with its name and parameters. -/
theorem holder (holds : kind.Holds children) (h : AllHave (Member kind) children)
    (houter : ∀ outer : Kind, outer.admits kind) : Yields (Reader.node kind start children) Ordinary := by
  intro s n s' hr
  cases hr
  exact fun outer => ⟨.of_members holds h, houter outer⟩

/-- A statement, or what holds some, with the children that it can have. -/
theorem clause (hk : kind.isStated) (h : AllHave (Member kind) children) :
    Yields (Reader.node kind start children) Stated := by
  intro s n s' hr
  cases hr
  have hholds : kind.Holds children := Kind.holds_of_isPlain (Bool.or_eq_true_iff.mpr (.inr hk))
  exact fun outer houter => ⟨.of_members hholds h, Kind.admits_of_isStated hk houter⟩

theorem stated (hk : kind.isStated) (h : AllHave Stated children) :
    Yields (Reader.node kind start children) Stated :=
  .clause hk (h.imp fun _ hn => hn kind (Kind.holdsStatements_of_isStated hk))

/-- A part of a pattern with patterns in it. -/
theorem part (hk : kind.isPatternPart && kind.holdsPatterns) (holds : kind.Holds children)
    (h : AllHave Part children) : Yields (Reader.node kind start children) Part := by
  intro s n s' hr
  cases hr
  obtain ⟨hpart, hpatterns⟩ := Bool.and_eq_true_iff.mp hk
  have hmembers : AllHave (Member kind) children := h.imp fun _ hn => hn kind hpatterns
  exact fun outer houter => ⟨.of_members holds hmembers, Kind.admits_of_isPatternPart hpart houter⟩

end Reader.Yields

/-- Every phrase reads a node that may be in others: statements only where they can be, and parts of patterns only
for what is declared. -/
structure FormsPhrases (r : Recur) : Prop where
  assignment : ∀ ctx, Yields (r (.assignment ctx)) Ordinary
  unary : ∀ ctx, Yields (r (.unary ctx)) Ordinary
  binary : ∀ ctx strength, Yields (r (.binary ctx strength)) Ordinary
  newTarget : ∀ ctx, Yields (r (.newTarget ctx)) Ordinary
  leftHand : ∀ ctx, Yields (r (.leftHand ctx)) Ordinary
  statement : ∀ ctx alone, Yields (r (.statement ctx alone)) Stated
  bindingTarget : ∀ ctx, Yields (r (.bindingTarget ctx)) Part

variable {P : Node → Prop} {r : Recur} {ctx : Ctx} {item : Reader Node} {close : Mark} {role : Role}
  {decorated head : List Node} {isStatic isAsync isGenerator required : Bool}

theorem allHave_commaList (h : Yields item P) : Yields (commaList close item) (AllHave P) := by
  refine .loop (I := AllHave P) (fun items hitems => ?_) .nil
  refine .bind fun _ => .ite (.pure hitems.reverse) (h.andThen fun n hn => ?_)
  exact .bind fun _ => .ite (.pure (hitems.cons hn).reverse) (.bind fun _ => .pure (hitems.cons hn))

theorem ordinary_reference : Yields (reference ctx) Ordinary :=
  .bind fun _ => .bind fun _ => .bind fun _ => .ordinary rfl .nil

theorem named_bindingName : Yields (bindingName ctx) Named := by
  refine .bind fun _ => .bind fun name => .bind fun _ => ?_
  intro s n s' hr
  cases hr
  exact fun outer houter => ⟨.mk nofun trivial nofun, houter⟩

theorem part_bindingName : Yields (bindingName ctx) Part :=
  named_bindingName.imp fun _ => Named.part

theorem part_bindingRest (h : Yields item Part) : Yields (bindingRest close item) Part :=
  .bind fun _ => .bind fun _ => h.andThen fun _ hn => .bind fun _ => .bind fun _ => .part rfl trivial (.alone hn)

section Patterns

variable (hr : FormsPhrases r)
include hr

theorem ordinary_memberKey : Yields (memberKey r ctx) fun key => AllHave Ordinary key.2 := by
  refine .bind fun _ => ?_
  split
  iterate 3 exact .bind fun _ => .pure .nil
  · exact .bind fun _ => (hr.assignment _).andThen fun _ hkey => .bind fun _ => .pure (.alone hkey)
  · exact .failure

omit hr in
theorem part_patternDefault {target value : Node} (ht : Part target) (hv : Ordinary value) :
    Yields (Reader.node .patternDefault start [target, value]) Part := by
  refine .part rfl (fun n hn => ?_) (.cons ht (.alone hv.part))
  obtain rfl := List.mem_singleton.mp hn
  exact hv.not_isPatternPart

theorem part_bindingElement : Yields (bindingElement r ctx) Part := by
  refine .bind fun _ => (hr.bindingTarget _).andThen fun _ htarget => .bind fun _ => .ite ?_ (.pure htarget)
  exact (hr.assignment _).andThen fun _ hvalue => part_patternDefault htarget hvalue

theorem part_arrayItem : Yields (arrayItem r ctx) Part :=
  .bind fun _ => .ite (.bind fun _ => .pure ordinary_hole.part) <| .bind fun _ =>
    .ite (part_bindingRest (hr.bindingTarget _)) (part_bindingElement hr)

theorem part_arrayPattern : Yields (arrayPattern r ctx) Part :=
  .bind fun _ => .bind fun _ => (allHave_commaList (part_arrayItem hr)).andThen fun _ hitems =>
    .bind fun _ => .part rfl trivial hitems

theorem part_shorthandMember : Yields (shorthandMember r ctx) Part := by
  refine .bind fun _ => part_bindingName.andThen fun _ hname => .bind fun _ => .ite ?_
    (.part rfl trivial (.alone hname))
  refine (hr.assignment _).andThen fun _ hvalue => ?_
  exact (part_patternDefault hname hvalue).andThen fun _ htarget => .part rfl trivial (.alone htarget)

theorem part_patternMember : Yields (patternMember r ctx) Part := by
  refine .bind fun _ => .ite (part_bindingRest part_bindingName) ?_
  refine .bind fun _ => .bind fun _ => .ite (part_shorthandMember hr) ?_
  exact .bind fun _ => (ordinary_memberKey hr).andThen fun _ hkey => .bind fun _ =>
    (part_bindingElement hr).andThen fun _ htarget =>
      .part rfl trivial ((hkey.imp fun _ => Ordinary.part).append (.alone htarget))

theorem part_objectPattern : Yields (objectPattern r ctx) Part :=
  .bind fun _ => .bind fun _ => (allHave_commaList (part_patternMember hr)).andThen fun _ hmembers =>
    .bind fun _ => .part rfl trivial hmembers

theorem part_bindingTarget : Yields (bindingTarget r ctx) Part := by
  refine .bind fun _ => ?_
  split
  · exact part_arrayPattern hr
  · exact part_objectPattern hr
  · exact part_bindingName

theorem part_parameter : Yields (parameter r ctx) Part :=
  .bind fun _ => .ite (part_bindingRest (hr.bindingTarget _)) (part_bindingElement hr)

theorem member_parameters {outer : Kind} (houter : outer.isFunction) :
    Yields (parameters r ctx) (Member outer) :=
  .bind fun _ => .bind fun _ => (allHave_commaList (part_parameter hr)).andThen fun _ hitems =>
    .bind fun _ => .member trivial (hitems.imp fun _ hn => hn .parameters rfl) houter

end Patterns

section Functions

variable (hr : FormsPhrases r)
include hr

theorem stated_statements {ends : Reader Bool} :
    Yields (statements r ctx ends) (AllHave Stated) := by
  have hdirective {span : Span} : Stated (.mk .directive span []) := fun _ houter =>
    ⟨.of_members trivial .nil, Kind.admits_of_isStated rfl houter⟩
  refine .loop (I := fun st => AllHave Stated st.1) (fun ⟨items, atHead⟩ hitems => ?_) .nil
  refine .bind fun _ => .ite (.pure hitems.reverse) ((hr.statement _ _).andThen fun _ hs => ?_)
  exact .ite (.pure (hitems.cons hdirective)) (.pure (hitems.cons hs))

theorem stated_blockStatements : Yields (blockStatements r ctx) (AllHave Stated) := by
  refine .bind fun _ => .andThen (.loop (I := AllHave Stated) (fun items hitems => ?_) .nil) fun _ hitems =>
    .bind fun _ => .pure hitems
  exact .bind fun _ => .ite (.pure hitems.reverse)
    ((hr.statement _ _).andThen fun _ hs => .pure (hitems.cons hs))

theorem stated_block : Yields (block r ctx) Stated :=
  .bind fun _ => (stated_blockStatements hr).andThen fun _ hitems => .stated rfl hitems

theorem stated_bodyInBraces : Yields (bodyInBraces r ctx) Stated :=
  .bind fun _ => .bind fun _ => (stated_statements hr).andThen fun _ hitems => .bind fun _ =>
    .stated rfl hitems

theorem member_functionRest {outer : Kind} (houter : outer.isFunction) :
    Yields (functionRest r isAsync isGenerator) (AllHave (Member outer)) :=
  (member_parameters hr houter).andThen fun _ hparams => (stated_bodyInBraces hr).andThen fun _ hbody =>
    .pure (.cons hparams (.alone (hbody outer (Kind.holdsStatements_of_isFunction houter))))

theorem ordinary_function : Yields (function r ctx role required) Ordinary := by
  refine .bind fun _ => .bind fun isAsync => .bind fun _ => .bind fun isGenerator => ?_
  refine .bind fun _ => ?_
  extract_lets rest
  have hrest {name : List Node} (hname : AllHave Named name) : Yields (rest name) Ordinary :=
    (member_functionRest hr rfl).andThen fun _ hparts =>
      .holder trivial ((hname.imp fun _ hn => hn _ rfl).append hparts) fun _ => rfl
  exact .ite (named_bindingName.andThen fun _ hname => .given (hrest (.alone hname)))
    (.bind fun _ => .given (hrest .nil))

theorem ordinary_methodFunction {a : Accessor} :
    Yields (methodFunction r a isAsync isGenerator) Ordinary :=
  .bind fun _ => (member_functionRest hr rfl).andThen fun _ hparts => .bind fun _ =>
    .holder trivial hparts fun _ => rfl

end Functions

section Classes

variable (hr : FormsPhrases r)
include hr

theorem ordinary_decorators : Yields (decorators r ctx) (AllHave Ordinary) := by
  refine .loop (I := AllHave Ordinary)
    (fun items hitems => .bind fun _ => .ite ?_ (.pure hitems.reverse)) .nil
  exact (hr.leftHand _).andThen fun _ hn => .pure (hitems.cons hn)

theorem ordinary_elementKey : Yields (elementKey r ctx) fun key => AllHave Ordinary key.2 := by
  refine .bind fun _ => ?_
  split
  · exact .bind fun _ => .pure .nil
  · exact ordinary_memberKey hr

theorem ordinary_propertyValue : Yields (propertyValue r) (AllHave Ordinary) := by
  refine .bind fun _ => ?_
  extract_lets rest
  have hrest {value : List Node} (hvalue : AllHave Ordinary value) :
      Yields (rest value) (AllHave Ordinary) :=
    .bind fun _ => .pure hvalue
  exact .ite ((hr.assignment _).andThen fun _ hvalue => .given (hrest (.alone hvalue)))
    (.given (hrest .nil))

theorem ordinary_namedElement (hhead : AllHave Ordinary decorated) :
    Yields (namedElement r ctx start decorated) Ordinary := by
  refine .bind fun isStatic => .bind fun isAccessor => ?_
  extract_lets afterAsync
  have hafterAsync : ∀ isAsync, Yields (afterAsync isAsync) Ordinary := by
    intro isAsync
    unfold afterAsync
    extract_lets afterStar
    have hafterStar : ∀ isGenerator, Yields (afterStar isGenerator) Ordinary := by
      intro isGenerator
      unfold afterStar
      extract_lets atKey
      have hatKey : ∀ accessor, Yields (atKey accessor) Ordinary := by
        intro accessor
        refine (ordinary_elementKey hr).andThen fun key hkey => .bind fun _ => ?_
        have hparts {ns : List Node} (hns : AllHave Ordinary ns) :
            AllHave Ordinary (decorated ++ key.2 ++ ns) :=
          (hhead.append hkey).append hns
        exact .ite
          (.bind fun _ => (ordinary_methodFunction hr).andThen fun _ hf =>
            .ordinary rfl (hparts (.alone hf)))
          (.bind fun _ => (ordinary_propertyValue hr).andThen fun _ hvalue =>
            .ordinary rfl (hparts hvalue))
      exact .ite (.given (hatKey _)) (.bind hatKey)
    exact .ite (.given (hafterStar _)) (.bind hafterStar)
  exact .ite (.given (hafterAsync _)) (.bind hafterAsync)

theorem ordinary_classElement : Yields (classElement r ctx) Ordinary :=
  .bind fun _ => (ordinary_decorators hr).andThen fun _ hhead => .bind fun _ =>
    .ite (.bind fun _ => (stated_blockStatements hr).andThen fun _ hitems =>
      .holder trivial (hitems.imp fun _ hn => hn _ rfl) fun _ => rfl) (ordinary_namedElement hr hhead)

theorem ordinary_classElements : Yields (classElements r ctx) (AllHave Ordinary) := by
  refine .bind fun _ => .andThen (.loop (I := AllHave Ordinary) (fun items hitems => ?_) .nil) fun _ hitems =>
    .bind fun _ => .pure hitems
  refine .bind fun _ => .ite (.pure hitems.reverse) (.bind fun _ => .ite (.pure hitems) ?_)
  exact (ordinary_classElement hr).andThen fun _ hn => .pure (hitems.cons hn)

theorem ordinary_classFrom (hhead : AllHave Ordinary decorated) :
    Yields (classFrom r ctx start decorated role required) Ordinary := by
  have hmembers {kind : Kind} {ns : List Node} (h : AllHave Ordinary ns) : AllHave (Member kind) ns :=
    h.imp fun _ hn => hn kind
  refine .bind fun _ => .bind fun _ => ?_
  extract_lets rest
  have hrest {name : List Node} (hname : AllHave Named name) : Yields (rest name) Ordinary := by
    refine .bind fun _ => ?_
    extract_lets rest
    have hrest {parent : List Node} (hparent : AllHave Ordinary parent) :
        Yields (rest parent) Ordinary :=
      (ordinary_classElements hr).andThen fun _ helements =>
        .holder trivial ((((hmembers hhead).append (hname.imp fun _ hn => hn _ rfl)).append
          (hmembers hparent)).append (hmembers helements)) fun _ => rfl
    exact .ite ((hr.leftHand _).andThen fun _ hparent => .given (hrest (.alone hparent)))
      (.given (hrest .nil))
  exact .ite (named_bindingName.andThen fun _ hname => .given (hrest (.alone hname)))
    (.bind fun _ => .given (hrest .nil))

end Classes

section Targets

theorem goesThrough_ordinary : GoesThrough fun ns ns' => AllHave Ordinary ns → AllHave Ordinary ns' where
  refl _ := id
  drop _ _ := .nil
  cons h hns hall := by
    obtain ⟨hn, hrest⟩ := List.forall_mem_cons.mp hall
    exact (h (.alone hn)).append (hns hrest)
  node hk hk' h hall := by
    have hn := (ordinary_iff (Kind.isPlain_of_groups hk)).mp (hall _ (List.mem_singleton_self _))
    exact .alone ((ordinary_iff (Kind.isPlain_of_groups hk')).mpr (h hn))

/-- Taken as a target, an expression stays free of patterns. -/
theorem ordinary_target (hn : Ordinary n) : Yields (target n) Ordinary := by
  unfold target
  split
  next htarget =>
    have hordinary := goesThrough_ordinary.targets.1 _ _ _ htarget (.alone hn)
    exact .bind fun _ => .pure (hordinary _ (List.mem_singleton_self _))
  next => exact .failure

theorem ordinary_simpleTarget (hn : Ordinary n) : Yields (simpleTarget n) Ordinary :=
  .bind fun _ => .pure hn

end Targets

end FlatBundle.Script
