import FlatBundle.Proofs.Scope.Lookups
import FlatBundle.Proofs.Scope.Spots
import FlatBundle.Proofs.Script.FormedProgram

/-!
Which names are property keys as well, and which ones are flagged as such.
-/

namespace FlatBundle

open Script (Span Node Kind Formed)

/-- A path leads to the value of a shorthand property, or to what a shorthand property assigns to. -/
def isReferenceKey : Path → Bool
  | ⟨.mk (.member true) _ _, _⟩ :: _ => true
  | ⟨.mk .targetShorthand _ _, 0⟩ :: _ => true
  | _ => false

/-- A path leads to what a shorthand property binds, with a default or without. -/
def isBindingKey : Path → Bool
  | ⟨.mk (.patternMember true) _ _, _⟩ :: _ => true
  | ⟨.mk .patternDefault _ _, 0⟩ :: ⟨.mk (.patternMember true) _ _, _⟩ :: _ => true
  | _ => false

/-- The text of a name is a property key too. -/
def isKey (path : Path) (n : Node) : Bool :=
  match n.kind with
  | .reference _ => isReferenceKey path
  | .binding _ => isBindingKey path
  | _ => false

/-- A path leads to the default of a shorthand property that is assigned to. -/
def isShorthandDefault : Path → Bool
  | ⟨.mk .targetShorthand _ _, _ + 1⟩ :: _ => true
  | _ => false

/-- A name by itself is the default of a shorthand property that is assigned to. -/
def isBareDefault (path : Path) (n : Node) : Bool :=
  n.kind.reference?.isSome && isShorthandDefault path

variable {root n : Node} {path : Path} {name : String} {span : Span} {shorthand : Bool}
  {place : DeclarationPlace}

theorem isSome_name?_of_isKey (h : isKey path n) : n.kind.name?.isSome := by
  unfold isKey at h
  split at h
  next hk => rw [hk]; rfl
  next hk => rw [hk]; rfl
  next => cases h

theorem exists_reference_of_isBareDefault (h : isBareDefault path n) : ∃ name, n.kind = .reference name := by
  obtain ⟨hkind, -⟩ := Bool.and_eq_true_iff.mp h
  unfold Kind.reference? at hkind
  split at hkind
  next name hk => exact ⟨name, hk⟩
  next => cases hkind

/-- A default is not where the key is. -/
theorem not_isKey_of_isBareDefault (h : isBareDefault path n) : isKey path n = false := by
  obtain ⟨name, hk⟩ := exists_reference_of_isBareDefault h
  obtain ⟨-, hdefault⟩ := Bool.and_eq_true_iff.mp h
  unfold isShorthandDefault at hdefault
  split at hdefault
  next =>
    unfold isKey
    rw [hk]
    rfl
  next => cases hdefault

section Flags

variable {names : List Node}

theorem isShorthandReference_eq : isShorthandReference path =
    (isReferenceKey path || isShorthandDefault path) := by
  rcases path with _ | ⟨⟨⟨kind, _, _⟩, k⟩, outer⟩
  · rfl
  · cases kind with
    | member shorthand => cases shorthand <;> rfl
    | targetShorthand => cases k <;> rfl
    | _ => rfl

/-- A default in a pattern is no declared name, so that the name before it is the key. -/
theorem isShorthandBinding_eq (hroot : Formed root)
    (h : PathTo root path (.mk (.binding name) span names)) :
    isShorthandBinding path = isBindingKey path := by
  cases h with
  | root => rfl
  | @child outer parent _ k houter hk =>
    obtain ⟨kind, _, children⟩ := parent
    cases kind with
    | patternMember shorthand => cases shorthand <;> rfl
    | patternDefault =>
      obtain rfl : k = 0 := by
        by_contra hne
        obtain ⟨j, rfl⟩ : ∃ j, k = j + 1 := ⟨k - 1, by omega⟩
        cases houter.formed hroot with
        | mk _ holds =>
          have htail : children.tail[j]? = some (.mk (.binding name) span names) := by
            rw [List.getElem?_tail]
            exact hk
          cases holds _ (List.mem_of_getElem? htail)
      rcases outer with _ | ⟨⟨⟨kind, _, _⟩, _⟩, _⟩
      · rfl
      · cases kind with
        | patternMember shorthand => cases shorthand <;> rfl
        | _ => rfl
    | _ => rfl

end Flags

section Entering

/-- A name is declared on entering it, or as the own name of a function or class. -/
theorem mem_entering_declare (h : .declare place name span shorthand ∈ entering path n) :
    (n.kind = .binding name ∧ n.span = span ∧ isOwnName path = false ∧ place = declarationPlace path ∧
      shorthand = isShorthandBinding path) ∨
    (ownName? n = some (name, span) ∧ (∀ k, isOwnName (⟨n, k⟩ :: path)) ∧ shorthand = false) := by
  have hown {place' : DeclarationPlace} (h : .declare place name span shorthand ∈ ownNameVisits place' n) :
      ownName? n = some (name, span) ∧ shorthand = false := by
    unfold ownNameVisits at h
    split at h
    next hname =>
      cases List.mem_singleton.mp h
      exact ⟨hname, rfl⟩
    next => cases h
  obtain ⟨kind, whole, children⟩ := n
  unfold entering at h
  split at h
  case h_1 hk | h_3 hk =>
    obtain rfl : kind = _ := hk
    rcases List.mem_append.mp h with h | h
    · exact .inr ⟨(hown h).1, fun _ => rfl, (hown h).2⟩
    · cases List.mem_singleton.mp h
  case h_2 hk | h_4 hk =>
    obtain rfl : kind = _ := hk
    rcases List.mem_cons.mp h with h | h
    · cases h
    · exact .inr ⟨(hown h).1, fun _ => rfl, (hown h).2⟩
  case h_5 hk =>
    split at h
    next => cases h
    next hnot =>
      cases List.mem_singleton.mp h
      exact .inl ⟨hk, rfl, by simpa using hnot, rfl, rfl⟩
  case h_6 => cases List.mem_singleton.mp h
  case h_7 =>
    obtain ⟨_, -, heq⟩ := List.mem_map.mp h
    cases heq
  case h_8 =>
    obtain ⟨_, -, heq⟩ := List.mem_map.mp h
    cases heq

theorem exists_of_ownName? (h : ownName? n = some (name, span)) :
    ∃ (k : Nat) (names : List Node), n.children[k]? = some (Node.mk (.binding name) span names) := by
  obtain ⟨kind, whole, children⟩ := n
  obtain ⟨child, hchild, hname⟩ := List.exists_of_findSome?_eq_some h
  obtain ⟨k, hk⟩ := List.mem_iff_getElem?.mp hchild
  split at hname
  · cases hname
    exact ⟨k, _, hk⟩
  · cases hname

theorem isShorthandBinding_of_isOwnName (h : isOwnName path) : isShorthandBinding path = false := by
  unfold isOwnName at h
  split at h
  · rfl
  · rfl
  · cases h

/-- What is declared stands at a name, whose path says how it is flagged. -/
theorem exists_binding_of_declare (hn : PathTo root path n)
    (h : .declare place name span shorthand ∈ entering path n) :
    ∃ path' names, PathTo root path' (.mk (.binding name) span names) ∧
      shorthand = isShorthandBinding path' := by
  rcases mem_entering_declare h with ⟨hk, hspan, -, -, hshorthand⟩ | ⟨hown, howner, hshorthand⟩
  · obtain ⟨kind, whole, names⟩ := n
    obtain rfl : kind = _ := hk
    obtain rfl : whole = _ := hspan
    exact ⟨path, names, hn, hshorthand⟩
  · obtain ⟨k, names, hk⟩ := exists_of_ownName? hown
    exact ⟨_, names, .child hn hk, hshorthand.trans (isShorthandBinding_of_isOwnName (howner k)).symm⟩

end Entering

/-- Names are flagged just where their text is a property key. -/
def Script.Program.FlagsKeys (p : Script.Program) (t : ScopeTree) : Prop :=
  ∀ r ∈ t.references, r.shorthand = true ↔ ∃ e ∈ p.spots, e.node.span = r.span ∧ isKey e.path e.node

instance {p : Script.Program} {t : ScopeTree} : Decidable (p.FlagsKeys t) :=
  inferInstanceAs (Decidable (∀ r ∈ t.references, r.shorthand = true ↔ ∃ e ∈ p.spots, _))

namespace Analysis

variable {p : Script.Program} {source : String}

/-- An occurrence of a name stands at a name, whose path says how it is flagged. -/
theorem exists_path_of_reference (hp : p.tree.kind = .program) (hformed : Formed p.tree) {r : Reference}
    (hr : r ∈ (ofProgram p source).scopes.references) :
    ∃ path n, PathTo p.tree path n ∧ n.kind.name?.isSome ∧ n.span = r.span ∧
      r.shorthand = (isKey path n || isBareDefault path n) := by
  have hr := Array.mem_toList_iff.mpr hr
  rw [references_ofProgram] at hr
  -- the declared names come first, then those that are looked up
  rcases List.mem_append.mp hr with hr | hr
  · obtain ⟨⟨at_, v⟩, he, hr⟩ := List.mem_filterMap.mp hr
    cases v <;> cases hr
    obtain ⟨path, n, hpath, hv, -⟩ := exists_path source hp he nofun
    obtain ⟨path, names, hpath, hshorthand⟩ := exists_binding_of_declare hpath hv
    rw [isShorthandBinding_eq hformed hpath] at hshorthand
    exact ⟨path, _, hpath, rfl, rfl, hshorthand.trans (Bool.or_false _).symm⟩
  · obtain ⟨⟨at_, v⟩, he, hr⟩ := List.mem_filterMap.mp hr
    cases v <;> cases hr
    obtain ⟨path, ⟨kind, span, names⟩, hpath, hv, -⟩ := exists_path source hp he nofun
    obtain ⟨hk, hspan, hshorthand, -⟩ := mem_entering_refer hv
    obtain rfl : kind = _ := hk
    exact ⟨path, _, hpath, rfl, hspan, hshorthand.trans isShorthandReference_eq⟩

/-- Exactly the names that are property keys are flagged, and the names by themselves that are the defaults
of shorthand properties. -/
theorem flagsKeys_iff (h : Script.Program.parse? source = some p) :
    let t := (ofProgram p source).scopes
    (∀ r ∈ t.references, ∃ e ∈ p.spots, e.node.kind.name?.isSome ∧ e.node.span = r.span ∧
      r.shorthand = (isKey e.path e.node || isBareDefault e.path e.node)) ∧
    (p.FlagsKeys t ↔ ∀ e ∈ p.spots, isBareDefault e.path e.node = false) := by
  intro t
  have hspanned := Script.spanned_parse? h
  obtain ⟨lo, hi, hlaid⟩ := hspanned.laidOut
  have hflag : ∀ r ∈ t.references, ∃ e ∈ p.spots, e.node.kind.name?.isSome ∧ e.node.span = r.span ∧
      r.shorthand = (isKey e.path e.node || isBareDefault e.path e.node) := by
    intro r hr
    obtain ⟨path, n, hpath, hname, hspan, hshorthand⟩ :=
      exists_path_of_reference hspanned.kind (Script.formed_parse? h) hr
    obtain ⟨e, he, rfl, rfl⟩ := p.exists_spot hpath
    exact ⟨e, he, hname, hspan, hshorthand⟩
  have hunique {e e' : Spot} (he : e ∈ p.spots) (he' : e' ∈ p.spots) (hname : e.node.kind.name?.isSome)
      (hkey : isKey e'.path e'.node) (hspan : e'.node.span = e.node.span) : isKey e.path e.node := by
    have hpath := p.pathTo_of_mem_spots he
    obtain ⟨hsamePath, hsameNode⟩ := hpath.eq_of_name hlaid (p.pathTo_of_mem_spots he') hname
      (isSome_name?_of_isKey hkey) hspan.symm
    rw [hsamePath, hsameNode]
    exact hkey
  refine ⟨hflag, fun hkeys e he => ?_, fun hbare r hr => ?_⟩
  · -- such a default would be flagged, and so be a key as well
    by_contra hdefault
    have hdefault : isBareDefault e.path e.node = true := Bool.not_eq_false _ ▸ hdefault
    obtain ⟨name, hk⟩ := exists_reference_of_isBareDefault hdefault
    obtain ⟨r, hr, hspan, -⟩ := exists_reference_of_mem_spots source he hk
    obtain ⟨o, ho, hname, hspan', hshorthand⟩ := hflag r hr
    have hname' : e.node.kind.name?.isSome := by rw [hk]; rfl
    obtain ⟨hsamePath, hsameNode⟩ := (p.pathTo_of_mem_spots he).eq_of_name hlaid (p.pathTo_of_mem_spots ho)
      hname' hname (hspan.symm.trans hspan'.symm)
    rw [← hsamePath, ← hsameNode, hdefault, Bool.or_true] at hshorthand
    obtain ⟨e', he', hspan'', hkey⟩ := (hkeys r hr).mp hshorthand
    have hown := hunique he he' hname' hkey (hspan''.trans hspan)
    rw [not_isKey_of_isBareDefault hdefault] at hown
    cases hown
  · obtain ⟨e, he, hname, hspan, hshorthand⟩ := hflag r hr
    rw [hbare e he, Bool.or_false] at hshorthand
    rw [hshorthand]
    refine ⟨fun hkey => ⟨e, he, hspan, hkey⟩, fun ⟨e', he', hspan', hkey⟩ => ?_⟩
    exact hunique he he' hname hkey (hspan'.trans hspan.symm)

/-- A name that is a key where it is declared, assigned to and used. -/
def keyEverywhere : String :=
  "var \x7b a = b \x7d = c; (\x7b a = [b] \x7d = \x7b a, b: a \x7d);"

theorem flagsKeys_keyEverywhere : ∃ p, Script.Program.parse? keyEverywhere = some p ∧
    p.FlagsKeys (ofProgram p keyEverywhere).scopes := by
  obtain ⟨p, hp, hbare⟩ : ∃ p ∈ Script.Program.parse? keyEverywhere,
      ∀ e ∈ p.spots, isBareDefault e.path e.node = false := by
    decide +kernel
  exact ⟨p, hp, (flagsKeys_iff hp).2.mpr hbare⟩

/-- A name that is the default of another one. -/
def bareDefault : String :=
  "(\x7b a = b \x7d = c);"

theorem not_flagsKeys : ∃ p, Script.Program.parse? bareDefault = some p ∧
    (∃ r ∈ (ofProgram p bareDefault).scopes.references, r.span = ⟨7, 8⟩ ∧ r.shorthand = true) ∧
    ¬p.FlagsKeys (ofProgram p bareDefault).scopes := by
  obtain ⟨p, hp, hflagged, hkeys⟩ : ∃ p ∈ Script.Program.parse? bareDefault,
      (∃ r ∈ (ofProgram p bareDefault).scopes.references, r.span = ⟨7, 8⟩ ∧ r.shorthand = true) ∧
        ¬p.FlagsKeys (ofProgram p bareDefault).scopes := by
    decide +kernel
  exact ⟨p, hp, hflagged, hkeys⟩

end Analysis

end FlatBundle
