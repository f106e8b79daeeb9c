import FlatBundle.Proofs.Script.Lexer
import FlatBundle.Script.Tree

/-!
How the nodes of a tree lie in the source text: one after the other among themselves, and inside the
nodes around them. Only nodes that edits can be about take part; others let their children through.
-/

namespace FlatBundle.Script

/-- The kinds of nodes that edits replace, in whole or in part. -/
def Kind.isSite : Kind → Bool
  | .reference _ | .binding _ | .field _ | .index | .call | .typeof => true
  | .variables _ | .declarator _ => true
  | _ => false

def Kind.isVariables : Kind → Bool
  | .variables _ => true
  | _ => false

def Kind.isDeclarator : Kind → Bool
  | .declarator _ => true
  | _ => false

/-- The kinds of accesses to a property. -/
def Kind.isAccess : Kind → Bool
  | .field _ | .index => true
  | _ => false

/-- The kinds of nodes whose first child may be what is called. -/
def Kind.leadsToCalled : Kind → Bool
  | .call | .field _ => true
  | _ => false

theorem Kind.isSite_of_isAccess {kind : Kind} (h : kind.isAccess) : kind.isSite := by
  cases kind <;> first | rfl | cases h

theorem Kind.isSite_of_leadsToCalled {kind : Kind} (h : kind.leadsToCalled) : kind.isSite := by
  cases kind <;> first | rfl | cases h

theorem Kind.not_isDeclarator_of_isAccess {kind : Kind} (h : kind.isAccess) :
    kind.isDeclarator = false := by
  cases kind <;> first | rfl | cases h

/-- A declared name is an identifier. -/
def Kind.DeclaresIdentifier : Kind → Prop
  | .binding name => Text.isIdentifierName name.toList
  | _ => True

/-- The name that a node stands for. -/
def Kind.name? : Kind → Option String
  | .reference name | .binding name => some name
  | _ => none

theorem Kind.not_isAccess_of_name? {kind : Kind} {name : String} (h : kind.name? = some name) :
    kind.isAccess = false := by
  cases kind <;> first | rfl | cases h

theorem Kind.name?_of_isVariables {kind : Kind} (h : kind.isVariables) : kind.name? = none := by
  cases kind <;> first | rfl | cases h

theorem Kind.name?_of_isAccess {kind : Kind} (h : kind.isAccess) : kind.name? = none := by
  cases kind <;> first | rfl | cases h

theorem Kind.not_isAccess_of_isVariables {kind : Kind} (h : kind.isVariables) : kind.isAccess = false := by
  cases kind <;> first | rfl | cases h

/-- The kinds of nodes that have statements of their own. -/
def Kind.opensBody : Kind → Bool
  | .function _ _ _ _ | .arrow _ | .staticBlock => true
  | _ => false

/-- The kinds of nodes that stand among statements only. -/
def Kind.isStatement : Kind → Bool
  | .directive | .expressionStatement | .emptyStatement | .block | .ifStatement => true
  | .forStatement | .forIn | .forOf | .whileStatement | .doWhile | .withStatement => true
  | .switchStatement | .switchCase | .tryStatement | .catchClause | .returnStatement => true
  | .throwStatement | .jump | .labeled | .variables _ => true
  | _ => false

/-- A node without statements, but for those of functions and of static blocks inside of it. -/
inductive Quiet : Node → Prop
  | body {kind : Kind} {span : Span} {children : List Node} (opens : kind.opensBody) :
    Quiet (.mk kind span children)
  | plain {kind : Kind} {span : Span} {children : List Node} (value : kind.isStatement = false)
      (inside : ∀ n ∈ children, Quiet n) : Quiet (.mk kind span children)

/-- Nodes without statements. -/
def AllQuiet (ns : List Node) : Prop :=
  ∀ n ∈ ns, Quiet n

namespace AllQuiet

variable {n : Node} {ns : List Node}

theorem nil : AllQuiet [] :=
  nofun

theorem cons (h : Quiet n) (hns : AllQuiet ns) : AllQuiet (n :: ns) :=
  List.forall_mem_cons.mpr ⟨h, hns⟩

theorem alone (h : Quiet n) : AllQuiet [n] :=
  cons h nil

end AllQuiet

mutual

/-- The outermost sites of a node. -/
def Node.sites : Node → List Node
  | .mk kind span children => if kind.isSite then [.mk kind span children] else sitesOf children

def sitesOf : List Node → List Node
  | [] => []
  | n :: rest => n.sites ++ sitesOf rest

end

section Sites

variable {kind : Kind} {span : Span} {n : Node} {ns ms children : List Node}

@[simp]
theorem sitesOf_nil : sitesOf [] = [] :=
  rfl

@[simp]
theorem sitesOf_cons : sitesOf (n :: ns) = n.sites ++ sitesOf ns :=
  rfl

@[simp]
theorem sitesOf_append : sitesOf (ns ++ ms) = sitesOf ns ++ sitesOf ms := by
  induction ns with
  | nil => rfl
  | cons n ns ih => rw [List.cons_append, sitesOf_cons, sitesOf_cons, ih, List.append_assoc]

theorem sites_of_isSite (h : kind.isSite) :
    (Node.mk kind span children).sites = [.mk kind span children] := by
  rw [Node.sites, if_pos h]

theorem sites_of_not_isSite (h : kind.isSite = false) :
    (Node.mk kind span children).sites = sitesOf children := by
  rw [Node.sites, if_neg (by simp [h])]

mutual

theorem isSite_of_mem_sites {m : Node} : {n : Node} → m ∈ n.sites → m.kind.isSite
  | .mk kind span children, h => by
    rw [Node.sites] at h
    split at h
    next hk => exact List.mem_singleton.mp h ▸ hk
    next => exact isSite_of_mem_sitesOf h

theorem isSite_of_mem_sitesOf {m : Node} : {ns : List Node} → m ∈ sitesOf ns → m.kind.isSite
  | n :: rest, h => by
    rcases List.mem_append.mp h with h | h
    · exact isSite_of_mem_sites h
    · exact isSite_of_mem_sitesOf h

end

@[simp]
theorem sites_parameters : (Node.mk .parameters span children).sites = sitesOf children :=
  sites_of_not_isSite rfl

@[simp]
theorem sites_hole : (Node.mk .hole span []).sites = [] :=
  sites_of_not_isSite rfl

/-- The sites of some nodes are those before one of them, its own, and those after it. -/
theorem sitesOf_split {k : Nat} (h : children[k]? = some n) :
    sitesOf children = sitesOf (children.take k) ++ (n.sites ++ sitesOf (children.drop (k + 1))) := by
  obtain ⟨hk, rfl⟩ := List.getElem?_eq_some_iff.mp h
  rw [← sitesOf_cons, ← sitesOf_append, ← List.drop_eq_getElem_cons hk, List.take_append_drop]

theorem sitesOf_declarators (h : ∀ d ∈ children, d.kind.isDeclarator) :
    sitesOf children = children := by
  induction children with
  | nil => rfl
  | cons d ds ih =>
    obtain ⟨kind, span, children⟩ := d
    have hd : kind.isDeclarator := h _ (List.mem_cons_self ..)
    have hsite : kind.isSite := by cases kind <;> first | rfl | cases hd
    rw [sitesOf_cons, sites_of_isSite hsite, ih fun d hd => h d (List.mem_cons_of_mem _ hd)]
    rfl

end Sites

/-- Each site among some nodes leaves out a part of the text between two offsets. -/
def Narrow (start stop : Nat) (ns : List Node) : Prop :=
  start < stop ∧ ∀ n ∈ sitesOf ns, start < n.span.start ∨ n.span.stop < stop

/-- The text between two offsets is a word that stands for a name. -/
def Names (source : List Char) (start stop : Nat) (name : String) : Prop :=
  ∃ s rest k escaped, RestAt source s start ∧ RestAt source rest stop ∧
    kind? s = some (.word k name escaped, rest)

/-- The first one of some nodes ends before all others do. -/
def EndsFirst : List Node → Prop
  | [] => True
  | n :: rest => ∀ m ∈ rest, n.span.stop < m.span.stop

theorem EndsFirst.eq_zero {ns : List Node} {n m : Node} {k : Nat} (h : EndsFirst ns) (hfirst : ns[0]? = some m)
    (hk : ns[k]? = some n) (hspan : m.span = n.span) : k = 0 := by
  cases ns with
  | nil => cases hk
  | cons first rest =>
    cases k with
    | zero => rfl
    | succ k =>
      obtain rfl : first = m := Option.some.inj hfirst
      have hlt := h n (List.mem_of_getElem? hk)
      rw [hspan] at hlt
      omega

theorem Names.lt {source : List Char} {start stop : Nat} {name : String}
    (h : Names source start stop name) : start < stop := by
  obtain ⟨s, rest, k, escaped, hs, hrest, hkind⟩ := h
  exact hs.lt_of_length_lt hrest (kind?_shorter hkind rfl)

/-- A site by itself: what it is made of, and how it is written. -/
structure Site (source : List Char) (kind : Kind) (start stop : Nat) (children : List Node) :
    Prop where
  lt : start < stop
  declarators : kind.isVariables → children ≠ [] ∧ ∀ d ∈ children, d.kind.isDeclarator
  identifier : kind.DeclaresIdentifier
  named : ∀ name, kind.name? = some name → children = [] ∧ Names source start stop name
  quiet : AllQuiet children
  first : kind.leadsToCalled → EndsFirst children
  /-- The parenthesis at the end of a call is in nothing else. -/
  closed : kind = .call → ∀ m ∈ sitesOf children, m.span.stop < stop
  /-- Only a variable without a value is nothing but its target. -/
  narrow : (kind.isDeclarator → children.length ≠ 1) → Narrow start stop children

/-- Sites between two offsets, one after the other, each of which holds its own. The offsets at which
a site starts and stops are all `ok`. -/
inductive LaidOut (source : List Char) (ok : Nat → Prop) : Nat → Nat → List Node → Prop
  | nil {lo hi : Nat} : LaidOut source ok lo hi []
  | cons {lo start stop hi : Nat} {kind : Kind} {children rest : List Node}
    (lo_le : lo ≤ start) (le_stop : start ≤ stop) (stop_le : stop ≤ hi) (ok_start : ok start)
    (ok_stop : ok stop) (inside : LaidOut source ok start stop (sitesOf children))
    (site : Site source kind start stop children) (after : LaidOut source ok stop hi rest) :
    LaidOut source ok lo hi (.mk kind ⟨start, stop⟩ children :: rest)

namespace LaidOut

variable {source : List Char} {ok ok' : Nat → Prop} {lo lo' hi hi' : Nat} {ns ms : List Node}

theorem mono (h : LaidOut source ok lo hi ns) (hlo : lo' ≤ lo) (hhi : hi ≤ hi') : LaidOut source ok lo' hi' ns := by
  induction h generalizing lo' with
  | nil => exact .nil
  | cons lo_le le_stop stop_le ok_start ok_stop inside site _ _ after =>
    exact .cons (Nat.le_trans hlo lo_le) le_stop (Nat.le_trans stop_le hhi) ok_start ok_stop inside
      site (after (Nat.le_refl _) hhi)

theorem append (h : LaidOut source ok lo hi ns) (h' : LaidOut source ok lo' hi' ms) (hlo : lo ≤ lo')
    (hhi : hi ≤ lo') (hle : hi ≤ hi') : LaidOut source ok lo hi' (ns ++ ms) := by
  induction h with
  | nil => exact h'.mono hlo (Nat.le_refl _)
  | cons lo_le le_stop stop_le ok_start ok_stop inside site _ _ after =>
    exact .cons lo_le le_stop (Nat.le_trans stop_le hle) ok_start ok_stop inside site (after (Nat.le_trans stop_le hhi) hhi hle)

theorem sublist (h : LaidOut source ok lo hi ns) (hms : ms.Sublist ns) : LaidOut source ok lo hi ms := by
  induction h generalizing ms with
  | nil => exact List.sublist_nil.mp hms ▸ .nil
  | cons lo_le le_stop stop_le ok_start ok_stop inside site _ _ after =>
    rcases List.sublist_cons_iff.mp hms with hms | ⟨front, rfl, hfront⟩
    · exact (after hms).mono (Nat.le_trans lo_le le_stop) (Nat.le_refl _)
    · exact .cons lo_le le_stop stop_le ok_start ok_stop inside site (after hfront)

/-- The offsets that sites start and stop at are all up to the end. -/
theorem imp (h : LaidOut source ok lo hi ns) (hok : ∀ p ≤ hi, ok p → ok' p) :
    LaidOut source ok' lo hi ns := by
  induction h with
  | nil => exact .nil
  | cons lo_le le_stop stop_le ok_start ok_stop _ site _ inside after =>
    exact .cons lo_le le_stop stop_le (hok _ (Nat.le_trans le_stop stop_le) ok_start)
      (hok _ stop_le ok_stop) (inside fun p hp => hok p (Nat.le_trans hp stop_le)) site (after hok)

end LaidOut

/-- A site among some sites, or inside of one of them. -/
inductive SiteIn (m : Node) : List Node → Prop
  | here {rest : List Node} : SiteIn m (m :: rest)
  | inside {kind : Kind} {span : Span} {children rest : List Node}
    (h : SiteIn m (sitesOf children)) : SiteIn m (.mk kind span children :: rest)
  | after {n : Node} {rest : List Node} (h : SiteIn m rest) : SiteIn m (n :: rest)

namespace SiteIn

variable {m n : Node} {ns ms children : List Node} {kind : Kind} {span : Span}

theorem of_mem (h : m ∈ ns) : SiteIn m ns := by
  induction h with
  | head => exact .here
  | tail _ _ ih => exact .after ih

theorem append_left (h : SiteIn m ns) : SiteIn m (ns ++ ms) := by
  induction h with
  | here => exact .here
  | inside h => exact .inside h
  | after _ ih => exact .after ih

theorem append_right (h : SiteIn m ms) : SiteIn m (ns ++ ms) := by
  induction ns with
  | nil => exact h
  | cons _ _ ih => exact .after ih

theorem of_append (h : SiteIn m (ns ++ ms)) : SiteIn m ns ∨ SiteIn m ms := by
  induction ns with
  | nil => exact .inr h
  | cons n ns ih =>
    cases h with
    | here => exact .inl .here
    | inside h => exact .inl (.inside h)
    | after h => exact (ih h).imp_left .after

theorem of_mem_sites (hn : n ∈ children) (h : SiteIn m n.sites) : SiteIn m (sitesOf children) := by
  induction hn with
  | head => exact h.append_left
  | tail _ _ ih => exact ih.append_right

/-- What is inside a child is inside the node. -/
theorem of_child (hn : n ∈ children) (h : SiteIn m n.sites) :
    SiteIn m (Node.mk kind span children).sites := by
  cases hk : kind.isSite with
  | true =>
    rw [sites_of_isSite hk]
    exact .inside (h.of_mem_sites hn)
  | false =>
    rw [sites_of_not_isSite hk]
    exact h.of_mem_sites hn

theorem isSite (h : SiteIn m ns) (hns : ∀ n ∈ ns, n.kind.isSite) : m.kind.isSite := by
  induction h with
  | here => exact hns _ List.mem_cons_self
  | inside _ ih => exact ih fun _ => isSite_of_mem_sitesOf
  | after _ ih => exact ih fun n hn => hns n (List.mem_cons_of_mem _ hn)

theorem trans (h : SiteIn m (sitesOf n.children)) (hn : SiteIn n ns) : SiteIn m ns := by
  induction hn with
  | here =>
    obtain ⟨kind, span, children⟩ := n
    exact .inside h
  | inside _ ih => exact .inside ih
  | after _ ih => exact .after ih

/-- A site of a node is the node itself, or a site of what is in it. -/
theorem eq_or_inside (h : SiteIn m (Node.mk kind span children).sites) :
    m = .mk kind span children ∨ SiteIn m (sitesOf children) := by
  cases hk : kind.isSite with
  | true =>
    rw [sites_of_isSite hk] at h
    cases h with
    | here => exact .inl rfl
    | inside h => exact .inr h
    | after h => cases h
  | false =>
    rw [sites_of_not_isSite hk] at h
    exact .inr h

end SiteIn

namespace LaidOut

variable {source : List Char} {ok : Nat → Prop} {lo hi : Nat} {m n : Node} {ns ms : List Node}

/-- What is known of a single site. -/
theorem of_siteIn (h : LaidOut source ok lo hi ns) (hm : SiteIn m ns) :
    LaidOut source ok m.span.start m.span.stop [m] ∧ lo ≤ m.span.start ∧ m.span.stop ≤ hi := by
  induction h with
  | nil => cases hm
  | cons lo_le le_stop stop_le ok_start ok_stop inside site after ihInside ihAfter =>
    cases hm with
    | here =>
      exact ⟨.cons (Nat.le_refl _) le_stop (Nat.le_refl _) ok_start ok_stop inside site .nil,
        lo_le, stop_le⟩
    | inside hm =>
      obtain ⟨hsite, hlo, hhi⟩ := ihInside hm
      exact ⟨hsite, Nat.le_trans lo_le hlo, Nat.le_trans hhi stop_le⟩
    | after hm =>
      obtain ⟨hsite, hlo, hhi⟩ := ihAfter hm
      exact ⟨hsite, Nat.le_trans lo_le (Nat.le_trans le_stop hlo), hhi⟩

theorem site_of_siteIn (h : LaidOut source ok lo hi ns) (hm : SiteIn m ns) :
    Site source m.kind m.span.start m.span.stop m.children := by
  obtain ⟨kind, span, children⟩ := m
  cases (h.of_siteIn hm).1 with
  | cons _ _ _ _ _ _ site => exact site

theorem inside_of_siteIn (h : LaidOut source ok lo hi ns) (hm : SiteIn m ns) :
    LaidOut source ok m.span.start m.span.stop (sitesOf m.children) := by
  obtain ⟨kind, span, children⟩ := m
  cases (h.of_siteIn hm).1 with
  | cons _ _ _ _ _ inside => exact inside

/-- Sites start and stop at offsets that are ok. -/
theorem ends_of_siteIn (h : LaidOut source ok lo hi ns) (hm : SiteIn m ns) :
    ok m.span.start ∧ ok m.span.stop := by
  obtain ⟨kind, span, children⟩ := m
  cases (h.of_siteIn hm).1 with
  | cons _ _ _ ok_start ok_stop => exact ⟨ok_start, ok_stop⟩

/-- A site is in one of the outermost ones. -/
theorem exists_outermost (h : LaidOut source ok lo hi ns) (hm : SiteIn m ns) :
    ∃ n ∈ ns, n.span.start ≤ m.span.start ∧ m.span.stop ≤ n.span.stop := by
  induction h with
  | nil => cases hm
  | cons _ _ _ _ _ inside _ _ _ ih =>
    cases hm with
    | here => exact ⟨_, List.mem_cons_self, Nat.le_refl _, Nat.le_refl _⟩
    | inside hm => exact ⟨_, List.mem_cons_self, (inside.of_siteIn hm).2⟩
    | after hm =>
      obtain ⟨n, hn, hbounds⟩ := ih hm
      exact ⟨n, List.mem_cons_of_mem _ hn, hbounds⟩

theorem children {kind : Kind} {span : Span} {children : List Node}
    (h : LaidOut source ok lo hi (Node.mk kind span children).sites) :
    ∃ lo hi, LaidOut source ok lo hi (sitesOf children) := by
  cases hk : kind.isSite with
  | true =>
    rw [sites_of_isSite hk] at h
    cases h with
    | cons _ _ _ _ _ inside => exact ⟨_, _, inside⟩
  | false => exact ⟨lo, hi, sites_of_not_isSite hk ▸ h⟩

/-- Sites that come first come before the others. -/
theorem before {k : Node} (h : LaidOut source ok lo hi (ns ++ ms)) (hm : SiteIn m ns)
    (hk : SiteIn k ms) : m.span.stop ≤ k.span.start := by
  induction ns generalizing lo with
  | nil => cases hm
  | cons n ns ih =>
    cases h with
    | cons _ _ _ _ _ inside _ after =>
      have hafter := (after.of_siteIn hk.append_right).2.1
      cases hm with
      | here => exact hafter
      | inside hm => exact Nat.le_trans (inside.of_siteIn hm).2.2 hafter
      | after hm => exact ih after hm

/-- A site that is in another one leaves out a part of its text, if the other one is no variable without
a value. -/
theorem narrow_of_siteIn (h : LaidOut source ok lo hi ns) (hn : SiteIn n ns)
    (hm : SiteIn m (sitesOf n.children)) (hk : n.kind.isDeclarator → n.children.length ≠ 1) :
    n.span.start < m.span.start ∨ m.span.stop < n.span.stop := by
  have hinside := h.inside_of_siteIn hn
  obtain ⟨-, hnarrow⟩ := (h.site_of_siteIn hn).narrow hk
  obtain ⟨outer, houter, hstart, hstop⟩ := hinside.exists_outermost hm
  have hbounds := hnarrow outer houter
  omega

/-- Two sites are the same, one after the other, or one inside the other. -/
theorem trichotomy (h : LaidOut source ok lo hi ns) (hm : SiteIn m ns) (hn : SiteIn n ns) :
    m = n ∨ m.span.stop ≤ n.span.start ∨ n.span.stop ≤ m.span.start ∨
      SiteIn m (sitesOf n.children) ∨ SiteIn n (sitesOf m.children) := by
  induction h with
  | nil => cases hm
  | cons lo_le le_stop stop_le ok_start ok_stop inside site after ihInside ihAfter =>
    have hinside {k : Node} (hk : SiteIn k (sitesOf _)) := (inside.of_siteIn hk).2.2
    have hafter {k : Node} (hk : SiteIn k _) := (after.of_siteIn hk).2.1
    cases hm with
    | here =>
      cases hn with
      | here => exact .inl rfl
      | inside hn => exact .inr (.inr (.inr (.inr hn)))
      | after hn => exact .inr (.inl (hafter hn))
    | inside hm =>
      cases hn with
      | here => exact .inr (.inr (.inr (.inl hm)))
      | inside hn => exact ihInside hm hn
      | after hn => exact .inr (.inl (Nat.le_trans (hinside hm) (hafter hn)))
    | after hm =>
      cases hn with
      | here => exact .inr (.inr (.inl (hafter hm)))
      | inside hn => exact .inr (.inr (.inl (Nat.le_trans (hinside hn) (hafter hm))))
      | after hn => exact ihAfter hm hn

theorem stop_lt_of_call (h : LaidOut source ok lo hi ns) (hn : SiteIn n ns) (hk : n.kind = .call)
    (hm : SiteIn m (sitesOf n.children)) : m.span.stop < n.span.stop := by
  obtain ⟨outer, houter, -, hstop⟩ := (h.inside_of_siteIn hn).exists_outermost hm
  exact Nat.lt_of_le_of_lt hstop ((h.site_of_siteIn hn).closed hk outer houter)

/-- No two calls end at the same place. -/
theorem eq_of_calls (h : LaidOut source ok lo hi ns) (hm : SiteIn m ns) (hn : SiteIn n ns) (hmk : m.kind = .call)
    (hnk : n.kind = .call) (hstop : m.span.stop = n.span.stop) : m = n := by
  have hmlt := (h.site_of_siteIn hm).lt
  have hnlt := (h.site_of_siteIn hn).lt
  rcases h.trichotomy hm hn with heq | hbefore | hafter | hin | hin
  · exact heq
  · omega
  · omega
  · exact absurd hstop (Nat.ne_of_lt (h.stop_lt_of_call hn hnk hin))
  · exact absurd hstop (Nat.ne_of_gt (h.stop_lt_of_call hm hmk hin))

end LaidOut

end FlatBundle.Script
