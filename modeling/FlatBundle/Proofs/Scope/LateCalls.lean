import FlatBundle.Proofs.Scope.Calls

/-!
Which calls may run late, several times or not at all. The test for it goes outward from a call and compares
spans; here it is said by the ways into the nodes around the call.
-/

namespace FlatBundle

open Script (Span Node Kind)

instance {s s' : Span} : Decidable (s.Apart s') :=
  inferInstanceAs (Decidable (_ ∨ _))

/-- The children of a node are in it, and clear of each other. -/
def Script.Node.Spaced (n : Node) : Prop :=
  n.children.Pairwise (fun m o => m.span.Apart o.span) ∧
    ∀ m ∈ n.children, n.span.start ≤ m.span.start ∧ m.span.stop ≤ n.span.stop

instance {n : Node} : Decidable n.Spaced :=
  inferInstanceAs (Decidable (_ ∧ _))

def Script.Program.Spaced (p : Script.Program) : Prop :=
  ∀ e ∈ p.spots, e.node.Spaced

instance {p : Script.Program} : Decidable p.Spaced :=
  inferInstanceAs (Decidable (∀ e ∈ p.spots, _))

/-- A path leads to what a call calls. -/
def leadsToCallee : Path → Bool
  | ⟨.mk .call _ _, 0⟩ :: _ => true
  | _ => false

/-- A path leads to what is called, or to the object of a `.call` or `.apply` that is. -/
def leadsToCalled : Path → Bool
  | ⟨.mk (.field property) _ _, 0⟩ :: outer => (property == "call" || property == "apply") && leadsToCallee outer
  | path => leadsToCallee path

/-- What a frame on a path leads into may run late, several times or not at all: a loop, a branch, or a function
that is not called where it stands. -/
def Frame.isLate (f : Frame) (outer : Path) : Bool :=
  match f.node.kind with
  | .whileStatement | .doWhile | .forStatement | .forIn | .forOf => true
  | .ifStatement => f.child != 0
  | .function _ _ _ _ | .arrow _ => !leadsToCalled outer
  | _ => false

def RunsLate (path : Path) : Prop :=
  ∃ inner f outer, path = inner ++ f :: outer ∧ f.isLate outer

/-- A path goes through a frame that passes a test, which may ask for the frames around it too. -/
def PassesInto (test : Frame → Path → Bool) (path : Path) : Prop :=
  ∃ inner f outer, path = inner ++ f :: outer ∧ test f outer

variable {root n m parent : Node} {path outer : Path} {f : Frame} {j k : Nat} {test : Frame → Path → Bool}

theorem passesInto_cons : PassesInto test (f :: outer) ↔ test f outer ∨ PassesInto test outer := by
  constructor
  · rintro ⟨inner, g, rest, heq, htest⟩
    cases inner with
    | nil =>
      cases heq
      exact .inl htest
    | cons _ inner =>
      cases heq
      exact .inr ⟨inner, g, rest, rfl, htest⟩
  · rintro (htest | ⟨inner, g, rest, rfl, htest⟩)
    · exact ⟨[], f, outer, rfl, htest⟩
    · exact ⟨f :: inner, g, rest, rfl, htest⟩

theorem runsLate_cons : RunsLate (f :: outer) ↔ f.isLate outer ∨ RunsLate outer :=
  passesInto_cons

section Spans

/-- Among the children of a node there is no second one where one stands. -/
theorem Script.Node.Spaced.span_eq_iff (h : parent.Spaced) (hj : parent.children[j]? = some m)
    (hk : parent.children[k]? = some n) (hn : n.span.start < n.span.stop) : m.span = n.span ↔ k = j := by
  obtain ⟨hjlt, rfl⟩ := List.getElem?_eq_some_iff.mp hj
  obtain ⟨hklt, rfl⟩ := List.getElem?_eq_some_iff.mp hk
  have happart := List.pairwise_iff_getElem.mp h.1
  constructor
  · intro hspan
    by_contra hne
    rcases Nat.lt_or_gt_of_ne hne with hlt | hlt
    · have hclear := happart k j hklt hjlt hlt
      rw [Span.Apart, hspan] at hclear
      omega
    · have hclear := happart j k hjlt hklt hlt
      rw [Span.Apart, hspan] at hclear
      omega
  · rintro rfl
    rfl

theorem Script.Node.Spaced.lt (h : parent.Spaced) (hk : parent.children[k]? = some n)
    (hn : n.span.start < n.span.stop) : parent.span.start < parent.span.stop := by
  have hwithin := h.2 n (List.mem_of_getElem? hk)
  omega

variable (hspaced : ∀ path n, PathTo root path n → n.Spaced)
include hspaced

theorem isCallee_eq (h : PathTo root path n) (hn : n.span.start < n.span.stop) :
    isCallee n.span path = leadsToCallee path := by
  cases h with
  | root => rfl
  | @child outer parent _ k houter hk =>
    have hsame {m : Node} (hm : parent.children[0]? = some m) := (hspaced _ _ houter).span_eq_iff hm hk hn
    obtain ⟨kind, span, children⟩ := parent
    cases kind with
    | call =>
      cases children with
      | nil => cases hk
      | cons callee rest =>
        have hcallee : callee.span = n.span ↔ k = 0 := hsame rfl
        rw [isCallee]
        cases k with
        | zero => exact beq_iff_eq.mpr (hcallee.mpr rfl)
        | succ k => exact beq_eq_false_iff_ne.mpr (mt hcallee.mp (Nat.succ_ne_zero k))
    | _ => rfl

theorem isInvokedInPlace_eq (h : PathTo root path n) (hn : n.span.start < n.span.stop) :
    isInvokedInPlace n.span path = leadsToCalled path := by
  have hcallee := isCallee_eq hspaced h hn
  cases h with
  | root => exact hcallee
  | @child outer parent _ k houter hk =>
    have hsame {m : Node} (hm : parent.children[0]? = some m) := (hspaced _ _ houter).span_eq_iff hm hk hn
    have houtside := isCallee_eq hspaced houter ((hspaced _ _ houter).lt hk hn)
    obtain ⟨kind, span, children⟩ := parent
    cases kind with
    | field property =>
      cases children with
      | nil => cases hk
      | cons object rest =>
        have hobject : object.span = n.span ↔ k = 0 := hsame rfl
        have houtside : isCallee span outer = leadsToCallee outer := houtside
        rw [isInvokedInPlace, houtside]
        cases k with
        | zero => rw [beq_iff_eq.mpr (hobject.mpr rfl), Bool.true_and]; rfl
        | succ k => rw [beq_eq_false_iff_ne.mpr (mt hobject.mp (Nat.succ_ne_zero k))]; rfl
    | _ => exact hcallee

/-- Where children are clear of each other, going outward by spans is the same as going by ways. -/
theorem isUnpredictable_iff (h : PathTo root path n) (hn : n.span.start < n.span.stop) :
    isUnpredictable n.span path = true ↔ RunsLate path := by
  -- outward from the call: what the test asks of the innermost node is what its frame says, and the rest of the
  -- way is that of the node itself
  induction h with
  | root => exact ⟨nofun, fun ⟨inner, f, outer, heq, _⟩ => by simp at heq⟩
  | @child outer parent n k houter hk ih =>
    have hparent := (hspaced _ _ houter).lt hk hn
    have hinvoked := isInvokedInPlace_eq hspaced houter hparent
    have hsame {m : Node} (hm : parent.children[0]? = some m) := (hspaced _ _ houter).span_eq_iff hm hk hn
    rw [runsLate_cons, ← ih hparent, isUnpredictable, Bool.or_eq_true]
    refine or_congr_left ?_
    obtain ⟨kind, span, children⟩ := parent
    have hcalled : isInvokedInPlace span outer = leadsToCalled outer := hinvoked
    cases kind with
    | ifStatement =>
      cases children with
      | nil => cases hk
      | cons test rest =>
        have htest : test.span = n.span ↔ k = 0 := hsame rfl
        change (test.span != n.span) = true ↔ (k != 0) = true
        rw [bne_iff_ne, bne_iff_ne]
        exact not_congr htest
    | function role isAsync isGenerator named =>
      dsimp only
      rw [hcalled]
      rfl
    | arrow isAsync =>
      dsimp only
      rw [hcalled]
      rfl
    | _ => rfl

end Spans

namespace Analysis

variable {p : Script.Program} {source : String} {c : RequireCall}

/-- A recorded call is one in the script, which the test for late ones is made for. -/
theorem exists_spot_of_call (hc : c ∈ (ofProgram p source).calls) :
    ∃ e ∈ p.spots, e.node.kind = .call ∧ e.node.span = c.span ∧
      c.unpredictable = isUnpredictable e.node.span e.path := by
  rw [calls_ofProgram, p.filterMap_visited fun _ => rfl] at hc
  obtain ⟨e, he, hc⟩ := List.mem_flatMap.mp hc
  rw [filterMap_located_called] at hc
  obtain ⟨site, hsite, hcalled⟩ := Option.bind_eq_some_iff.mp (Option.mem_toList.mp hc)
  obtain ⟨hk, hspan, -⟩ := callSite?_eq_some hsite
  have hlate : site.unpredictable = isUnpredictable e.node.span e.path := by
    unfold callSite? at hsite
    split at hsite
    next =>
      obtain ⟨specifier, -, rfl⟩ := Option.map_eq_some_iff.mp hsite
      rw [hspan]
    next => cases hsite
  rw [ScopeTree.called?] at hcalled
  split at hcalled
  next =>
    cases hcalled
    exact ⟨e, he, hk, hspan, hlate⟩
  next => cases hcalled

/-- No other call stands where a recorded one does. -/
theorem unpredictable_eq {e : Spot} (h : Script.Program.parse? source = some p) (hc : c ∈ (ofProgram p source).calls)
    (he : e ∈ p.spots) (hk : e.node.kind = .call) (hspan : e.node.span = c.span) :
    c.unpredictable = isUnpredictable e.node.span e.path := by
  obtain ⟨e', he', hk', hspan', hlate⟩ := exists_spot_of_call hc
  obtain ⟨lo, hi, hlaid⟩ := (Script.spanned_parse? h).laidOut
  have hsite : e.node.kind.isSite ∧ e.node.kind.isDeclarator = false := by rw [hk]; exact ⟨rfl, rfl⟩
  have hsite' : e'.node.kind.isSite ∧ e'.node.kind.isDeclarator = false := by rw [hk']; exact ⟨rfl, rfl⟩
  obtain ⟨hsame, hnode⟩ := (p.pathTo_of_mem_spots he).eq_of_span hlaid (p.pathTo_of_mem_spots he') hsite.1 hsite'.1
    hsite.2 hsite'.2 (hspan.trans hspan'.symm)
  rw [hlate, hsame, hnode]

/-- Where children are clear of each other and in their parents, a recorded call is unpredictable just if the way
from the script to it enters a loop, a branch, or a function that is not called where it stands. -/
theorem unpredictable_iff_runsLate (h : Script.Program.parse? source = some p) (hspaced : p.Spaced)
    (hc : c ∈ (ofProgram p source).calls) :
    (∃ e ∈ p.spots, e.node.kind = .call ∧ e.node.span = c.span) ∧
    ∀ e ∈ p.spots, e.node.kind = .call → e.node.span = c.span →
      (c.unpredictable = true ↔ RunsLate e.path) := by
  obtain ⟨e, he, hk, hspan, -⟩ := exists_spot_of_call hc
  refine ⟨⟨e, he, hk, hspan⟩, fun e he hk hspan => ?_⟩
  obtain ⟨lo, hi, hlaid⟩ := (Script.spanned_parse? h).laidOut
  have hpath := p.pathTo_of_mem_spots he
  have hspaced : ∀ path n, PathTo p.tree path n → n.Spaced := by
    intro path n hn
    obtain ⟨o, ho, rfl, rfl⟩ := p.exists_spot hn
    exact hspaced o ho
  have hlt : e.node.span.start < e.node.span.stop :=
    (hlaid.site_of_siteIn (hpath.partOf.site (by rw [hk]; rfl))).lt
  rw [unpredictable_eq h hc he hk hspan]
  exact isUnpredictable_iff hspaced hpath hlt

/-- Calls in a test, in a branch, in a function that is called where it stands, and in one that is not. -/
def callsAround : String :=
  "if (require('a')) require('b'); (function () \x7b require('c'); \x7d).call(); (() => require('d'));"

theorem runsLate_callsAround : ∃ p, Script.Program.parse? callsAround = some p ∧ p.Spaced ∧
    (ofProgram p callsAround).calls.map (·.specifier) = ["a", "b", "c", "d"] ∧
    ∀ c ∈ (ofProgram p callsAround).calls, ∀ e ∈ p.spots, e.node.kind = .call → e.node.span = c.span →
      (RunsLate e.path ↔ c.specifier = "b" ∨ c.specifier = "d") := by
  obtain ⟨p, hp, hspaced, hcalls, hlate⟩ : ∃ p ∈ Script.Program.parse? callsAround, p.Spaced ∧
      (ofProgram p callsAround).calls.map (·.specifier) = ["a", "b", "c", "d"] ∧
      ∀ c ∈ (ofProgram p callsAround).calls,
        c.unpredictable = true ↔ c.specifier = "b" ∨ c.specifier = "d" := by
    decide +kernel
  refine ⟨p, hp, hspaced, hcalls, fun c hc e he hk hspan => ?_⟩
  rw [← (unpredictable_iff_runsLate hp hspaced hc).2 e he hk hspan]
  exact hlate c hc

end Analysis

end FlatBundle
