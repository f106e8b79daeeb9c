import FlatBundle.Proofs.Scope.LateCalls

/-!
Calls in code that waits: in functions that are not called where they stand, in generators, and in the values of
the fields of instances. The test for late calls asks for the first kind only.
-/

namespace FlatBundle

open Script (Node Kind)

namespace Frame

/-- The frame leads into a function that is not called where it stands. -/
def isUncalled (f : Frame) (outer : Path) : Bool :=
  match f.node.kind with
  | .function _ _ _ _ | .arrow _ => !leadsToCalled outer
  | _ => false

/-- The frame leads into a generator, of which a call runs nothing yet. -/
def isGenerator (f : Frame) : Bool :=
  match f.node.kind with
  | .function _ _ isGenerator _ => isGenerator
  | _ => false

/-- The frame leads into the value of a field, which is made anew for each instance. -/
def isFieldValue (f : Frame) : Bool :=
  match f.node.kind with
  | .property isStatic initialized => !isStatic && initialized && f.child + 1 == f.node.children.length
  | _ => false

/-- What the frame leads into does not run where it stands. -/
def isDeferred (f : Frame) (outer : Path) : Bool :=
  f.isUncalled outer || f.isGenerator || f.isFieldValue

end Frame

variable {test test' : Frame → Path → Bool} {path outer : Path} {f : Frame}

instance decidablePassesInto : ∀ path, Decidable (PassesInto test path)
  | [] => isFalse fun ⟨_, _, _, heq, _⟩ => by simp at heq
  | f :: outer =>
    have := decidablePassesInto outer
    decidable_of_iff (test f outer ∨ PassesInto test outer) passesInto_cons.symm

theorem PassesInto.imp (h : PassesInto test path) (himp : ∀ f outer, test f outer → test' f outer) :
    PassesInto test' path := by
  obtain ⟨inner, f, outer, heq, htest⟩ := h
  exact ⟨inner, f, outer, heq, himp f outer htest⟩

theorem passesInto_or : PassesInto (fun f outer => test f outer || test' f outer) path ↔
    PassesInto test path ∨ PassesInto test' path := by
  constructor
  · rintro ⟨inner, f, outer, heq, htest⟩
    exact (Bool.or_eq_true_iff.mp htest).imp (⟨inner, f, outer, heq, ·⟩) (⟨inner, f, outer, heq, ·⟩)
  · rintro (h | h)
    · exact h.imp fun _ _ htest => Bool.or_eq_true_iff.mpr (.inl htest)
    · exact h.imp fun _ _ htest => Bool.or_eq_true_iff.mpr (.inr htest)

section LaidOut

variable {source : List Char} {ok : Nat → Prop} {lo hi : Nat} {root n : Node}
  (hlaid : Script.LaidOut source ok lo hi root.sites)
include hlaid

/-- A call or an access has its first child where no other one is. -/
theorem PathTo.endsFirst (h : PathTo root path n) (hk : n.kind.leadsToCalled) : Script.EndsFirst n.children := by
  have hsite := h.partOf.site (Kind.isSite_of_leadsToCalled hk)
  exact (hlaid.site_of_siteIn hsite).first hk

theorem leadsToCallee_of_isCallee (h : PathTo root path n) (hcallee : isCallee n.span path) :
    leadsToCallee path := by
  cases h with
  | root => exact hcallee
  | @child outer parent _ k houter hk =>
    have hfirst := houter.endsFirst hlaid
    obtain ⟨kind, span, children⟩ := parent
    cases kind with
    | call =>
      cases children with
      | nil => cases hk
      | cons callee rest =>
        obtain rfl : k = 0 := (hfirst rfl).eq_zero rfl hk (eq_of_beq hcallee)
        rfl
    | _ => exact hcallee

theorem leadsToCalled_of_isInvokedInPlace (h : PathTo root path n) (hinvoked : isInvokedInPlace n.span path) :
    leadsToCalled path := by
  cases h with
  | root => exact hinvoked
  | @child outer parent _ k houter hk =>
    have hfirst := houter.endsFirst hlaid
    have houtside := leadsToCallee_of_isCallee hlaid houter
    have hcallee := leadsToCallee_of_isCallee hlaid (.child houter hk)
    obtain ⟨kind, span, children⟩ := parent
    cases kind with
    | field property =>
      cases children with
      | nil => cases hk
      | cons object rest =>
        obtain ⟨hwhole, hcalled⟩ := Bool.and_eq_true_iff.mp hinvoked
        obtain ⟨hobject, hname⟩ := Bool.and_eq_true_iff.mp hwhole
        obtain rfl : k = 0 := (hfirst rfl).eq_zero rfl hk (eq_of_beq hobject)
        exact Bool.and_eq_true_iff.mpr ⟨hname, houtside hcalled⟩
    | _ => exact hcallee hinvoked

/-- What runs in its place is in no function that waits to be called. -/
theorem not_passesInto_isUncalled (h : PathTo root path n) (hpredictable : isUnpredictable n.span path = false) :
    ¬PassesInto Frame.isUncalled path := by
  -- outward from the node: a function that the test passes by is called where it stands
  induction h with
  | root => exact fun ⟨inner, f, outer, heq, _⟩ => by simp at heq
  | @child outer parent n k houter hk ih =>
    have hinvoked := leadsToCalled_of_isInvokedInPlace hlaid houter
    obtain ⟨hhere, hfurther⟩ := Bool.or_eq_false_iff.mp hpredictable
    rw [passesInto_cons]
    refine not_or.mpr ⟨fun huncalled => ?_, ih hfurther⟩
    obtain ⟨kind, span, children⟩ := parent
    have hcalled (hb : (!isInvokedInPlace span outer) = false) : (!leadsToCalled outer) = false := by
      rw [Bool.not_eq_false'] at hb ⊢
      exact hinvoked hb
    cases kind with
    | function => exact Bool.false_ne_true ((hcalled hhere).symm.trans huncalled)
    | arrow => exact Bool.false_ne_true ((hcalled hhere).symm.trans huncalled)
    | _ => cases huncalled

end LaidOut

namespace Analysis

variable {p : Script.Program} {source : String} {calls : List RequireCall}

/-- No call that counts as one that runs in its place stands in code that waits. -/
def KnowsDeferred (p : Script.Program) (calls : List RequireCall) : Prop :=
  ∀ c ∈ calls, c.unpredictable = false → ∀ e ∈ p.spots, e.node.kind = .call → e.node.span = c.span →
    ¬PassesInto Frame.isDeferred e.path

instance : Decidable (KnowsDeferred p calls) :=
  inferInstanceAs (Decidable (∀ c ∈ calls, _))

/-- Functions that wait to be called are known, always: so it is just the calls in generators and in the values
of fields that have to count as late for another reason. -/
theorem knowsDeferred_iff (h : Script.Program.parse? source = some p) :
    (∀ c ∈ (ofProgram p source).calls,
      (∃ e ∈ p.spots, e.node.kind = .call ∧ e.node.span = c.span) ∧
      (c.unpredictable = false → ∀ e ∈ p.spots, e.node.kind = .call → e.node.span = c.span →
        ¬PassesInto Frame.isUncalled e.path)) ∧
    (KnowsDeferred p (ofProgram p source).calls ↔
      ∀ c ∈ (ofProgram p source).calls, ∀ e ∈ p.spots, e.node.kind = .call → e.node.span = c.span →
        PassesInto (fun f _ => f.isGenerator || f.isFieldValue) e.path → c.unpredictable = true) := by
  have huncalled : ∀ c ∈ (ofProgram p source).calls, c.unpredictable = false →
      ∀ e ∈ p.spots, e.node.kind = .call → e.node.span = c.span → ¬PassesInto Frame.isUncalled e.path := by
    intro c hc hpredictable e he hk hspan
    obtain ⟨lo, hi, hlaid⟩ := (Script.spanned_parse? h).laidOut
    rw [unpredictable_eq h hc he hk hspan] at hpredictable
    exact not_passesInto_isUncalled hlaid (p.pathTo_of_mem_spots he) hpredictable
  refine ⟨fun c hc => ⟨?_, huncalled c hc⟩, fun hknows c hc e he hk hspan hin => ?_,
    fun hlate c hc hpredictable e he hk hspan hin => ?_⟩
  · obtain ⟨e, he, hk, hspan, -⟩ := exists_spot_of_call hc
    exact ⟨e, he, hk, hspan⟩
  · by_contra hpredictable
    refine hknows c hc (Bool.eq_false_iff.mpr hpredictable) e he hk hspan (hin.imp fun f outer htest => ?_)
    rw [Frame.isDeferred, Bool.or_assoc, htest, Bool.or_true]
  · have hin : PassesInto (fun f outer => f.isUncalled outer || (f.isGenerator || f.isFieldValue)) e.path :=
      hin.imp fun f outer htest => Bool.or_assoc .. ▸ htest
    rcases passesInto_or.mp hin with hin | hin
    · exact huncalled c hc hpredictable e he hk hspan hin
    · exact Bool.false_ne_true (hpredictable.symm.trans (hlate c hc e he hk hspan hin))

/-- Calls in a function called where it stands, in the value of a static field, in a generator and in a method. -/
def knownCalls : String :=
  "(function () \x7b require('a'); \x7d)(); class A \x7b static x = require('b'); y() \x7b require('c'); \x7d \x7d " ++
    "function* g() \x7b require('d'); \x7d"

theorem knowsDeferred_knownCalls : ∃ p, Script.Program.parse? knownCalls = some p ∧
    (ofProgram p knownCalls).calls.map (·.unpredictable) = [false, false, true, true] ∧
    KnowsDeferred p (ofProgram p knownCalls).calls := by
  obtain ⟨p, hp, hcalls, hlate⟩ : ∃ p ∈ Script.Program.parse? knownCalls,
      (ofProgram p knownCalls).calls.map (·.unpredictable) = [false, false, true, true] ∧
      ∀ c ∈ (ofProgram p knownCalls).calls, ∀ e ∈ p.spots, e.node.kind = .call → e.node.span = c.span →
        PassesInto (fun f _ => f.isGenerator || f.isFieldValue) e.path → c.unpredictable = true := by
    decide +kernel
  exact ⟨p, hp, hcalls, (knowsDeferred_iff hp).2.mpr hlate⟩

/-- A call in the value of a field, and one in a generator that is called where it stands. -/
def fieldCall : String :=
  "class A \x7b x = require('a'); \x7d"

def generatorCall : String :=
  "(function* () \x7b require('a'); \x7d)();"

theorem not_knowsDeferred :
    (∃ p, Script.Program.parse? fieldCall = some p ∧ ¬KnowsDeferred p (ofProgram p fieldCall).calls) ∧
    ∃ p, Script.Program.parse? generatorCall = some p ∧ ¬KnowsDeferred p (ofProgram p generatorCall).calls := by
  have hfield : ∃ p ∈ Script.Program.parse? fieldCall, ¬KnowsDeferred p (ofProgram p fieldCall).calls := by
    decide +kernel
  have hgenerator : ∃ p ∈ Script.Program.parse? generatorCall,
      ¬KnowsDeferred p (ofProgram p generatorCall).calls := by
    decide +kernel
  obtain ⟨p, hp, hfield⟩ := hfield
  obtain ⟨q, hq, hgenerator⟩ := hgenerator
  exact ⟨⟨p, hp, hfield⟩, q, hq, hgenerator⟩

end Analysis

end FlatBundle
