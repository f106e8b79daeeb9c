import FlatBundle.Proofs.Bundle.Spelling
import FlatBundle.Proofs.Scope.Declarator

/-!
The variables that get their values from calls of eager modules: all occurrences of each become the
variable of the other module, whatever else declares the name or writes to it.
-/

namespace FlatBundle

open Script (Span Node VariableKind)

variable {l : Linked} {t : Table} {modules : List ModuleFacts} {m : ModuleFacts} {call : RequireCall}
  {d : RequireDeclarator} {r : Reference} {i target : Nat}

/-- What a node gives a value to. A declaration is no such thing. -/
def assignedChildren : Node → List Node
  | .mk (.assignment _) _ (n :: _) | .mk .update _ (n :: _) | .mk .forIn _ (n :: _)
  | .mk .forOf _ (n :: _) | .mk .targetDefault _ (n :: _) | .mk .targetShorthand _ (n :: _) => [n]
  | .mk .targetMember _ children => children.getLast?.toList
  | .mk .arrayTarget _ children | .mk .targetRest _ children => children
  | _ => []

def nameSpan? : Node → Option Span
  | .mk (.reference _) span _ => some span
  | _ => none

mutual

/-- Where names are written to. -/
def writtenSpans : Node → List Span
  | .mk kind span children =>
    (assignedChildren (.mk kind span children)).filterMap nameSpan? ++ writtenSpansOfAll children

def writtenSpansOfAll : List Node → List Span
  | [] => []
  | n :: rest => writtenSpans n ++ writtenSpansOfAll rest

end

theorem requirementEdits_cons {gone : List Span} {q : Requirement} {qs : List Requirement} :
    ∃ front gone', requirementEdits l m gone (q :: qs) = front ++ requirementEdits l m gone' qs := by
  obtain ⟨call, target | id⟩ := q
  · rw [requirementEdits]
    split
    · exact ⟨[_], gone, rfl⟩
    · exact ⟨_, _, rfl⟩
  · exact ⟨[_], gone, rfl⟩

namespace Linked

theorem mem_requirementEdits {gone : List Span} {qs : List Requirement}
    (hq : ⟨call, .internal target⟩ ∈ qs) (heager : l.isOnDemand target = false)
    (hd : call.declarator = some d) (hr : r ∈ m.scopes.referencesOf d.binding) :
    renameOccurrence m.record.source (l.facts target).exportsName r ∈ requirementEdits l m gone qs := by
  -- the declarators that are gone decide how the next one is cut out, not what occurrences become
  induction qs generalizing gone with
  | nil => cases hq
  | cons q qs ih =>
    rcases List.mem_cons.mp hq with rfl | hq
    · have hexports : l.exportsOf target = (l.facts target).exportsName := by
        simp [exportsOf, heager]
      rw [requirementEdits, heager, hexports, inlineEdits, hd]
      exact List.mem_append_left _ (List.mem_append_left _ (List.mem_map_of_mem hr))
    · obtain ⟨front, gone', hedits⟩ : ∃ front gone', requirementEdits l m gone (q :: qs) =
          front ++ requirementEdits l m gone' qs := requirementEdits_cons
      rw [hedits]
      exact List.mem_append_right _ (ih hq)

end Linked

/-- The variable that gets its value from a call: it is declared at `own` in the scope of the call, and
the call knows what its name means there. -/
structure VariableAt (p : Script.Program) (tree : ScopeTree) (call : RequireCall)
    (d : RequireDeclarator) (at_ : Nat) (name : String) (kind : VariableKind) (own : Span) : Prop where
  site : DeclaratorAt p.tree ⟨name, d.declaration, d.declarators, d.position⟩ kind call.span own
  declared : (at_, .declare (placeOf kind) name own false) ∈ p.visited
  found : tree.findBinding at_ name = some d.binding

theorem Analysis.exists_variableAt {p : Script.Program} {source : String}
    (hcall : call ∈ (ofProgram p source).calls) (hd : call.declarator = some d) :
    ∃ at_ name kind own, VariableAt p (ofProgram p source).scopes call d at_ name kind own := by
  rw [calls_ofProgram] at hcall
  obtain ⟨⟨at_, v⟩, he, hv⟩ := List.mem_filterMap.mp hcall
  cases v with
  | enter | leave | declare | refer => cases hv
  | call site =>
    rw [ScopeTree.called?] at hv
    split at hv
    · obtain rfl := Option.some.inj hv
      obtain ⟨ds, hsite, hbinding⟩ := Option.bind_eq_some_iff.mp hd
      obtain ⟨b, hfind, rfl⟩ := Option.map_eq_some_iff.mp hbinding
      rcases exists_declaration_of_call .start [] p.tree .root he hsite with
        ⟨htop, -⟩ | ⟨kind, own, hown, hmem⟩
      · obtain ⟨-, -, hnone⟩ := callSite?_eq_some htop
        rw [hsite] at hnone
        cases hnone
      · exact ⟨at_, ds.name, kind, own, hown, hmem, hfind⟩
    · cases hv

namespace Linked

/-- A module that passes on what it gets from another one. -/
def passedOn : List Record := [
  { id := .number 1, source := "var a = require('./a'); f(a);", deps := [("./a", some (.number 2))] },
  { id := .number 2, source := "f(exports);" }]

end Linked

end FlatBundle
