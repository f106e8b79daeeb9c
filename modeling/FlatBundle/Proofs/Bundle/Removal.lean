import FlatBundle.Proofs.Bundle.Placement
import FlatBundle.Proofs.Bundle.Statements
import FlatBundle.Proofs.Edit.Splicing

/-!
What is left of a declaration when some of its declarators are taken out one after the other: the others,
each with the text up to the declarator behind it, or a comment if there are none.
-/

namespace FlatBundle

open Script (Span Node LaidOut)

variable {source : String} {declaration d : Span} {ds kept taken : List Span}
  {gone : Span → Bool} {kept? : Option Span} {edits effective : List Edit} {e : Edit}
  {rs : List RequireDeclarator} {r : RequireDeclarator} {root : Node} {offset lo hi : Nat}

/-- The edits that take declarators out one after the other; those `taken` are out already. -/
def removalEdits (source : String) (taken : List Span) : List RequireDeclarator → List Edit
  | [] => []
  | r :: rs => (declaratorEdit? source taken r).toList ++ removalEdits source (r.span :: taken) rs

/-- These are the declarators of a declaration that are gone, in source order. -/
structure TakesOut (declaration : Span) (ds : List Span) (gone : Span → Bool)
    (rs : List RequireDeclarator) : Prop where
  spans : rs.map RequireDeclarator.span = ds.filter gone
  sites : ∀ r ∈ rs, r.declaration = declaration ∧ r.declarators = ds

/-- The declarator that goes with a call. -/
def Requirement.takenOut? (l : Linked) : Requirement → Option RequireDeclarator
  | ⟨_, .external _⟩ => none
  | ⟨call, .internal i⟩ => if l.isOnDemand i then none else call.declarator

/-- Calls take their declarators out in this way. -/
theorem removalEdits_sublist {l : Linked} {m : ModuleFacts} {qs : List Requirement} :
    (removalEdits m.record.source taken (qs.filterMap (Requirement.takenOut? l))).Sublist
      (requirementEdits l m taken qs) := by
  induction qs generalizing taken with
  | nil => exact .refl _
  | cons q qs ih =>
    obtain ⟨call, target | id⟩ := q
    · by_cases hcalled : l.isOnDemand target
      · rw [requirementEdits, if_pos hcalled, List.filterMap_cons, Requirement.takenOut?, if_pos hcalled]
        exact ih.cons _
      · rw [requirementEdits, if_neg hcalled, List.filterMap_cons, Requirement.takenOut?, if_neg hcalled,
          inlineEdits]
        cases call.declarator with
        | none => exact ih.cons _
        | some d => exact (List.sublist_append_right _ _).append ih
    · exact ih.cons _

/-- Removals lie in the text and do not get in each other's way. -/
theorem removalEdits_spec {chars : List Char} {ok : Nat → Prop} (hlaid : LaidOut chars ok lo hi root.sites)
    (hrs : ∀ r ∈ rs, DeclarationAt root r.declaration r.declarators) :
    (∀ e ∈ removalEdits source taken rs, EditAt root (CutOpen taken) e) ∧
      AllLaminar (removalEdits source taken rs) := by
  induction rs generalizing taken with
  | nil => exact ⟨nofun, nofun⟩
  | cons r rs ih =>
    obtain ⟨hopen, hlaminar⟩ := @ih (r.span :: taken) fun r hr => hrs r (List.mem_cons_of_mem _ hr)
    have hrest (e : Edit) (he : e ∈ removalEdits source (r.span :: taken) rs) : EditAt root (CutOpen taken) e :=
      (hopen e he).imp fun _ hcut => hcut.mono (List.subset_cons_self _ _)
    rw [removalEdits]
    cases hedit : declaratorEdit? source taken r with
    | none => exact ⟨hrest, hlaminar⟩
    | some e =>
      obtain ⟨hown, hclosed⟩ := editAt_declaratorEdit? (hrs r List.mem_cons_self) hedit
      refine ⟨List.forall_mem_cons.mpr ⟨hown, hrest⟩, ?_⟩
      refine .append (allLaminar_singleton e) hlaminar fun a ha b hb => ?_
      rw [List.mem_singleton.mp ha]
      exact hclosed.laminar (hopen b hb) hlaid

section Text

theorem spanText_of_restAt {part rest : List Char} (h : RestAt source.toList (part ++ rest) offset) :
    spanText source ⟨offset, offset + byteLength part⟩ = String.ofList part := by
  rw [spanText, h.sliceBytes, Option.getD_some]

theorem spanText_self {o : Nat} (h : isBoundary source.toList o) : spanText source ⟨o, o⟩ = "" := by
  obtain ⟨rest, hrest⟩ := isBoundary_iff.mp h
  exact @spanText_of_restAt source o [] rest hrest

theorem spanText_append {a b c : Nat} (ha : isBoundary source.toList a) (hb : isBoundary source.toList b)
    (hc : isBoundary source.toList c) (hab : a ≤ b) (hbc : b ≤ c) :
    spanText source ⟨a, b⟩ ++ spanText source ⟨b, c⟩ = spanText source ⟨a, c⟩ := by
  obtain ⟨fromA, hfromA⟩ := isBoundary_iff.mp ha
  obtain ⟨fromB, hfromB⟩ := isBoundary_iff.mp hb
  obtain ⟨fromC, hfromC⟩ := isBoundary_iff.mp hc
  obtain ⟨first, rfl, hfirst⟩ := hfromA.exists_between hfromB hab
  obtain ⟨second, rfl, hsecond⟩ := hfromB.exists_between hfromC hbc
  obtain rfl : b = a + byteLength first := by omega
  obtain rfl : c = a + byteLength (first ++ second) := by
    rw [byteLength_append]
    omega
  rw [← List.append_assoc] at hfromA
  rw [spanText_of_restAt hfromA, spanText_of_restAt (List.append_assoc .. ▸ hfromA), String.ofList_append]
  have hsize : a + byteLength (first ++ second) = a + byteLength first + byteLength second := by
    rw [byteLength_append, Nat.add_assoc]
  rw [hsize, spanText_of_restAt hfromB]

/-- What a text is from an offset on, with texts in place of some spans one after the other. -/
def splicedText (source : String) (offset : Nat) : List Edit → String
  | [] => spanText source ⟨offset, byteLength source.toList⟩
  | e :: edits => spanText source ⟨offset, e.start⟩ ++ e.text ++ splicedText source e.stop edits

theorem Spliced.splicedText_eq {rest body : List Char} (h : Spliced offset edits rest body)
    (hrest : RestAt source.toList rest offset) : String.ofList body = splicedText source offset edits := by
  induction h with
  | nil =>
    obtain ⟨before, hbefore, rfl⟩ := id hrest
    rw [splicedText, hbefore, byteLength_append]
    exact (@spanText_of_restAt source _ _ [] (by rwa [List.append_nil])).symm
  | @cons offset e edits kept cut after rest hstart hstop _ ih =>
    have hcut := hrest.append kept
    rw [hstart] at hcut
    have hafter := hcut.append cut
    rw [hstop] at hafter
    rw [splicedText, ← ih hafter, ← hstart, spanText_of_restAt hrest]
    simp [String.append_assoc]

/-- The edited text, by the edits that take effect. -/
theorem EditList.code_eq {l : EditList} {request : Option MapRequest} {piece : Piece}
    (h : l.apply source request = .ok piece) (heffect : TakeEffect l.edits effective) :
    piece.code = l.intro ++ splicedText source 0 effective ++ l.outro := by
  obtain ⟨body, ⟨effective', hbefore, hmem, hspliced⟩, hcode⟩ := EditList.exists_edited_of_apply h
  obtain rfl := heffect.unique ⟨hbefore, hmem⟩
  rw [hcode, hspliced.splicedText_eq ⟨[], rfl, rfl⟩]

end Text

section Removals

/-- Taking a declarator out cuts up to the one behind it, or else from the one before it, of those that are
still there. -/
def removal (source : String) (declaration : Span) (kept? : Option Span) (d : Span) : Option Span → Edit
  | some next => ⟨d.start, next.start, ""⟩
  | none =>
    match kept? with
    | some previous => ⟨previous.stop, d.stop, ""⟩
    | none => .replacing declaration (removedText source declaration)

theorem declaratorEdit?_eq {front back : List Span}
    (h : r.declarators.filter (!taken.contains ·) = front ++ r.span :: back) (hfront : r.span ∉ front) :
    declaratorEdit? source taken r = some (removal source r.declaration front.getLast? r.span back.head?) := by
  have hindex : (front ++ r.span :: back).findIdx? (· == r.span) = some front.length := by
    have hnone : front.findIdx? (· == r.span) = none :=
      List.findIdx?_eq_none_iff.mpr fun x hx => beq_false_of_ne fun heq => hfront (heq ▸ hx)
    rw [List.findIdx?_append, hnone, List.findIdx?_cons, beq_self_eq_true]
    simp
  rw [declaratorEdit?, h]
  dsimp only
  rw [hindex]
  dsimp only
  cases back with
  | nil =>
    rcases List.eq_nil_or_concat front with rfl | ⟨front, previous, rfl⟩
    · rfl
    · simp [removal]
  | cons next back =>
    rw [if_neg (by simp; omega), if_neg (by simp)]
    simp [removal]

/-- Taking out some of the declarators of a declaration, from one declarator on, in source order. Of the
declarators further in front `kept?` is the last one that stays. -/
def removals (source : String) (declaration : Span) (gone : Span → Bool) (kept? : Option Span) :
    List Span → List Edit
  | [] => []
  | d :: ds =>
    if gone d then
      removal source declaration kept? d ds.head? :: removals source declaration gone kept? ds
    else removals source declaration gone (some d) ds

theorem filter_taken_cons {front back : List Span} (hds : ds.Nodup)
    (h : ds.filter (!taken.contains ·) = front ++ d :: back) :
    d ∉ front ∧ ds.filter (!(d :: taken).contains ·) = front ++ back := by
  have hnodup := hds.filter (!taken.contains ·)
  rw [h, List.nodup_middle, List.nodup_cons, List.mem_append, not_or] at hnodup
  obtain ⟨⟨hfront, hback⟩, -⟩ := hnodup
  refine ⟨hfront, ?_⟩
  have hboth (x : Span) : (!(d :: taken).contains x) = (x != d && !taken.contains x) := by
    rw [List.contains_cons, Bool.not_or]
    rfl
  have hclear {xs : List Span} (hxs : d ∉ xs) : xs.filter (· != d) = xs :=
    List.filter_eq_self.mpr fun x hx => bne_iff_ne.mpr fun heq => hxs (heq ▸ hx)
  rw [List.filter_congr fun x _ => hboth x, ← List.filter_filter, h, List.filter_append,
    List.filter_cons_of_neg (by simp), hclear hfront, hclear hback]

/-- What a removal cuts is decided by what is still there, which is what stays of the declarators in front
and all further ones. -/
theorem removalEdits_eq {all : List Span} (hall : all.Nodup)
    (hsites : ∀ r ∈ rs, r.declaration = declaration ∧ r.declarators = all)
    (hspans : rs.map RequireDeclarator.span = ds.filter gone)
    (h : all.filter (!taken.contains ·) = kept ++ ds) :
    removalEdits source taken rs = removals source declaration gone kept.getLast? ds := by
  induction ds generalizing kept taken rs with
  | nil =>
    obtain rfl : rs = [] := by simpa using hspans
    rfl
  | cons d ds ih =>
    rw [removals]
    split
    next hgone =>
      rw [List.filter_cons_of_pos hgone] at hspans
      obtain ⟨r, rs, rfl, rfl, hrest⟩ := List.map_eq_cons_iff.mp hspans
      obtain ⟨rfl, rfl⟩ := hsites r List.mem_cons_self
      obtain ⟨hkept, hremaining⟩ := filter_taken_cons hall h
      rw [removalEdits, declaratorEdit?_eq h hkept,
        ih (fun r hr => hsites r (List.mem_cons_of_mem _ hr)) hrest hremaining]
      rfl
    next hstays =>
      rw [List.filter_cons_of_neg hstays] at hspans
      have h' : all.filter (!taken.contains ·) = (kept ++ [d]) ++ ds := by
        rw [h, List.append_assoc, List.singleton_append]
      rw [ih hsites hspans h', List.getLast?_concat]

end Removals

/-- Spans one after the other between two offsets, none of them empty. -/
inductive InRow (chars : List Char) : Nat → Nat → List Span → Prop
  | nil {lo hi : Nat} (le : lo ≤ hi) : InRow chars lo hi []
  | cons {lo hi : Nat} {d : Span} {ds : List Span} (le : lo ≤ d.start) (lt : d.start < d.stop)
    (starts : isBoundary chars d.start) (stops : isBoundary chars d.stop)
    (rest : InRow chars d.stop hi ds) : InRow chars lo hi (d :: ds)

namespace InRow

variable {chars : List Char}

theorem of_laidOut {comments : List Span} {ns : List Node}
    (h : LaidOut chars (Script.Clear chars comments) lo hi ns) (hle : lo ≤ hi) :
    InRow chars lo hi (ns.map Node.span) := by
  induction h with
  | nil => exact .nil hle
  | cons lo_le _ stop_le starts stops _ site _ _ ih =>
    exact .cons lo_le site.lt starts.1 stops.1 (ih stop_le)

theorem le_hi (h : InRow chars lo hi ds) : lo ≤ hi := by
  induction h with
  | nil le => exact le
  | cons le lt _ _ _ ih => omega

theorem bounds (h : InRow chars lo hi ds) (hd : d ∈ ds) :
    lo ≤ d.start ∧ d.start < d.stop ∧ d.stop ≤ hi := by
  induction h with
  | nil => cases hd
  | cons le lt _ _ rest ih =>
    rcases List.mem_cons.mp hd with rfl | hd
    · exact ⟨le, lt, rest.le_hi⟩
    · obtain ⟨hstart, hrest⟩ := ih hd
      exact ⟨by omega, hrest⟩

theorem boundaries (h : InRow chars lo hi ds) (hd : d ∈ ds) :
    isBoundary chars d.start ∧ isBoundary chars d.stop := by
  induction h with
  | nil => cases hd
  | cons _ _ starts stops _ ih =>
    rcases List.mem_cons.mp hd with rfl | hd
    · exact ⟨starts, stops⟩
    · exact ih hd

theorem start_le {x : Span} (h : InRow chars lo hi (d :: ds)) (hx : x ∈ d :: ds) : d.start ≤ x.start := by
  cases h with
  | cons _ lt _ _ rest =>
    rcases List.mem_cons.mp hx with rfl | hx
    · exact Nat.le_refl _
    · have := (rest.bounds hx).1
      omega

theorem nodup (h : InRow chars lo hi ds) : ds.Nodup := by
  induction h with
  | nil => exact .nil
  | cons _ lt _ _ rest ih =>
    refine List.nodup_cons.mpr ⟨fun hd => ?_, ih⟩
    have := (rest.bounds hd).1
    omega

end InRow

/-- A declaration has declarators, and they are in a row from its start to its stop. -/
theorem inRow_of_declarationAt {chars : List Char} {comments : List Span}
    (hlaid : LaidOut chars (Script.Clear chars comments) lo hi root.sites)
    (h : DeclarationAt root declaration ds) :
    ds ≠ [] ∧ InRow chars declaration.start declaration.stop ds ∧
      isBoundary chars declaration.start ∧ isBoundary chars declaration.stop := by
  obtain ⟨kind, children, hsite, rfl⟩ := h
  have hown := hlaid.site_of_siteIn hsite
  obtain ⟨hstarts, hstops⟩ := hlaid.ends_of_siteIn hsite
  refine ⟨?_, .of_laidOut (laidOut_declarators hlaid hsite rfl).1 (Nat.le_of_lt hown.lt), hstarts.1, hstops.1⟩
  exact fun hnone => (hown.declarators rfl).1 (List.map_eq_nil_iff.mp hnone)

/-- The removals that take effect. Where no further declarator stays, the last one cuts everything behind
the one that stays last, or the whole declaration. -/
def effectiveRemovals (source : String) (declaration : Span) (gone : Span → Bool) (kept? : Option Span) :
    List Span → List Edit
  | [] => []
  | d :: ds =>
    if (d :: ds).all gone then [removal source declaration kept? (ds.getLastD d) none]
    else if gone d then
      removal source declaration kept? d ds.head? :: effectiveRemovals source declaration gone kept? ds
    else effectiveRemovals source declaration gone (some d) ds

section Effect

variable {chars : List Char}

theorem stop_le_removal (h : d.stop ≤ declaration.stop) :
    d.stop ≤ (removal source declaration kept? d none).stop := by
  cases kept? with
  | none => exact h
  | some previous => exact Nat.le_refl _

theorem removal_start_le (hstart : declaration.start ≤ lo) (hkept : ∀ k ∈ kept?, k.stop ≤ lo) :
    (removal source declaration kept? d none).start ≤ lo := by
  cases kept? with
  | none => exact hstart
  | some previous => exact hkept previous rfl

theorem lt_stop_of_mem_removals (hrow : InRow chars lo hi (d :: ds)) (hhi : hi ≤ declaration.stop)
    (he : e ∈ removals source declaration gone kept? (d :: ds)) : d.start < e.stop := by
  induction ds generalizing d kept? lo with
  | nil =>
    obtain ⟨-, hlt, hle⟩ := hrow.bounds List.mem_cons_self
    rw [removals] at he
    split at he
    · obtain rfl := List.mem_singleton.mp he
      exact Nat.lt_of_lt_of_le hlt (stop_le_removal (Nat.le_trans hle hhi))
    · cases he
  | cons next ds ih =>
    cases hrow with
    | cons _ lt _ _ rest =>
      have hnext : d.start < next.start := Nat.lt_of_lt_of_le lt (rest.bounds List.mem_cons_self).1
      rw [removals] at he
      split at he
      · rcases List.mem_cons.mp he with rfl | he
        · exact hnext
        · exact Nat.lt_trans hnext (ih rest he)
      · exact Nat.lt_trans hnext (ih rest he)

/-- Each removal stops further behind than the ones before it. -/
theorem pairwise_removals (hrow : InRow chars lo hi ds) (hhi : hi ≤ declaration.stop) :
    (removals source declaration gone kept? ds).Pairwise fun a b => a.stop < b.stop := by
  induction hrow generalizing kept? with
  | nil => exact .nil
  | @cons _ _ d ds _ _ _ _ rest ih =>
    rw [removals]
    split
    · refine List.pairwise_cons.mpr ⟨fun e he => ?_, ih hhi⟩
      cases ds with
      | nil => cases he
      | cons next ds => exact lt_stop_of_mem_removals rest hhi he
    · exact ih hhi

theorem lastEdit?_removals (hrow : InRow chars lo hi ds) (hhi : hi ≤ declaration.stop)
    (he : e ∈ removals source declaration gone kept? ds) :
    lastEdit? (removals source declaration gone kept? ds) e.start e.stop = some e := by
  refine lastEdit?_eq_some he fun e' he' _ hstop => ?_
  have hstops : ((removals source declaration gone kept? ds).map Edit.stop).Nodup :=
    List.pairwise_map.mpr ((pairwise_removals hrow hhi).imp Nat.ne_of_lt)
  exact List.inj_on_of_nodup_map hstops he' he hstop

/-- If no further declarator stays, each of their removals but the last one is inside of what they take up. -/
theorem mem_removals_of_all (hrow : InRow chars lo hi (d :: ds)) (hall : (d :: ds).all gone) :
    removal source declaration kept? (ds.getLastD d) none ∈ removals source declaration gone kept? (d :: ds) ∧
      ∀ e ∈ removals source declaration gone kept? (d :: ds),
        e = removal source declaration kept? (ds.getLastD d) none ∨
          lo ≤ e.start ∧ e.start < (ds.getLastD d).stop ∧ e.stop ≤ (ds.getLastD d).stop := by
  have hgone : gone d := List.all_eq_true.mp hall d List.mem_cons_self
  induction ds generalizing d lo with
  | nil => simp [removals, hgone]
  | cons next ds ih =>
    rw [List.all_cons, Bool.and_eq_true] at hall
    rw [removals, if_pos hgone, List.getLastD_cons]
    cases hrow with
    | cons le lt _ _ rest =>
      obtain ⟨hmem, hinside⟩ := ih rest hall.2 (List.all_eq_true.mp hall.2 next List.mem_cons_self)
      refine ⟨List.mem_cons_of_mem _ hmem, fun e he => ?_⟩
      rcases List.mem_cons.mp he with rfl | he
      · obtain ⟨hlast, hltLast, -⟩ := rest.bounds List.getLastD_mem_cons
        have hnext := rest.start_le List.getLastD_mem_cons
        refine .inr ⟨le, ?_, ?_⟩
        · show d.start < (ds.getLastD next).stop
          omega
        · show next.start ≤ (ds.getLastD next).stop
          omega
      · exact (hinside e he).imp_right fun h => ⟨by omega, h.2⟩

theorem subset_removals (hrow : InRow chars lo hi ds) :
    effectiveRemovals source declaration gone kept? ds ⊆ removals source declaration gone kept? ds := by
  induction hrow generalizing kept? with
  | nil => exact List.Subset.refl _
  | @cons _ _ d ds le lt starts stops rest ih =>
    rw [effectiveRemovals]
    split
    next hall =>
      have hrow := InRow.cons le lt starts stops rest
      exact List.cons_subset.mpr ⟨(mem_removals_of_all hrow hall).1, List.nil_subset _⟩
    next =>
      rw [removals]
      split
      · exact List.cons_subset_cons _ ih
      · exact ih

/-- Each removal is covered by one that takes effect. -/
theorem exists_covers (hrow : InRow chars lo hi ds) (hstart : declaration.start ≤ lo)
    (hhi : hi ≤ declaration.stop) (hkept : ∀ k ∈ kept?, k.stop ≤ lo)
    (he : e ∈ removals source declaration gone kept? ds) :
    ∃ s ∈ effectiveRemovals source declaration gone kept? ds, s.Covers e := by
  induction hrow generalizing kept? with
  | nil => cases he
  | @cons lo hi d ds le lt starts stops rest ih =>
    have hrow := InRow.cons le lt starts stops rest
    have hstart' : declaration.start ≤ d.stop := by omega
    rw [effectiveRemovals]
    split
    next hall =>
      refine ⟨_, List.mem_singleton_self _, ?_⟩
      obtain ⟨-, -, hlast⟩ := hrow.bounds List.getLastD_mem_cons
      have hleft := @removal_start_le source declaration (ds.getLastD d) kept? lo hstart hkept
      have hright := @stop_le_removal source declaration (ds.getLastD d) kept? (Nat.le_trans hlast hhi)
      rcases (mem_removals_of_all hrow hall).2 e he with rfl | ⟨hlo, hlt, hstop⟩
      · exact .refl
      · unfold Edit.Covers
        omega
    next =>
      rw [removals] at he
      split
      next hgone =>
        rw [if_pos hgone] at he
        have hkept' : ∀ k ∈ kept?, k.stop ≤ d.stop := fun k hk => by
          have := hkept k hk
          omega
        rcases List.mem_cons.mp he with rfl | he
        · exact ⟨_, List.mem_cons_self, .refl⟩
        · obtain ⟨s, hs, hcovers⟩ := ih hstart' hhi hkept' he
          exact ⟨s, List.mem_cons_of_mem _ hs, hcovers⟩
      next hstays =>
        rw [if_neg hstays] at he
        exact ih hstart' hhi (fun k hk => Nat.le_of_eq (congrArg Span.stop (Option.some.inj hk).symm)) he

/-- If some further declarator stays, nothing in front of the first one is cut. -/
theorem le_start_of_mem_effectiveRemovals (hrow : InRow chars lo hi (d :: ds))
    (hstays : (d :: ds).all gone = false)
    (he : e ∈ effectiveRemovals source declaration gone kept? (d :: ds)) : d.start ≤ e.start := by
  induction ds generalizing d kept? lo with
  | nil =>
    rw [List.all_cons, List.all_nil, Bool.and_true] at hstays
    simp [effectiveRemovals, hstays] at he
  | cons next ds ih =>
    rw [effectiveRemovals, if_neg (by simp [hstays])] at he
    cases hrow with
    | cons _ lt _ _ rest =>
      have hnext : d.start ≤ next.start := by
        have := (rest.bounds List.mem_cons_self).1
        omega
      split at he
      next hgone =>
        rw [List.all_cons, hgone, Bool.true_and] at hstays
        rcases List.mem_cons.mp he with rfl | he
        · exact Nat.le_refl _
        · exact Nat.le_trans hnext (ih rest hstays he)
      next =>
        cases hall : (next :: ds).all gone with
        | true =>
          rw [effectiveRemovals, if_pos hall] at he
          obtain rfl := List.mem_singleton.mp he
          exact Nat.le_of_lt lt
        | false => exact Nat.le_trans hnext (ih rest hall he)

theorem pairwise_effectiveRemovals (hrow : InRow chars lo hi ds) :
    (effectiveRemovals source declaration gone kept? ds).Pairwise Edit.Before := by
  induction hrow generalizing kept? with
  | nil => exact .nil
  | @cons _ _ d ds le lt starts stops rest ih =>
    rw [effectiveRemovals]
    split
    next => exact List.pairwise_singleton _ _
    next hstays =>
      split
      next hgone =>
        rw [List.all_cons, hgone, Bool.true_and, Bool.not_eq_true] at hstays
        refine List.pairwise_cons.mpr ⟨fun e he => ?_, ih⟩
        cases ds with
        | nil => cases he
        | cons next ds =>
          have hnext := (rest.bounds List.mem_cons_self).1
          have hafter := le_start_of_mem_effectiveRemovals rest hstays he
          exact ⟨Nat.lt_of_lt_of_le lt (Nat.le_trans hnext hafter), hafter⟩
      next => exact ih

theorem takeEffect_effectiveRemovals (hrow : InRow chars lo hi ds) (hstart : declaration.start ≤ lo)
    (hhi : hi ≤ declaration.stop) : TakeEffect (removals source declaration gone none ds)
      (effectiveRemovals source declaration gone none ds) := by
  refine takeEffect_of_covers (pairwise_effectiveRemovals hrow) (fun s hs => ?_) fun e he => ?_
  · exact lastEdit?_removals hrow hhi (subset_removals hrow hs)
  · exact exists_covers hrow hstart hhi nofun he

end Effect

section Left

/-- What stands between a declarator and the one right behind it. -/
def gapAfter (source : String) (d : Span) : List Span → String
  | [] => ""
  | next :: _ => spanText source ⟨d.stop, next.start⟩

/-- The declarators that stay, each but the last one of them with what stands between it and the one right
behind it. -/
def keptText (source : String) (gone : Span → Bool) : List Span → String
  | [] => ""
  | d :: ds =>
    if gone d then keptText source gone ds
    else spanText source d ++ (if ds.all gone then "" else gapAfter source d ds) ++ keptText source gone ds

theorem keptText_of_all (h : ds.all gone) : keptText source gone ds = "" := by
  induction ds with
  | nil => rfl
  | cons d ds ih =>
    rw [List.all_cons, Bool.and_eq_true] at h
    rw [keptText, if_pos h.1, ih h.2]

/-- A text from an offset on, cut in two at an end of a declarator. -/
theorem spanText_append_rest {a b : Nat} (ha : isBoundary source.toList a) (hb : isBoundary source.toList b)
    (hab : a ≤ b) : spanText source ⟨a, b⟩ ++ spanText source ⟨b, byteLength source.toList⟩ =
      spanText source ⟨a, byteLength source.toList⟩ :=
  spanText_append ha hb isBoundary_byteLength hab (le_byteLength_of_isBoundary hb)

theorem splicedText_effectiveRemovals (hrow : InRow source.toList lo hi (d :: ds))
    (hstays : (d :: ds).all gone = false) (hoffset : isBoundary source.toList offset) (hle : offset ≤ d.start) :
    splicedText source offset (effectiveRemovals source declaration gone kept? (d :: ds)) =
      spanText source ⟨offset, d.start⟩ ++ keptText source gone (d :: ds) ++
        spanText source ⟨(ds.getLastD d).stop, byteLength source.toList⟩ := by
  induction ds generalizing d kept? offset lo with
  | nil =>
    rw [List.all_cons, List.all_nil, Bool.and_true] at hstays
    cases hrow with
    | cons _ lt starts stops _ =>
      simp only [effectiveRemovals, keptText, List.all_cons, hstays, Bool.false_and, splicedText, List.all_nil,
        List.getLastD_nil, Bool.false_eq_true, if_false, if_true, String.append_empty]
      rw [spanText_append hoffset starts stops hle (Nat.le_of_lt lt),
        spanText_append_rest hoffset stops (Nat.le_trans hle (Nat.le_of_lt lt))]
  | cons next ds ih =>
    rw [effectiveRemovals, if_neg (by simp [hstays]), keptText, List.getLastD_cons]
    cases hrow with
    | cons _ lt starts stops rest =>
      have hnext := (rest.bounds List.mem_cons_self).1
      have hstartsNext := (rest.boundaries List.mem_cons_self).1
      have hbehind := Nat.le_trans hle (Nat.le_of_lt lt)
      split
      next hgone =>
        rw [List.all_cons, hgone, Bool.true_and] at hstays
        rw [splicedText, List.head?_cons, removal, ih rest hstays hstartsNext (Nat.le_refl _),
          spanText_self hstartsNext]
        simp [String.append_assoc]
      next =>
        cases hall : (next :: ds).all gone with
        | true =>
          rw [effectiveRemovals, if_pos hall, keptText_of_all hall, removal, splicedText, splicedText,
            ← spanText_append hoffset starts stops hle (Nat.le_of_lt lt)]
          simp [String.append_assoc]
        | false =>
          rw [ih rest hall hoffset (Nat.le_trans hbehind hnext),
            ← spanText_append hoffset starts hstartsNext hle (Nat.le_trans (Nat.le_of_lt lt) hnext),
            ← spanText_append starts stops hstartsNext (Nat.le_of_lt lt) hnext]
          simp [gapAfter, String.append_assoc]

/-- An end of a comment that is not where a text starts is further behind. -/
theorem exists_commentEnd_behind {c : Char} {s front back : List Char} (h : c :: s = front ++ '*' :: '/' :: back)
    (hc : c = '*' → s.head? ≠ some '/') : ∃ front', s = front' ++ '*' :: '/' :: back := by
  cases front with
  | nil =>
    obtain ⟨rfl, rfl⟩ := List.cons.inj h
    exact absurd rfl (hc rfl)
  | cons _ front => exact ⟨front, (List.cons.inj h).2⟩

/-- An escaped text that a comment goes on with does not end it. -/
theorem eq_semicolon_of_escapeCommentEnd {s front back : List Char}
    (h : escapeCommentEnd s ++ [' ', '*', '/', ';'] = front ++ '*' :: '/' :: back) : back = [';'] := by
  induction s using escapeCommentEnd.induct generalizing front with
  | case1 s ih =>
    rw [escapeCommentEnd] at h
    obtain ⟨front, h⟩ := exists_commentEnd_behind h (by simp)
    obtain ⟨front, h⟩ := exists_commentEnd_behind h (by simp)
    obtain ⟨front, h⟩ := exists_commentEnd_behind h (by simp)
    exact ih h
  | case2 c s hend ih =>
    rw [escapeCommentEnd.eq_2 _ _ hend] at h
    obtain ⟨front, h⟩ := exists_commentEnd_behind h fun hc hslash => by
      cases s with
      | nil => cases hslash
      | cons d s =>
        rw [List.append_eq, List.head?_append, head?_escapeCommentEnd] at hslash
        exact hend s hc (congrArg (· :: s) (Option.some.inj hslash))
    exact ih h
  | case3 =>
    rw [escapeCommentEnd] at h
    obtain ⟨front, h⟩ := exists_commentEnd_behind h (by simp)
    cases front with
    | nil => exact (List.cons.inj (List.cons.inj h).2).2.symm
    | cons _ front =>
      obtain ⟨front, h⟩ := exists_commentEnd_behind (List.cons.inj h).2 (by simp)
      obtain ⟨front, h⟩ := exists_commentEnd_behind h (by simp)
      simp at h

theorem eq_semicolon_of_removedText {front back : List Char}
    (h : (removedText source declaration).toList = front ++ "*/".toList ++ back) : back = [';'] := by
  have hescaped : (removedText source declaration).toList =
      escapeCommentEnd ("/* removed: ".toList ++ (spanText source declaration).toList) ++ [' ', '*', '/', ';'] := by
    simp [removedText, escapeCommentEnd]
  rw [hescaped, List.append_assoc] at h
  exact eq_semicolon_of_escapeCommentEnd h

/-- Taking declarators out of a declaration never fails. -/
theorem exists_apply_removalEdits {comments : List Span}
    (hlaid : LaidOut source.toList (Script.Clear source.toList comments) lo hi root.sites)
    (hdeclaration : DeclarationAt root declaration ds) (hrs : TakesOut declaration ds gone rs)
    (request : Option MapRequest) :
    ∃ piece, ({ edits := removalEdits source [] rs } : EditList).apply source request = .ok piece := by
  obtain ⟨hplaced, hlaminar⟩ := @removalEdits_spec source [] rs root lo hi _ _ hlaid fun r hr => by
    obtain ⟨hwhole, hall⟩ := hrs.sites r hr
    rwa [hwhole, hall]
  refine EditList.apply_ok request (fun e he => Edit.fits_iff.mpr ?_) hlaminar
  obtain ⟨hle, hstarts, hstops⟩ := (hplaced e he).bounds (fun _ => CutOpen.exists_cut) hlaid clear_zero
  exact ⟨hle, hstarts.1, hstops.1⟩

/-- Of a declaration of which some declarators are taken out, in source order, what is left is the text in
front of the first one, then the others, each but the last with what stands between it and the declarator
right behind it, and then the text behind the last one. If there are no others, the declaration becomes a
comment, which nothing inside of it ends. -/
theorem apply_removalEdits {p : Script.Program} (hp : Script.Program.parse? source = some p)
    (hdeclaration : DeclarationAt p.tree declaration ds) (hrs : TakesOut declaration ds gone rs)
    (request : Option MapRequest) :
    ∃ first last piece, ds.head? = some first ∧ ds.getLast? = some last ∧
      ({ edits := removalEdits source [] rs } : EditList).apply source request = .ok piece ∧
      let before := spanText source ⟨0, declaration.start⟩
      let after := spanText source ⟨declaration.stop, byteLength source.toList⟩
      ((∃ d ∈ ds, gone d = false) → piece.code = before ++
        (spanText source ⟨declaration.start, first.start⟩ ++ keptText source gone ds ++
          spanText source ⟨last.stop, declaration.stop⟩) ++ after) ∧
      ((∀ d ∈ ds, gone d) → piece.code = before ++ removedText source declaration ++ after) ∧
      ∀ front back, (removedText source declaration).toList = front ++ "*/".toList ++ back → back = [';'] := by
  obtain ⟨lo, hi, hlaid⟩ := (Script.spanned_parse? hp).laidOut
  obtain ⟨hsome, hrow, hstarts, hstops⟩ := inRow_of_declarationAt hlaid hdeclaration
  obtain ⟨piece, hpiece⟩ := exists_apply_removalEdits hlaid hdeclaration hrs request
  obtain ⟨first, ds, rfl⟩ := List.exists_cons_of_ne_nil hsome
  have hedits : removalEdits source [] rs = removals source declaration gone none (first :: ds) :=
    @removalEdits_eq source declaration _ [] [] gone rs _ hrow.nodup hrs.sites hrs.spans (by simp)
  have hcode := EditList.code_eq hpiece
    (hedits ▸ takeEffect_effectiveRemovals hrow (Nat.le_refl _) (Nat.le_refl _))
  rw [String.empty_append, String.append_empty] at hcode
  have hlastOf : (first :: ds).getLast? = some (ds.getLastD first) := by
    rw [List.getLast?_cons, List.getLastD_eq_getLast?]
  refine ⟨first, ds.getLastD first, piece, rfl, hlastOf, hpiece, fun ⟨k, hk, hstays⟩ => ?_,
    fun hall => ?_, fun front back => eq_semicolon_of_removedText⟩
  · have hnot : (first :: ds).all gone = false := List.all_eq_false.mpr ⟨k, hk, by simp [hstays]⟩
    have hlastMem : ds.getLastD first ∈ first :: ds := List.getLastD_mem_cons
    have hfirst := (hrow.bounds List.mem_cons_self).1
    have hlast := (hrow.bounds hlastMem).2.2
    have hfirstStarts := (hrow.boundaries List.mem_cons_self).1
    have hlastStops := (hrow.boundaries hlastMem).2
    have hzero : isBoundary source.toList 0 := RestAt.isBoundary ⟨[], rfl, rfl⟩
    rw [hcode, splicedText_effectiveRemovals hrow hnot hzero (Nat.zero_le _),
      ← spanText_append hzero hstarts hfirstStarts (Nat.zero_le _) hfirst,
      ← spanText_append_rest hlastStops hstops hlast]
    simp [String.append_assoc]
  · have hall : (first :: ds).all gone := List.all_eq_true.mpr hall
    rw [hcode, effectiveRemovals, if_pos hall]
    rfl

/-- A declaration of which one variable does not get its value from a call. -/
def oneKept : String :=
  "var a = require('./a'), b = 1, c = require('./c'), d = require('./d');"

theorem apply_removalEdits_oneKept :
    ∃ p declaration ds gone rs piece, Script.Program.parse? oneKept = some p ∧
      DeclarationAt p.tree declaration ds ∧ TakesOut declaration ds gone rs ∧ (∃ d ∈ ds, gone d = false) ∧
      ({ edits := removalEdits oneKept [] rs } : EditList).apply oneKept none = .ok piece ∧
      piece.code = "var b = 1;" := by
  let declaration : Span := ⟨0, 70⟩
  let ds : List Span := [⟨4, 22⟩, ⟨24, 29⟩, ⟨31, 49⟩, ⟨51, 69⟩]
  let gone : Span → Bool := (· != ⟨24, 29⟩)
  obtain ⟨p, hp, hspans, hsites, call, hcall, r, hr, hwhole, hall⟩ : ∃ p ∈ Script.Program.parse? oneKept,
      let calls := (Analysis.ofProgram p oneKept).calls
      let rs := calls.filterMap (·.declarator)
      rs.map RequireDeclarator.span = ds.filter gone ∧
        (∀ r ∈ rs, r.declaration = declaration ∧ r.declarators = ds) ∧
        ∃ call ∈ calls, ∃ r ∈ call.declarator, r.declaration = declaration ∧ r.declarators = ds := by
    decide +kernel
  have hdeclaration : DeclarationAt p.tree declaration ds :=
    hwhole ▸ hall ▸ ((placed_ofProgram (Script.spanned_parse? hp)).calls call hcall).2 r hr
  have hkept : ∃ d ∈ ds, gone d = false := ⟨⟨24, 29⟩, by decide, by decide⟩
  obtain ⟨first, last, piece, hfirst, hlast, hpiece, hcode, -⟩ :=
    apply_removalEdits hp hdeclaration ⟨hspans, hsites⟩ none
  obtain rfl := Option.some.inj hfirst
  obtain rfl := Option.some.inj hlast
  refine ⟨p, declaration, ds, gone, _, piece, hp, hdeclaration, ⟨hspans, hsites⟩, hkept, hpiece, ?_⟩
  rw [hcode hkept]
  decide +kernel

end Left

end FlatBundle
