import FlatBundle.Proofs.Edit.Resolve

/-!
What a text becomes when edits are carried out, said without the order in which they come: each span
that no other one goes around gets the text that was recorded last for it, and all else stays.
-/

namespace FlatBundle

variable {source body : List Char} {edits resolved : List Edit} {a e : Edit} {start stop offset : Nat}

/-- Some edit of another span goes around a span and does not end where that starts. -/
def Superseded (edits : List Edit) (start stop : Nat) : Prop :=
  ∃ e ∈ edits, ¬(e.start = start ∧ e.stop = stop) ∧ e.start ≤ start ∧ stop ≤ e.stop ∧ start < e.stop

instance : Decidable (Superseded edits start stop) :=
  inferInstanceAs (Decidable (∃ _ ∈ _, _))

/-- An edit starts and ends before another one starts. -/
def Edit.Before (a b : Edit) : Prop :=
  a.start < b.start ∧ a.stop ≤ b.start

/-- The rest of a source, which starts at byte `offset`, with texts in place of some spans one after the
other. -/
inductive Spliced : Nat → List Edit → List Char → List Char → Prop
  | nil {offset : Nat} {rest : List Char} : Spliced offset [] rest rest
  | cons {offset : Nat} {e : Edit} {edits : List Edit} {kept cut after rest : List Char}
    (start : offset + byteLength kept = e.start) (stop : e.start + byteLength cut = e.stop)
    (onward : Spliced e.stop edits after rest) :
    Spliced offset (e :: edits) (kept ++ (cut ++ after)) (kept ++ (e.text.toList ++ rest))

/-- A source with the last text for each span in its place, but for the spans inside of others. -/
def Edited (edits : List Edit) (source body : List Char) : Prop :=
  ∃ effective, effective.Pairwise Edit.Before ∧
    (∀ e, e ∈ effective ↔ lastEdit? edits e.start e.stop = some e ∧ ¬Superseded edits e.start e.stop) ∧
    Spliced 0 effective source body

section Effective

theorem Reduces.before {last : Edit} (h : Reduces source last edits resolved)
    (hsorted : (last :: edits).Pairwise fun a b => a.le b) :
    resolved.Pairwise Edit.Before ∧ ∀ s ∈ resolved, last.start ≤ s.start := by
  induction h with
  | done => simp
  | again _ hspan _ ih =>
    obtain ⟨hbefore, hstart⟩ := ih (List.pairwise_cons.mp hsorted).2
    exact ⟨hbefore, fun s hs => hspan.1 ▸ hstart s hs⟩
  | @inside last e edits _ _ _ _ _ _ ih =>
    have hsub : (last :: edits).Sublist (last :: e :: edits) := by simp
    exact ih (hsorted.sublist hsub)
  | @onward last e edits resolved hfits hdiffer hafter _ ih =>
    obtain ⟨hbelow, hrest⟩ := List.pairwise_cons.mp hsorted
    obtain ⟨hbefore, hstart⟩ := ih hrest
    -- two edits of one start, one after the other, would both be empty and of one span
    have hlast : last.Before e := by
      have hle := Edit.le_iff.mp (hbelow e List.mem_cons_self)
      have hstop := (Edit.fits_iff.mp hfits).1
      unfold Edit.Before
      omega
    refine ⟨List.pairwise_cons.mpr ⟨fun s hs => ?_, hbefore⟩, fun s hs => ?_⟩
    · have hs := hstart s hs
      unfold Edit.Before at *
      omega
    · rcases List.mem_cons.mp hs with rfl | hs
      · exact Nat.le_refl _
      · exact Nat.le_trans (Nat.le_of_lt hlast.1) (hstart s hs)

theorem resolveEdits_before (h : resolveEdits source edits = .ok resolved) :
    resolved.Pairwise Edit.Before := by
  rcases resolveEdits_cases h with ⟨-, rfl⟩ | ⟨first, rest, -, hsorted, -, hreduces⟩
  · exact .nil
  · exact (hreduces.before hsorted).1

theorem before_or_before (h : edits.Pairwise Edit.Before) (ha : a ∈ edits) (he : e ∈ edits)
    (hne : a ≠ e) : a.Before e ∨ e.Before a := by
  induction h with
  | nil => cases ha
  | cons hfirst _ ih =>
    rcases List.mem_cons.mp ha with rfl | ha'
    · exact .inl (hfirst e ((List.mem_cons.mp he).resolve_left hne.symm))
    · rcases List.mem_cons.mp he with rfl | he'
      · exact .inr (hfirst a ha')
      · exact ih ha' he'

/-- The edits that take effect, in order: of each span that no other one goes around the last one. -/
structure TakeEffect (edits effective : List Edit) : Prop where
  inOrder : effective.Pairwise Edit.Before
  mem_iff : ∀ e, e ∈ effective ↔
    lastEdit? edits e.start e.stop = some e ∧ ¬Superseded edits e.start e.stop

/-- Edits one after the other take effect if they are the last ones of their spans and cover all others. -/
theorem takeEffect_of_covers {effective : List Edit} (hbefore : effective.Pairwise Edit.Before)
    (hlast : ∀ s ∈ effective, lastEdit? edits s.start s.stop = some s)
    (hcover : ∀ a ∈ edits, ∃ s ∈ effective, s.Covers a) : TakeEffect edits effective := by
  refine ⟨hbefore, fun e => ⟨fun he => ⟨hlast e he, ?_⟩, ?_⟩⟩
  · rintro ⟨a, ha, hdiffer, hstart, hstop, hlt⟩
    obtain ⟨s, hs, hspan⟩ := hcover a ha
    unfold Edit.Covers at hspan
    by_cases hse : s = e
    · subst hse
      omega
    · have hapart := before_or_before hbefore hs he hse
      unfold Edit.Before at hapart
      omega
  · rintro ⟨he, hfree⟩
    obtain ⟨s, hs, hstart, hstop, hspan⟩ := hcover e (mem_of_lastEdit? he).1
    by_cases hsame : s.start = e.start ∧ s.stop = e.stop
    · have hse := hlast s hs
      rw [hsame.1, hsame.2, he] at hse
      exact Option.some.inj hse ▸ hs
    · refine absurd ⟨s, (mem_of_lastEdit? (hlast s hs)).1, hsame, hstart, hstop, ?_⟩ hfree
      exact hspan.resolve_right hsame

theorem takeEffect_of_resolveEdits (h : resolveEdits source edits = .ok resolved) :
    TakeEffect edits resolved := by
  obtain ⟨hlast, hcover⟩ := resolveEdits_covers h
  exact takeEffect_of_covers (resolveEdits_before h) hlast hcover

/-- The edits that take effect are the last ones of the spans that no other one goes around. -/
theorem mem_resolveEdits_iff (h : resolveEdits source edits = .ok resolved) :
    e ∈ resolved ↔
      lastEdit? edits e.start e.stop = some e ∧ ¬Superseded edits e.start e.stop :=
  (takeEffect_of_resolveEdits h).mem_iff e

theorem TakeEffect.unique {effective effective' : List Edit} (h : TakeEffect edits effective)
    (h' : TakeEffect edits effective') : effective = effective' := by
  have hnodup {edits : List Edit} (hbefore : edits.Pairwise Edit.Before) : edits.Nodup := by
    refine hbefore.imp ?_
    rintro a _ hab rfl
    exact Nat.lt_irrefl _ hab.1
  have hperm : effective.Perm effective' :=
    (List.perm_ext_iff_of_nodup (hnodup h.inOrder) (hnodup h'.inOrder)).mpr fun e =>
      (h.mem_iff e).trans (h'.mem_iff e).symm
  exact hperm.eq_of_pairwise (fun a b _ _ hab hba => absurd hab.1 (Nat.lt_asymm hba.1)) h.inOrder h'.inOrder

end Effective

section Splicing

theorem InTurn.spliced (hturn : InTurn source offset edits) {rest : List Char}
    (hrest : RestAt source rest offset) :
    Spliced offset edits rest ((stretches offset edits rest).flatMap Stretch.output) := by
  induction hturn generalizing rest with
  | nil =>
    rw [stretches, List.flatMap_singleton]
    exact .nil
  | @cons offset e edits hle hfits _ ih =>
    obtain ⟨kept, cut, after, rfl, hstart, hstop, hafter, hstretches⟩ :=
      exists_stretches_cons hrest hle hfits
    rw [hstretches]
    exact .cons hstart hstop (ih hafter)

theorem edited_of_resolveEdits (h : resolveEdits source edits = .ok resolved) :
    Edited edits source ((stretches 0 resolved source).flatMap Stretch.output) :=
  ⟨resolved, resolveEdits_before h, fun _ => mem_resolveEdits_iff h,
    (inTurn_of_resolveEdits h).spliced ⟨[], rfl, rfl⟩⟩

theorem append_inj_of_byteLength {xs ys xs' ys' : List Char} (h : xs ++ ys = xs' ++ ys')
    (hlength : byteLength xs = byteLength xs') : xs = xs' ∧ ys = ys' := by
  have hsplit := @splitAtByte_append xs ys
  rw [h, hlength, splitAtByte_append] at hsplit
  obtain ⟨hxs, hys⟩ := Prod.mk.inj (Option.some.inj hsplit)
  exact ⟨hxs.symm, hys.symm⟩

theorem Spliced.unique {body' : List Char} (h : Spliced offset edits source body)
    (h' : Spliced offset edits source body') : body = body' := by
  induction h generalizing body' with
  | nil =>
    cases h'
    rfl
  | @cons offset e edits kept cut after rest hstart hstop _ ih =>
    generalize hsource : kept ++ (cut ++ after) = source at h'
    cases h' with
    | @cons _ _ _ kept' cut' after' rest' hstart' hstop' honward' =>
      obtain ⟨rfl, hcut⟩ := append_inj_of_byteLength hsource (by omega)
      obtain ⟨rfl, rfl⟩ := append_inj_of_byteLength hcut (by omega)
      rw [ih honward']

theorem Edited.unique {body' : List Char} (h : Edited edits source body)
    (h' : Edited edits source body') : body = body' := by
  obtain ⟨effective, hbefore, hmem, hspliced⟩ := h
  obtain ⟨effective', hbefore', hmem', hspliced'⟩ := h'
  obtain rfl := TakeEffect.unique ⟨hbefore, hmem⟩ ⟨hbefore', hmem'⟩
  exact hspliced.unique hspliced'

end Splicing

/-- A call that notes down something to do with a text. -/
inductive EditCall
  | replace (start stop : Nat) (text : String)
  | remove (start stop : Nat)
  | prepend (text : String)
  | append (text : String)
deriving DecidableEq, Repr

namespace EditCall

def edit? : EditCall → Option Edit
  | replace start stop text => some ⟨start, stop, text⟩
  | remove start stop => some ⟨start, stop, ""⟩
  | prepend _ | append _ => none

def prepended? : EditCall → Option String
  | prepend text => some text
  | _ => none

def appended? : EditCall → Option String
  | append text => some text
  | _ => none

end EditCall

namespace EditList

def record (e : EditList) : EditCall → EditList
  | .replace start stop text => e.replace start stop text
  | .remove start stop => e.remove start stop
  | .prepend text => e.prepend text
  | .append text => e.append text

/-- What some calls note down, one after the other. -/
def ofCalls (calls : List EditCall) : EditList :=
  calls.foldl record {}

theorem foldl_record (e : EditList) (calls : List EditCall) :
    calls.foldl record e =
      { edits := e.edits ++ calls.filterMap EditCall.edit?
        intro := String.join (calls.filterMap EditCall.prepended?).reverse ++ e.intro
        outro := e.outro ++ String.join (calls.filterMap EditCall.appended?) } := by
  induction calls generalizing e with
  | nil => simp
  | cons call calls ih =>
    rw [List.foldl_cons, ih]
    cases call <;>
      simp [record, replace, remove, prepend, append, List.filterMap_cons, EditCall.edit?,
        EditCall.prepended?, EditCall.appended?, String.append_assoc]

theorem ofCalls_eq (calls : List EditCall) :
    ofCalls calls =
      { edits := calls.filterMap EditCall.edit?
        intro := String.join (calls.filterMap EditCall.prepended?).reverse
        outro := String.join (calls.filterMap EditCall.appended?) } := by
  rw [ofCalls, foldl_record]
  simp

theorem exists_edited_of_apply {e : EditList} {source : String} {request : Option MapRequest}
    {piece : Piece} (h : e.apply source request = .ok piece) :
    ∃ body, Edited e.edits source.toList body ∧ piece.code = e.intro ++ String.ofList body ++ e.outro := by
  obtain ⟨resolved, hresolved, hcode, -⟩ := e.exists_of_apply h
  refine ⟨_, edited_of_resolveEdits hresolved, ?_⟩
  rw [← String.toList_inj, hcode]
  simp

end EditList

/-- Edits of different spans sort into one order, whatever order they come in. -/
theorem resolveEdits_perm {more : List Edit} (h : more.Perm edits)
    (hspans : (edits.map fun e => (e.start, e.stop)).Nodup) :
    resolveEdits source more = resolveEdits source edits := by
  have hperm : (more.mergeSort Edit.le).Perm (edits.mergeSort Edit.le) :=
    (List.mergeSort_perm more _).trans (h.trans (List.mergeSort_perm edits _).symm)
  have hsorted : more.mergeSort Edit.le = edits.mergeSort Edit.le := by
    refine hperm.eq_of_pairwise (fun a b ha hb hab hba => ?_)
      (List.pairwise_mergeSort Edit.le_trans Edit.le_total more)
      (List.pairwise_mergeSort Edit.le_trans Edit.le_total edits)
    rw [Edit.le_iff] at hab hba
    refine List.inj_on_of_nodup_map hspans (h.mem_iff.mp (List.mem_mergeSort.mp ha))
      (List.mem_mergeSort.mp hb) (Prod.ext ?_ ?_)
    · show a.start = b.start
      omega
    · show a.stop = b.stop
      omega
  rw [resolveEdits, resolveEdits, hsorted]

/-- The edited text is what was put in front, last call first, then the source with the last text for each
span in its place, but for the spans inside of others, and then what was put behind. This says all there is
to say of the text. Edits of different spans may come in any order. -/
theorem EditList.apply_ofCalls (source : String) (request : Option MapRequest)
    (calls : List EditCall) :
    (∀ piece, (ofCalls calls).apply source request = .ok piece → ∃ body,
      (∀ other, Edited (calls.filterMap EditCall.edit?) source.toList other ↔ other = body) ∧
      piece.code = String.join (calls.filterMap EditCall.prepended?).reverse ++ String.ofList body ++
        String.join (calls.filterMap EditCall.appended?)) ∧
    (∀ reordered : List EditCall, reordered.Perm calls →
      reordered.filterMap EditCall.prepended? = calls.filterMap EditCall.prepended? →
      reordered.filterMap EditCall.appended? = calls.filterMap EditCall.appended? →
      ((calls.filterMap EditCall.edit?).map fun e => (e.start, e.stop)).Nodup →
        (ofCalls reordered).apply source request = (ofCalls calls).apply source request) := by
  refine ⟨fun piece h => ?_, fun reordered hperm hfront hback hspans => ?_⟩
  · rw [ofCalls_eq] at h
    obtain ⟨body, hedited, hcode⟩ := exists_edited_of_apply h
    refine ⟨body, fun other => ⟨fun hother => hother.unique hedited, ?_⟩, hcode⟩
    rintro rfl
    exact hedited
  · have hresolve :=
      @resolveEdits_perm source.toList _ _ (hperm.filterMap EditCall.edit?) hspans
    rw [ofCalls_eq, ofCalls_eq, hfront, hback, apply, apply, EditList.stretches, EditList.stretches,
      hresolve]

/-- Calls with a span that is given twice, with spans inside of others, and with empty spans at an end and
at a start of other ones. -/
def crossedCalls : List EditCall := [
  .replace 1 2 "lost", .replace 0 3 "X", .prepend "2;", .replace 3 3 "+", .replace 5 5 "lost",
  .remove 5 7, .append ";a", .replace 0 3 "Y", .prepend "1;", .append ";b"]

theorem edited_crossedCalls :
    Edited (crossedCalls.filterMap EditCall.edit?) "abcdefgh".toList "Y+deh".toList := by
  let effective : List Edit := [⟨0, 3, "Y"⟩, ⟨3, 3, "+"⟩, ⟨5, 7, ""⟩]
  have hbefore : effective.Pairwise Edit.Before := by
    unfold Edit.Before
    decide
  have hmem : ∀ e ∈ crossedCalls.filterMap EditCall.edit?, e ∈ effective ↔
      lastEdit? (crossedCalls.filterMap EditCall.edit?) e.start e.stop = some e ∧
        ¬Superseded (crossedCalls.filterMap EditCall.edit?) e.start e.stop := by decide
  have hsub : effective ⊆ crossedCalls.filterMap EditCall.edit? := by decide
  have hend : Spliced 7 [] "h".toList "h".toList := .nil
  have hcut : Spliced 3 [⟨5, 7, ""⟩] ("de".toList ++ ("fg".toList ++ "h".toList))
      ("de".toList ++ ("".toList ++ "h".toList)) := .cons rfl rfl hend
  have hput : Spliced 3 [⟨3, 3, "+"⟩, ⟨5, 7, ""⟩] ([] ++ ([] ++ "defgh".toList))
      ([] ++ ("+".toList ++ "deh".toList)) := .cons rfl rfl hcut
  have hall : Spliced 0 effective ([] ++ ("abc".toList ++ "defgh".toList))
      ([] ++ ("Y".toList ++ "+deh".toList)) := .cons rfl rfl hput
  refine ⟨effective, hbefore, fun e => ⟨fun he => (hmem e (hsub he)).mp he, fun he => ?_⟩, hall⟩
  exact (hmem e (mem_of_lastEdit? he.1).1).mpr he

theorem apply_ofCalls_crossedCalls :
    (∃ piece, (EditList.ofCalls crossedCalls).apply "abcdefgh" none = .ok piece ∧
      piece.code = "1;2;Y+deh;a;b") ∧
    (EditList.ofCalls [.remove 5 7, .prepend "1;", .replace 0 3 "Y"]).apply "abcdefgh" none =
      (EditList.ofCalls [.replace 0 3 "Y", .remove 5 7, .prepend "1;"]).apply "abcdefgh" none := by
  constructor
  · obtain ⟨piece, hpiece⟩ : ∃ piece,
        (EditList.ofCalls crossedCalls).apply "abcdefgh" none = .ok piece := by
      refine EditList.apply_ok none (by decide) ?_
      unfold AllLaminar Edit.Laminar
      decide
    obtain ⟨body, hbody, hcode⟩ := (EditList.apply_ofCalls "abcdefgh" none crossedCalls).1 piece hpiece
    obtain rfl := (hbody _).mp edited_crossedCalls
    exact ⟨piece, hpiece, hcode.trans rfl⟩
  · exact (EditList.apply_ofCalls "abcdefgh" none [.replace 0 3 "Y", .remove 5 7, .prepend "1;"]).2 _
      (by decide) rfl rfl (by decide)

end FlatBundle
