import FlatBundle.Proofs.Script.Reader

/-!
Where nodes end: a reader that gives back an expression has read up to its end, or past the parentheses around it.
-/

namespace FlatBundle.Script

/-- From `lo` on a text has been read, in which some nodes end. -/
structure Ended (source : List Char) (lo : Nat) (ns : List Node) (s : State) : Prop where
  sound : s.Sound source
  le : lo ≤ s.lastEnd
  inside : ∀ n ∈ ns, lo ≤ n.span.stop ∧ n.span.stop ≤ s.lastEnd

namespace Reader

variable {α β σ : Type} {source : List Char} {moved : Bool} {ns : List Node} {r r' : Reader α}
  {k : α → Reader β} {nodes : α → List Node} {result : β → List Node} {kind : Kind} {start : Nat}
  {children : List Node}

/-- A reader that goes on where some nodes end in what has been read, and so do those of its result. -/
def EndsOn (source : List Char) (ns : List Node) (r : Reader α) (nodes : α → List Node) : Prop :=
  ∀ lo s a s', Ended source lo ns s → r s = some (a, s') → Ended source lo (nodes a) s'

/-- A node that ends where its reader does. -/
def Stops (r : Reader Node) : Prop :=
  ∀ s n s', r s = some (n, s') → n.span.stop = s'.lastEnd

namespace Stops

variable {r r' : Reader Node} {k : α → Reader Node} {q : Reader α}

theorem bind (hk : ∀ a, Stops (k a)) : Stops (q >>= k) := by
  intro s n s' hr
  obtain ⟨a, s₁, -, hn⟩ := bind_eq_some hr
  exact hk a s₁ n s' hn

theorem given {a : α} (h : Stops (k a)) : Stops (Pure.pure a >>= k) :=
  h

theorem node : Stops (Reader.node kind start children) := by
  intro s n s' hr
  cases hr
  rfl

theorem ite {c : Prop} [Decidable c] (h : Stops r) (h' : Stops r') : Stops (if c then r else r') := by
  split
  · exact h
  · exact h'

end Stops

namespace EndsOn

theorem andThen (h : EndsOn source ns r nodes) (hk : ∀ a, EndsOn source (nodes a) (k a) result) :
    EndsOn source ns (r >>= k) result := by
  intro lo s b s' hended hr
  obtain ⟨a, s₁, ha, hb⟩ := bind_eq_some hr
  exact hk a lo s₁ b s' (h lo s a s₁ hended ha) hb

/-- What ends in the text read so far ends in all of it. -/
theorem look {q : Reader β} {g : β → List Node} {k : β → Reader α} (h : Reads source moved q g)
    (hk : ∀ b, EndsOn source ns (k b) nodes) : EndsOn source ns (q >>= k) nodes := by
  intro lo s a s' hended hr
  obtain ⟨b, s₁, hb, ha⟩ := bind_eq_some hr
  have hpassed := h s b s₁ hended.sound hb
  have hle := hpassed.onward.lastEnd_le
  refine hk b lo s₁ a s' ⟨hpassed.after, Nat.le_trans hended.le hle, fun n hn => ?_⟩ ha
  exact (hended.inside n hn).imp_right fun hstop => Nat.le_trans hstop hle

/-- A reader of its own goes on from any nodes. -/
theorem frame (h : EndsOn source [] r nodes) : EndsOn source ns r fun a => ns ++ nodes a := by
  intro lo s a s' hended hr
  -- the reader starts where the text read so far ends, and its nodes end behind that
  have hnew := h s.lastEnd s a s' ⟨hended.sound, Nat.le_refl _, nofun⟩ hr
  refine ⟨hnew.sound, Nat.le_trans hended.le hnew.le, fun n hn => ?_⟩
  rcases List.mem_append.mp hn with hn | hn
  · exact (hended.inside n hn).imp_right fun hstop => Nat.le_trans hstop hnew.le
  · exact (hnew.inside n hn).imp_left (Nat.le_trans hended.le)

theorem read {q : Reader Node} {k : Node → Reader α} (h : EndsOn source [] q alone)
    (hk : ∀ n, EndsOn source (ns ++ [n]) (k n) nodes) : EndsOn source ns (q >>= k) nodes :=
  h.frame.andThen hk

theorem node : EndsOn source ns (Reader.node kind start children) alone := by
  intro lo s n s' hended hr
  cases hr
  refine ⟨hended.sound, hended.le, fun n hn => ?_⟩
  obtain rfl := List.mem_singleton.mp hn
  exact ⟨hended.le, Nat.le_refl _⟩

theorem of_stops {r : Reader Node} {g : Node → List Node} (h : Reads source moved r g) (hstops : Stops r) :
    EndsOn source ns r alone := by
  intro lo s n s' hended hr
  have hpassed := h s n s' hended.sound hr
  have hle := Nat.le_trans hended.le hpassed.onward.lastEnd_le
  refine ⟨hpassed.after, hle, fun m hm => ?_⟩
  obtain rfl := List.mem_singleton.mp hm
  rw [hstops s m s' hr]
  exact ⟨hle, Nat.le_refl _⟩

theorem pure_of_subset {a : α} (h : nodes a ⊆ ns) : EndsOn source ns (Pure.pure a : Reader α) nodes := by
  intro lo s b s' hended hr
  cases hr
  exact ⟨hended.sound, hended.le, fun n hn => hended.inside n (h hn)⟩

theorem pure {a : α} (h : nodes a = ns) : EndsOn source ns (Pure.pure a : Reader α) nodes :=
  pure_of_subset (h ▸ List.Subset.refl _)

theorem given {a : α} (h : EndsOn source ns (k a) result) : EndsOn source ns (Pure.pure a >>= k) result :=
  h

theorem failure : EndsOn source ns (failure : Reader α) nodes :=
  fun _ _ _ _ _ hr => nomatch hr

theorem ite {c : Prop} [Decidable c] (h : EndsOn source ns r nodes) (h' : EndsOn source ns r' nodes) :
    EndsOn source ns (if c then r else r') nodes := by
  split
  · exact h
  · exact h'

theorem attempt (h : EndsOn source [] r nodes) :
    EndsOn source [] (attempt r) fun a? => (a?.map nodes).getD [] := by
  intro lo s a? s' hended hr
  unfold Reader.attempt at hr
  rcases hread : r s with _ | ⟨a, s₁⟩
  · rw [hread] at hr
    cases hr
    exact hended
  · rw [hread] at hr
    cases hr
    exact h lo s a s' hended hread

/-- What each round of a loop leaves ends in what has been read, and so does what the loop gives. -/
theorem loop (held : σ → List Node) (result : α → List Node) (st : σ) {step : σ → Reader (Round σ α)}
    (h : ∀ st, EndsOn source (held st) (step st) (roundNodes held result)) :
    EndsOn source (held st) (loop step st) result := by
  have run : ∀ fuel st, EndsOn source (held st) (loopFor fuel step st) result := by
    intro fuel
    induction fuel with
    | zero => exact fun st => .failure
    | succ fuel ih =>
      intro st
      rw [loopFor]
      refine (h st).andThen fun round => ?_
      cases round with
      | again st => exact ih st
      | done a => exact .pure rfl
  exact fun lo s a s' hended hr => run _ st lo s a s' hended hr

end EndsOn

end Reader

end FlatBundle.Script
