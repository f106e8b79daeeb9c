import FlatBundle.Proofs.Script.Layout
import FlatBundle.Proofs.Script.Place

/-!
What a reader does to the place in the text, and where the sites of the nodes that it reads lie: from
the token that it starts at to the last token that it has passed.
-/

namespace FlatBundle.Script

open Relation (ReflTransGen)

/-- A place that text may be cut at, outside of all comments. -/
def Clear (source : List Char) (comments : List Span) (p : Nat) : Prop :=
  isBoundary source p ∧ ∀ c ∈ comments, p ≤ c.start ∨ c.stop ≤ p

namespace State

/-- Where the current token starts. -/
def here (s : State) : Nat :=
  s.token.span.start

structure Sound (source : List Char) (s : State) : Prop where
  current : RestAt source s.source s.here
  rest : RestAt source s.rest s.token.span.stop
  lastEnd : isBoundary source s.lastEnd
  lastEnd_le : s.lastEnd ≤ s.here
  here_le : s.here ≤ s.token.span.stop
  comments : ∀ c ∈ s.lineComments, CommentBetween source 0 s.here c
  aside : ∀ c ∈ s.lineComments, s.lastEnd ≤ c.start ∨ c.stop ≤ s.lastEnd
  word : s.token.kind.SpellsIdentifier
  scanned : s.token.kind.isSolid → kind? s.source = some (s.token.kind, s.rest)

variable {source : List Char} {s s' : State}

theorem Sound.clear_here (h : s.Sound source) : Clear source s.lineComments s.here :=
  ⟨h.current.isBoundary, fun c hc => .inr (h.comments c hc).stop_le⟩

/-- Words, marks and strings have some text. -/
theorem Sound.here_lt (h : s.Sound source) (hk : s.token.kind.isSolid) :
    s.here < s.token.span.stop :=
  h.current.lt_of_length_lt h.rest (kind?_shorter (h.scanned hk) hk)

theorem Sound.names {k : Option Keyword} {name : String} {escaped : Bool} (h : s.Sound source)
    (hword : s.token.kind = .word k name escaped) : Names source s.here s.token.span.stop name :=
  ⟨s.source, s.rest, k, escaped, h.current, h.rest, hword ▸ h.scanned (by rw [hword]; rfl)⟩

theorem Sound.clear_lastEnd (h : s.Sound source) : Clear source s.lineComments s.lastEnd :=
  ⟨h.lastEnd, h.aside⟩

/-- Everything that comes after a place in a state, with the comments in between. -/
structure Onward (s s' : State) : Prop where
  here_le : s.here ≤ s'.here
  lastEnd_le : s.lastEnd ≤ s'.lastEnd
  comments : ∃ new, s'.lineComments = new ++ s.lineComments ∧ ∀ c ∈ new, s.here ≤ c.start

theorem Onward.refl : s.Onward s :=
  ⟨Nat.le_refl _, Nat.le_refl _, [], rfl, by simp⟩

theorem Onward.trans {s'' : State} (h : s.Onward s') (h' : s'.Onward s'') : s.Onward s'' := by
  obtain ⟨new, hnew, hfrom⟩ := h.comments
  obtain ⟨new', hnew', hfrom'⟩ := h'.comments
  refine ⟨Nat.le_trans h.here_le h'.here_le, Nat.le_trans h.lastEnd_le h'.lastEnd_le,
    new' ++ new, by simp [hnew, hnew'], fun c hc => ?_⟩
  rcases List.mem_append.mp hc with hc | hc
  · exact Nat.le_trans h.here_le (hfrom' c hc)
  · exact hfrom c hc

/-- A place up to the current token stays clear of all comments to come. -/
theorem Onward.clear (h : s.Onward s') {p : Nat} (hp : p ≤ s.here)
    (hc : Clear source s.lineComments p) : Clear source s'.lineComments p := by
  obtain ⟨new, hnew, hfrom⟩ := h.comments
  refine ⟨hc.1, fun c hmem => ?_⟩
  rw [hnew] at hmem
  rcases List.mem_append.mp hmem with hmem | hmem
  · exact .inl (Nat.le_trans hp (hfrom c hmem))
  · exact hc.2 c hmem

theorem sound_moveTo {c : Cursor} {onNewLine : Bool} (hc : RestAt source c.rest c.offset)
    (hold : ∀ k ∈ s.lineComments, CommentBetween source 0 c.offset k)
    (h : s.moveTo c onNewLine = some s') :
    s'.Sound source ∧ s'.lastEnd = c.offset ∧
      ∃ new, s'.lineComments = new ++ s.lineComments ∧ ∀ k ∈ new, c.offset ≤ k.start := by
  obtain ⟨g, hg, h⟩ := Option.bind_eq_some_iff.mp h
  obtain ⟨⟨kind, rest⟩, hkind, h⟩ := Option.bind_eq_some_iff.mp h
  cases h
  obtain ⟨hrest, hle, new, hnew, hfits⟩ := gapFrom_skipGap hc hg
  rw [List.append_nil] at hnew
  refine ⟨⟨hrest, restAt_of_suffix hrest (kind?_suffix hkind), hc.isBoundary, hle,
    Nat.le_add_right _ _, fun k hk => ?_, fun k hk => ?_, kind?_spellsIdentifier hkind,
    fun _ => hkind⟩, rfl, new,
    by rw [hnew], fun k hk => (hfits k hk).lo_le⟩
  · rcases List.mem_append.mp hk with hk | hk
    · exact (hfits k (hnew ▸ hk)).mono (Nat.zero_le _) (Nat.le_refl _)
    · exact (hold k hk).mono (Nat.le_refl _) hle
  · rcases List.mem_append.mp hk with hk | hk
    · exact .inl (hfits k (hnew ▸ hk)).lo_le
    · exact .inr (hold k hk).stop_le

theorem Sound.next (hs : s.Sound source) (h : s.next = some s') :
    s'.Sound source ∧ s'.lastEnd = s.token.span.stop ∧
      ∃ new, s'.lineComments = new ++ s.lineComments ∧ ∀ k ∈ new, s.token.span.stop ≤ k.start :=
  sound_moveTo (c := ⟨s.rest, s.token.span.stop⟩) hs.rest
    (fun k hk => (hs.comments k hk).mono (Nat.le_refl _) hs.here_le) h

end State

/-- From `s` the nodes `ns` have been read up to `s'`; `moved` says that some token has been
passed. -/
structure Passed (source : List Char) (moved : Bool) (s : State) (ns : List Node) (s' : State) :
    Prop where
  before : s.Sound source
  after : s'.Sound source
  onward : s.Onward s'
  steps : ReflTransGen Place.Step s.place s'.place
  moved : moved → s.here ≤ s'.lastEnd
  laidOut : LaidOut source (Clear source s'.lineComments) s.here s'.lastEnd (sitesOf ns)

namespace Passed

variable {source : List Char} {moved moved' : Bool} {s s₁ s₂ : State} {ns ms children : List Node}

theorem refl (h : s.Sound source) : Passed source false s [] s :=
  ⟨h, h, .refl, .refl, nofun, .nil⟩

/-- The place in the text is the same. -/
theorem stay (hs : s.Sound source)
    (h : s₁.token = s.token ∧ s₁.source = s.source ∧ s₁.rest = s.rest ∧ s₁.lastEnd = s.lastEnd ∧
      s₁.lineComments = s.lineComments) : Passed source false s [] s₁ := by
  obtain ⟨htoken, hsource, hrest, hend, hcomments⟩ := h
  have hhere : s₁.here = s.here := by rw [State.here, htoken, State.here]
  have hplace : s₁.place = s.place := by rw [State.place, htoken, hsource, hrest, State.place]
  refine ⟨hs, ⟨?_, ?_, ?_, ?_, ?_, ?_, ?_, ?_, ?_⟩, ⟨?_, ?_, [], ?_, ?_⟩, hplace ▸ .refl, nofun, .nil⟩
  · rw [hsource, hhere]; exact hs.current
  · rw [hrest, htoken]; exact hs.rest
  · rw [hend]; exact hs.lastEnd
  · rw [hend, hhere]; exact hs.lastEnd_le
  · rw [hhere, htoken]; exact hs.here_le
  · rw [hcomments, hhere]; exact hs.comments
  · rw [hcomments, hend]; exact hs.aside
  · rw [htoken]; exact hs.word
  · rw [htoken, hsource, hrest]; exact hs.scanned
  · exact Nat.le_of_eq hhere.symm
  · exact Nat.le_of_eq hend.symm
  · rw [hcomments, List.nil_append]
  · simp

theorem trans (h : Passed source moved s ns s₁) (h' : Passed source moved' s₁ ms s₂) :
    Passed source (moved || moved') s (ns ++ ms) s₂ := by
  refine ⟨h.before, h'.after, h.onward.trans h'.onward, h.steps.trans h'.steps, fun hm => ?_, ?_⟩
  · rcases Bool.or_eq_true_iff.mp hm with hm | hm
    · exact Nat.le_trans (h.moved hm) h'.onward.lastEnd_le
    · exact Nat.le_trans h.onward.here_le (h'.moved hm)
  · have hfirst := h.laidOut.imp fun p hp =>
      h'.onward.clear (Nat.le_trans hp h.after.lastEnd_le)
    rw [sitesOf_append]
    exact hfirst.append h'.laidOut h.onward.here_le h.after.lastEnd_le h'.onward.lastEnd_le

/-- Some of what has been read may be passed over. -/
theorem sublist (h : Passed source moved s ns s₁) (hms : (sitesOf ms).Sublist (sitesOf ns)) :
    Passed source moved s ms s₁ :=
  { h with laidOut := h.laidOut.sublist hms }

theorem of_sites (h : Passed source moved s ns s₁) (heq : sitesOf ms = sitesOf ns) :
    Passed source moved s ms s₁ :=
  h.sublist (heq ▸ List.Sublist.refl _)

theorem weaken (h : Passed source moved s ns s₁) : Passed source false s ns s₁ :=
  { h with moved := nofun }

theorem site {kind : Kind} (h : Passed source true s ns s₁) (hk : kind.isSite)
    (hsite : Site source kind s.here s₁.lastEnd ns) :
    Passed source true s [.mk kind ⟨s.here, s₁.lastEnd⟩ ns] s₁ := by
  refine { h with laidOut := ?_ }
  rw [sitesOf_cons, sites_of_isSite hk]
  exact .cons (Nat.le_refl _) (h.moved rfl) (Nat.le_refl _)
    (h.onward.clear (Nat.le_refl _) h.before.clear_here) h.after.clear_lastEnd h.laidOut hsite .nil

/-- A name is a token by itself. -/
theorem name {kind : Kind} {name : String} (h : Passed source true s [] s₁) (hk : kind.isSite)
    (hname : kind.name? = some name) (hi : kind.DeclaresIdentifier)
    (hnames : Names source s.here s₁.lastEnd name) :
    Passed source true s [.mk kind ⟨s.here, s₁.lastEnd⟩ []] s₁ := by
  refine h.site hk ⟨hnames.lt, fun hvariables => ?_, hi, fun other hother => ?_, nofun, fun _ => trivial,
    fun _ => nofun, fun _ => ⟨hnames.lt, nofun⟩⟩
  · rw [Kind.name?_of_isVariables hvariables] at hname
    cases hname
  · obtain rfl := Option.some.inj (hname.symm.trans hother)
    exact ⟨rfl, hnames⟩

/-- Whatever comes before a stretch that its own sites are narrow in leaves it out too. -/
theorem narrow_append (h : Passed source moved s ns s₁) (hms : Narrow s₁.here s₂.lastEnd ms) :
    Narrow s.here s₂.lastEnd (ns ++ ms) := by
  have hhere := h.onward.here_le
  have hend := h.after.lastEnd_le
  obtain ⟨hlt, hinside⟩ := hms
  refine ⟨Nat.lt_of_le_of_lt hhere hlt, fun n hn => ?_⟩
  rw [sitesOf_append] at hn
  rcases List.mem_append.mp hn with hn | hn
  · have hstop := (h.laidOut.of_siteIn (.of_mem hn)).2.2
    exact .inr (by omega)
  · exact (hinside n hn).imp_left (Nat.lt_of_le_of_lt hhere)

/-- Whatever comes after a place leaves it out. -/
theorem narrow_of_lt {p : Nat} (h : Passed source moved s ns s₁) (hp : p < s.lastEnd) :
    Narrow p s₁.lastEnd ns := by
  refine ⟨Nat.lt_of_lt_of_le hp h.onward.lastEnd_le, fun n hn => .inl ?_⟩
  have hstart := (h.laidOut.of_siteIn (.of_mem hn)).2.1
  have hend := h.before.lastEnd_le
  omega

theorem narrow_trans {p : Nat} (h : Passed source moved s₁ ms s₂) (hns : Narrow p s₁.lastEnd ns) :
    Narrow p s₂.lastEnd (ns ++ ms) := by
  have hle := h.onward.lastEnd_le
  obtain ⟨hlt, hinside⟩ := hns
  refine ⟨Nat.lt_of_lt_of_le hlt hle, fun n hn => ?_⟩
  rw [sitesOf_append] at hn
  rcases List.mem_append.mp hn with hn | hn
  · exact (hinside n hn).imp_right fun hstop => Nat.lt_of_lt_of_le hstop hle
  · exact (h.narrow_of_lt hlt).2 n hn

end Passed

namespace Reader

variable {α β σ : Type} {source : List Char} {moved moved' : Bool} {s₀ : State} {ns ms : List Node}
  {r : Reader α} {k : α → Reader β} {nodes : α → List Node} {result : β → List Node}

abbrev nothing (_ : α) : List Node :=
  []

abbrev alone (n : Node) : List Node :=
  [n]

/-- A reader lays out the nodes of its result. -/
def Reads (source : List Char) (moved : Bool) (r : Reader α) (nodes : α → List Node) : Prop :=
  ∀ s a s', s.Sound source → r s = some (a, s') → Passed source moved s (nodes a) s'

/-- A reader that goes on where the nodes `ns` have been read from `s₀` on. -/
def ReadsOn (source : List Char) (moved : Bool) (s₀ : State) (ns : List Node) (r : Reader α)
    (moved' : Bool) (nodes : α → List Node) : Prop :=
  ∀ s a s', Passed source moved s₀ ns s → r s = some (a, s') → Passed source moved' s₀ (nodes a) s'

theorem bind_eq_some {s : State} {b : β} {s' : State} (h : (r >>= k) s = some (b, s')) :
    ∃ a s₁, r s = some (a, s₁) ∧ k a s₁ = some (b, s') := by
  obtain ⟨⟨a, s₁⟩, hr, hk⟩ := Option.bind_eq_some_iff.mp h
  exact ⟨a, s₁, hr, hk⟩

theorem Reads.of_on (h : ∀ s₀, ReadsOn source false s₀ [] r moved nodes) :
    Reads source moved r nodes := fun s a s' hs hr => h s s a s' (.refl hs) hr

theorem Reads.forget (h : Reads source moved r nodes) : Reads source moved r nothing :=
  fun s a s' hs hr => (h s a s' hs hr).sublist (List.nil_sublist _)

theorem Reads.weaken (h : Reads source moved r nodes) : Reads source false r nodes :=
  fun s a s' hs hr => (h s a s' hs hr).weaken

/-- The start of the current token as the start of what is read. -/
theorem Reads.of_start {k : Nat → Reader β}
    (h : ∀ s₀ : State, ReadsOn source false s₀ [] (k s₀.here) moved result) :
    Reads source moved (start >>= k) result := fun s b s' hs hr => h s s b s' (.refl hs) hr

theorem Reads.pure {a : α} (h : sitesOf (nodes a) = []) :
    Reads source false (Pure.pure a : Reader α) nodes := by
  intro s b s' hs hr
  cases hr
  exact (Passed.refl hs).of_sites h

theorem Reads.failure : Reads source moved (failure : Reader α) nodes :=
  fun _ _ _ _ hr => nomatch hr

namespace ReadsOn

theorem of_sites (h : ReadsOn source moved s₀ ms r moved' nodes) (heq : sitesOf ms = sitesOf ns) :
    ReadsOn source moved s₀ ns r moved' nodes := fun s a s' hp hr => h s a s' (hp.of_sites heq) hr

theorem forget (h : ReadsOn source moved s₀ [] r moved' nodes) :
    ReadsOn source moved s₀ ns r moved' nodes := fun s a s' hp hr =>
  h s a s' (hp.sublist (List.nil_sublist _)) hr

theorem weaken (h : ReadsOn source moved s₀ ns r moved nodes) :
    ReadsOn source moved s₀ ns r false nodes := fun s a s' hp hr => (h s a s' hp hr).weaken

theorem andThen {moved'' : Bool} (h : ReadsOn source moved s₀ ns r moved' nodes)
    (hk : ∀ a, ReadsOn source moved' s₀ (nodes a) (k a) moved'' result) :
    ReadsOn source moved s₀ ns (r >>= k) moved'' result := by
  intro s b s' hp hr
  obtain ⟨a, s₁, ha, hb⟩ := bind_eq_some hr
  exact hk a s₁ b s' (h s a s₁ hp ha) hb

/-- A reader of its own goes on from any nodes. -/
theorem frame (h : Reads source moved' r nodes) :
    ReadsOn source moved s₀ ns r (moved || moved') fun a => ns ++ nodes a :=
  fun s a s' hp hr => hp.trans (h s a s' hp.after hr)

theorem last (h : Reads source moved' r nodes) :
    ReadsOn source moved s₀ [] r (moved || moved') nodes :=
  frame h

theorem tail (h : Reads source true r nodes) : ReadsOn source moved s₀ [] r true nodes := by
  intro s a s' hp hr
  simpa using last h s a s' hp hr

theorem many {moved'' : Bool} (h : Reads source false r nodes)
    (hk : ∀ a, ReadsOn source moved s₀ (ns ++ nodes a) (k a) moved'' result) :
    ReadsOn source moved s₀ ns (r >>= k) moved'' result :=
  (frame h).andThen fun a => by
    rw [Bool.or_false]
    exact hk a

/-- Some nodes, and past some token with them. -/
theorem gather {moved'' : Bool} (h : Reads source true r nodes)
    (hk : ∀ a, ReadsOn source true s₀ (ns ++ nodes a) (k a) moved'' result) :
    ReadsOn source moved s₀ ns (r >>= k) moved'' result :=
  (frame h).andThen fun a => by
    rw [Bool.or_true]
    exact hk a

theorem read {moved'' : Bool} {r : Reader Node} {k : Node → Reader β}
    (h : Reads source moved' r alone)
    (hk : ∀ n, ReadsOn source moved s₀ (ns ++ [n]) (k n) moved'' result) :
    ReadsOn source moved s₀ ns (r >>= k) moved'' result :=
  many h.weaken hk

/-- A step that passes no token for sure. -/
theorem look {moved'' : Bool} (h : Reads source false r nothing)
    (hk : ∀ a, ReadsOn source moved s₀ ns (k a) moved'' result) :
    ReadsOn source moved s₀ ns (r >>= k) moved'' result :=
  many h fun a => (List.append_nil ns).symm ▸ hk a

/-- A step past some token. -/
theorem move {moved'' : Bool} (h : Reads source true r nothing)
    (hk : ∀ a, ReadsOn source true s₀ ns (k a) moved'' result) :
    ReadsOn source moved s₀ ns (r >>= k) moved'' result :=
  (frame h).andThen fun a => by
    rw [Bool.or_true, List.append_nil]
    exact hk a

theorem pure_of_sublist {a : α} (h : (sitesOf (nodes a)).Sublist (sitesOf ns)) :
    ReadsOn source moved s₀ ns (Pure.pure a : Reader α) moved nodes := by
  intro s b s' hp hr
  cases hr
  exact hp.sublist h

theorem pure {a : α} (h : sitesOf (nodes a) = sitesOf ns) :
    ReadsOn source moved s₀ ns (Pure.pure a : Reader α) moved nodes :=
  pure_of_sublist (h ▸ List.Sublist.refl _)

/-- A value that is only passed on. -/
theorem given {moved'' : Bool} {a : α} (h : ReadsOn source moved s₀ ns (k a) moved'' result) :
    ReadsOn source moved s₀ ns (Pure.pure a >>= k) moved'' result :=
  fun s b s' hp hr => h s b s' hp hr

/-- What has been checked may be relied on. -/
theorem check {moved'' : Bool} {b : Bool} {k : Unit → Reader β}
    (h : b → ReadsOn source moved s₀ ns (k ()) moved'' result) :
    ReadsOn source moved s₀ ns (Reader.check b >>= k) moved'' result := by
  cases b with
  | true => exact fun s a s' hp hr => h rfl s a s' hp hr
  | false => exact fun _ _ _ _ hr => nomatch hr

theorem ite {c : Prop} [Decidable c] {r' : Reader α}
    (h : ReadsOn source moved s₀ ns r moved' nodes)
    (h' : ReadsOn source moved s₀ ns r' moved' nodes) :
    ReadsOn source moved s₀ ns (if c then r else r') moved' nodes := by
  split
  · exact h
  · exact h'

theorem failure : ReadsOn source moved s₀ ns (failure : Reader α) moved' nodes :=
  fun _ _ _ _ hr => nomatch hr

/-- A node that lets its children, which have been read last, through. -/
theorem wrap {kind : Kind} {start : Nat} {children : List Node} (hk : kind.isSite = false)
    (h : sitesOf children = sitesOf ms) :
    ReadsOn source moved s₀ (ns ++ ms) (node kind start children) moved fun n => ns ++ [n] := by
  intro s n s' hp hr
  cases hr
  refine hp.of_sites ?_
  rw [sitesOf_append, sitesOf_cons, sites_of_not_isSite hk, h, sitesOf_nil, List.append_nil,
    sitesOf_append]

theorem node {kind : Kind} {start : Nat} {children : List Node} (hk : kind.isSite = false)
    (h : sitesOf children = sitesOf ns) :
    ReadsOn source moved s₀ ns (node kind start children) moved alone :=
  @wrap source moved s₀ [] ns kind start children hk h

end ReadsOn

section Yields

variable {P : β → Prop}

/-- What is known of all results of a reader. -/
def Yields (r : Reader α) (P : α → Prop) : Prop :=
  ∀ s a s', r s = some (a, s') → P a

theorem Yields.any : Yields r fun _ => True :=
  fun _ _ _ _ => trivial

theorem Yields.imp {P Q : α → Prop} (h : Yields r P) (hPQ : ∀ a, P a → Q a) : Yields r Q :=
  fun s a s' hr => hPQ a (h s a s' hr)

theorem Yields.and {P Q : α → Prop} (h : Yields r P) (h' : Yields r Q) : Yields r fun a => P a ∧ Q a :=
  fun s a s' hr => ⟨h s a s' hr, h' s a s' hr⟩

theorem Yields.failure : Yields (failure : Reader β) P :=
  fun _ _ _ hr => nomatch hr

theorem Yields.bind (hk : ∀ a, Yields (k a) P) : Yields (r >>= k) P := by
  intro s b s' hr
  obtain ⟨a, s₁, -, hb⟩ := bind_eq_some hr
  exact hk a s₁ b s' hb

theorem Yields.andThen {Q : α → Prop} (h : Yields r Q) (hk : ∀ a, Q a → Yields (k a) P) :
    Yields (r >>= k) P := by
  intro s b s' hr
  obtain ⟨a, s₁, ha, hb⟩ := bind_eq_some hr
  exact hk a (h s a s₁ ha) s₁ b s' hb

/-- A value that is only passed on. -/
theorem Yields.given {a : α} (h : Yields (k a) P) : Yields (Pure.pure a >>= k) P :=
  h

theorem Yields.pure {b : β} (h : P b) : Yields (Pure.pure b : Reader β) P := by
  intro s b s' hr
  cases hr
  exact h

theorem Yields.ite {c : Prop} [Decidable c] {r r' : Reader β} (h : Yields r P) (h' : Yields r' P) :
    Yields (if c then r else r') P := by
  split
  · exact h
  · exact h'

theorem Yields.node {kind : Kind} {start : Nat} {children : List Node} :
    Yields (node kind start children) fun n => n.kind = kind := by
  intro s n s' hr
  cases hr
  rfl

theorem Yields.attempt {P : α → Prop} (h : Yields r P) : Yields (attempt r) fun a? => ∀ a ∈ a?, P a := by
  intro s a? s' hr
  unfold Reader.attempt at hr
  rcases hread : r s with _ | ⟨a, s₁⟩
  · rw [hread] at hr
    cases hr
    exact nofun
  · rw [hread] at hr
    cases hr
    exact fun b hb => Option.some.inj hb ▸ h s a s' hread

theorem Yields.loop {I : σ → Prop} {step : σ → Reader (Round σ β)} {st : σ}
    (h : ∀ st, I st → Yields (step st) fun
      | .again st => I st
      | .done b => P b) (hst : I st) : Yields (loop step st) P := by
  have run : ∀ fuel st, I st → Yields (loopFor fuel step st) P := by
    intro fuel
    induction fuel with
    | zero => exact fun st _ s b s' hr => nomatch hr
    | succ fuel ih =>
      intro st hst
      rw [loopFor]
      refine (h st hst).andThen fun round hround => ?_
      cases round with
      | again st => exact ih st hround
      | done b => exact .pure hround
  exact fun s b s' hr => run _ st hst s b s' hr

theorem ReadsOn.andKnowing {Q : α → Prop} {moved'' : Bool}
    (h : ReadsOn source moved s₀ ns r moved' nodes) (hQ : Yields r Q)
    (hk : ∀ a, Q a → ReadsOn source moved' s₀ (nodes a) (k a) moved'' result) :
    ReadsOn source moved s₀ ns (r >>= k) moved'' result := by
  intro s b s' hp hb
  obtain ⟨a, s₁, ha, hb⟩ := bind_eq_some hb
  exact hk a (hQ s a s₁ ha) s₁ b s' (h s a s₁ hp ha) hb

theorem ReadsOn.knowing {Q : α → Prop} {moved'' : Bool} (h : Reads source false r nodes)
    (hQ : Yields r Q)
    (hk : ∀ a, Q a → ReadsOn source moved s₀ (ns ++ nodes a) (k a) moved'' result) :
    ReadsOn source moved s₀ ns (r >>= k) moved'' result :=
  (frame h).andKnowing hQ fun a ha => by
    rw [Bool.or_false]
    exact hk a ha

end Yields

section Loops

/-- The nodes that a round of a loop leaves. -/
def roundNodes (held : σ → List Node) (result : α → List Node) : Round σ α → List Node
  | .again s => held s
  | .done a => result a

/-- A round of a loop that does not end it keeps to something. -/
def roundKeeps (I : σ → Prop) : Round σ α → Prop
  | .again s => I s
  | .done _ => True

variable (held : σ → List Node) (result : α → List Node) {step : σ → Reader (Round σ α)}

theorem exists_last_round {fuel : Nat} {st : σ} {s s' : State} {a : α} (h : loopFor fuel step st s = some (a, s')) :
    ∃ st₁ s₁, step st₁ s₁ = some (.done a, s') := by
  induction fuel generalizing st s with
  | zero => cases h
  | succ fuel ih =>
    obtain ⟨round, s₁, hround, h⟩ := bind_eq_some h
    cases round with
    | again st₁ => exact ih h
    | done b =>
      cases h
      exact ⟨st, s, hround⟩

/-- What each round keeps to, the loop keeps to, as long as the rounds keep `I`. -/
theorem passed_loopFor {I : σ → State → Prop} {fuel : Nat} {st : σ} {s s' : State} {a : α}
    (h : ∀ st s round s', I st s → Passed source moved s₀ (held st) s → step st s = some (round, s') →
      Passed source moved s₀ (roundNodes held result round) s')
    (hI : ∀ st s round s', I st s → step st s = some (round, s') → roundKeeps (I · s') round) (hst : I st s)
    (hp : Passed source moved s₀ (held st) s) (hr : loopFor fuel step st s = some (a, s')) :
    Passed source moved s₀ (result a) s' := by
  induction fuel generalizing st s with
  | zero => cases hr
  | succ fuel ih =>
    rw [Reader.loopFor] at hr
    obtain ⟨round, s₁, hround, hr⟩ := bind_eq_some hr
    have hp₁ := h st s round s₁ hst hp hround
    have hkeeps := hI st s round s₁ hst hround
    cases round with
    | again st => exact ih hkeeps hp₁ hr
    | done b =>
      cases hr
      exact hp₁

theorem ReadsOn.loopKeeping {I : σ → Prop} {st : σ}
    (h : ∀ st, I st → ReadsOn source moved s₀ (held st) (step st) moved (roundNodes held result))
    (hI : ∀ st, I st → Yields (step st) (roundKeeps I)) (hst : I st)
    (hns : sitesOf (held st) = sitesOf ns) : ReadsOn source moved s₀ ns (loop step st) moved result :=
  fun _ _ _ hp hr => passed_loopFor (I := fun st _ => I st) held result (fun st s round s' hst => h st hst s round s')
    (fun st s round s' hst => hI st hst s round s') hst (hp.of_sites hns) hr

theorem ReadsOn.loop {st : σ}
    (h : ∀ st, ReadsOn source moved s₀ (held st) (step st) moved (roundNodes held result))
    (hst : sitesOf (held st) = sitesOf ns) :
    ReadsOn source moved s₀ ns (loop step st) moved result :=
  .loopKeeping (I := fun _ => True) held result (fun st _ => h st)
    (fun _ _ _ round _ _ => by cases round <;> trivial) trivial hst

theorem Reads.loop {st : σ}
    (h : ∀ s₀ st, ReadsOn source false s₀ (held st) (step st) false (roundNodes held result))
    (hst : sitesOf (held st) = []) : Reads source false (loop step st) result :=
  .of_on fun s₀ => .loop held result (h s₀) hst

end Loops

section Narrow

variable {P : TokenKind → Prop} {Q : α → Prop} {kind : Kind} {children : List Node}

/-- From a token of some kind on, a reader passes more than the sites of its nodes. -/
def Encloses (source : List Char) (P : TokenKind → Prop) (r : Reader α) (nodes : α → List Node) :
    Prop :=
  ∀ s a s', s.Sound source → P s.token.kind → r s = some (a, s') →
    Narrow s.here s'.lastEnd (nodes a)

theorem Encloses.andThen (hr : Reads source moved r nothing) (h : Encloses source P r nothing)
    (hk : ∀ a, Reads source moved' (k a) result) : Encloses source P (r >>= k) result := by
  intro s b s' hs hP hb
  obtain ⟨a, s₁, ha, hb⟩ := bind_eq_some hb
  exact (hk a s₁ b s' (hr s a s₁ hs ha).after hb).narrow_trans (h s a s₁ hs hP ha)

theorem Encloses.after (hr : Reads source moved r nothing)
    (hk : ∀ a, Encloses source (fun _ => True) (k a) result) : Encloses source P (r >>= k) result := by
  intro s b s' hs _ hb
  obtain ⟨a, s₁, ha, hb⟩ := bind_eq_some hb
  have hp := hr s a s₁ hs ha
  exact hp.narrow_append (hk a s₁ b s' hp.after trivial hb)

theorem Encloses.imp {P' : TokenKind → Prop} (h : Encloses source P r nodes) (hP : ∀ t, P' t → P t) :
    Encloses source P' r nodes := fun s a s' hs hP' hr => h s a s' hs (hP _ hP') hr

theorem Encloses.of_start {k : Nat → Reader β} (h : ∀ start, Encloses source P (k start) result) :
    Encloses source P (start >>= k) result := fun s b s' hs hP hb => h s.here s b s' hs hP hb

theorem Encloses.atToken {k : TokenKind → Reader β} (h : ∀ t, Encloses source (· = t) (k t) result) :
    Encloses source P (tokenKind >>= k) result := fun s b s' hs _ hb => h s.token.kind s b s' hs rfl hb

/-- A reader that lays out the nodes of its result from a token of some kind on. -/
def ReadsFrom (source : List Char) (P : TokenKind → Prop) (moved : Bool) (r : Reader α)
    (nodes : α → List Node) : Prop :=
  ∀ s a s', s.Sound source → P s.token.kind → r s = some (a, s') → Passed source moved s (nodes a) s'

/-- A reader that goes on from a token of some kind. -/
def ReadsAt (source : List Char) (P : TokenKind → Prop) (moved : Bool) (s₀ : State) (ns : List Node)
    (r : Reader α) (moved' : Bool) (nodes : α → List Node) : Prop :=
  ∀ s a s', Passed source moved s₀ ns s → P s.token.kind → r s = some (a, s') →
    Passed source moved' s₀ (nodes a) s'

/-- A reader that goes on where more than the sites of the nodes `ns` has been passed. -/
def ReadsRest (source : List Char) (s₀ : State) (ns : List Node) (r : Reader α)
    (nodes : α → List Node) : Prop :=
  ∀ s a s', Passed source true s₀ ns s → Narrow s₀.here s.lastEnd ns → r s = some (a, s') →
    Passed source true s₀ (nodes a) s'

/-- A reader that goes on where some text has been passed. -/
def ReadsPast (source : List Char) (s₀ : State) (ns : List Node) (r : Reader α)
    (nodes : α → List Node) : Prop :=
  ∀ s a s', Passed source true s₀ ns s → s₀.here < s.lastEnd → r s = some (a, s') →
    Passed source true s₀ (nodes a) s'

theorem ReadsAt.around (h : Reads source moved' r nodes) (hr : Encloses source P r nodes)
    (hk : ∀ a, ReadsRest source s₀ (ns ++ nodes a) (k a) result) :
    ReadsAt source P moved s₀ ns (r >>= k) true result := by
  intro s b s' hp hP hb
  obtain ⟨a, s₁, ha, hb⟩ := bind_eq_some hb
  have hpassed := hp.trans (h s a s₁ hp.after ha)
  have hnarrow := hp.narrow_append (hr s a s₁ hp.after hP ha)
  exact hk a s₁ b s' { hpassed with moved := fun _ => Nat.le_of_lt hnarrow.1 } hnarrow hb

theorem ReadsAt.of_on (h : ReadsOn source moved s₀ ns r moved' nodes) :
    ReadsAt source P moved s₀ ns r moved' nodes := fun s a s' hp _ hr => h s a s' hp hr

theorem ReadsAt.weaken (h : ReadsAt source P moved s₀ ns r moved' nodes) :
    ReadsAt source P moved s₀ ns r false nodes := fun s a s' hp hP hr => (h s a s' hp hP hr).weaken

theorem ReadsAt.last (h : ReadsFrom source P moved' r nodes) :
    ReadsAt source P moved s₀ [] r (moved || moved') nodes := fun s a s' hp hP hr =>
  hp.trans (h s a s' hp.after hP hr)

theorem ReadsFrom.of_start {k : Nat → Reader β}
    (h : ∀ s₀ : State, ReadsAt source P false s₀ [] (k s₀.here) moved result) :
    ReadsFrom source P moved (start >>= k) result := fun s b s' hs hP hr =>
  h s s b s' (.refl hs) hP hr

theorem ReadsFrom.weaken (h : ReadsFrom source P moved r nodes) : ReadsFrom source P false r nodes :=
  fun s a s' hs hP hr => (h s a s' hs hP hr).weaken

theorem ReadsFrom.imp {P' : TokenKind → Prop} (h : ReadsFrom source P moved r nodes)
    (hP : ∀ t, P' t → P t) : ReadsFrom source P' moved r nodes := fun s a s' hs hP' hr =>
  h s a s' hs (hP _ hP') hr

namespace ReadsOn

/-- Past a token by itself that is not empty. -/
theorem past (h : Reads source moved' r nothing) (hr : Encloses source (fun _ => True) r nothing)
    (hk : ∀ a, ReadsRest source s₀ ns (k a) result) :
    ReadsOn source moved s₀ ns (r >>= k) true result := by
  have hat : ReadsAt source (fun _ => True) moved s₀ ns (r >>= k) true result :=
    .around h hr fun a => by simpa using hk a
  exact fun s b s' hp hb => hat s b s' hp trivial hb

theorem atToken {k : TokenKind → Reader β}
    (h : ∀ t, ReadsAt source (· = t) moved s₀ ns (k t) moved' result) :
    ReadsOn source moved s₀ ns (tokenKind >>= k) moved' result :=
  fun s b s' hp hb => h s.token.kind s b s' hp rfl hb

/-- Past some text, and past the sites in it. -/
theorem solid (h : Reads source true r nodes) (hr : Encloses source (fun _ => True) r nothing)
    (hQ : Yields r Q) (hk : ∀ a, Q a → ReadsPast source s₀ (ns ++ nodes a) (k a) result) :
    ReadsOn source moved s₀ ns (r >>= k) true result := by
  intro s b s' hp hb
  obtain ⟨a, s₁, ha, hb⟩ := bind_eq_some hb
  have hpassed := hp.trans (h s a s₁ hp.after ha)
  rw [Bool.or_true] at hpassed
  exact hk a (hQ s a s₁ ha) s₁ b s' hpassed (hp.narrow_append (hr s a s₁ hp.after trivial ha)).1 hb

end ReadsOn

namespace ReadsPast

theorem look (h : Reads source moved r nothing) (hk : ∀ a, ReadsPast source s₀ ns (k a) result) :
    ReadsPast source s₀ ns (r >>= k) result := by
  intro s b s' hp hlt hb
  obtain ⟨a, s₁, ha, hb⟩ := bind_eq_some hb
  have hone := h s a s₁ hp.after ha
  have hpassed := hp.trans hone
  rw [List.append_nil] at hpassed
  exact hk a s₁ b s' hpassed (Nat.lt_of_lt_of_le hlt hone.onward.lastEnd_le) hb

/-- A site that is nothing but the only node inside of it. -/
theorem bare {n : Node} (hk : kind.isDeclarator) (hn : Quiet n) :
    ReadsPast source s₀ [n] (Reader.node kind s₀.here [n]) alone := by
  intro s m s' hp hlt hr
  cases hr
  cases kind <;> cases hk
  exact hp.site rfl ⟨hlt, nofun, trivial, nofun, .alone hn, nofun, nofun, fun h => absurd rfl (h rfl)⟩

end ReadsPast

namespace ReadsRest

theorem forget (h : ReadsOn source true s₀ ns r true nodes) : ReadsRest source s₀ ns r nodes :=
  fun s a s' hp _ hr => h s a s' hp hr

theorem andThen (h : ReadsRest source s₀ ns r nodes)
    (hk : ∀ a, ReadsOn source true s₀ (nodes a) (k a) true result) :
    ReadsRest source s₀ ns (r >>= k) result := by
  intro s b s' hp hnarrow hb
  obtain ⟨a, s₁, ha, hb⟩ := bind_eq_some hb
  exact hk a s₁ b s' (h s a s₁ hp hnarrow ha) hb

theorem knowing (h : Reads source moved r nodes) (hQ : Yields r Q)
    (hk : ∀ a, Q a → ReadsRest source s₀ (ns ++ nodes a) (k a) result) :
    ReadsRest source s₀ ns (r >>= k) result := by
  intro s b s' hp hnarrow hb
  obtain ⟨a, s₁, ha, hb⟩ := bind_eq_some hb
  have hone := h s a s₁ hp.after ha
  exact hk a (hQ s a s₁ ha) s₁ b s' (hp.trans hone) (hone.narrow_trans hnarrow) hb

theorem look (h : Reads source moved r nothing) (hk : ∀ a, ReadsRest source s₀ ns (k a) result) :
    ReadsRest source s₀ ns (r >>= k) result :=
  knowing h .any fun a _ => (List.append_nil ns).symm ▸ hk a

/-- A site with some text besides the sites inside of it. -/
theorem site (hk : kind.isSite) (hname : kind.name? = none) (hcall : kind ≠ .call)
    (hd : kind.isVariables → children ≠ [] ∧ ∀ d ∈ children, d.kind.isDeclarator) (hq : AllQuiet children)
    (hf : kind.leadsToCalled → EndsFirst children) (h : sitesOf children = sitesOf ns) :
    ReadsRest source s₀ ns (Reader.node kind s₀.here children) alone := by
  intro s n s' hp hnarrow hr
  cases hr
  have hidentifier : kind.DeclaresIdentifier := by
    cases kind <;> trivial
  have hnarrow' : Narrow s₀.here s.lastEnd children := ⟨hnarrow.1, h ▸ hnarrow.2⟩
  exact (hp.of_sites h).site hk ⟨hnarrow.1, hd, hidentifier, by simp [hname], hq, hf,
    fun hkind => absurd hkind hcall, fun _ => hnarrow'⟩

end ReadsRest

end Narrow

section Steps

theorem reads_check {b : Bool} : Reads source false (check b) nothing := by
  unfold check
  split
  · exact .pure rfl
  · exact .failure

theorem reads_get : Reads source false (get : Reader State) nothing :=
  fun _ _ _ hs hr => by cases hr; exact .refl hs

theorem reads_token : Reads source false token nothing :=
  fun _ _ _ hs hr => by cases hr; exact .refl hs

theorem reads_tokenKind : Reads source false tokenKind nothing :=
  fun _ _ _ hs hr => by cases hr; exact .refl hs

theorem reads_start : Reads source false start nothing :=
  fun _ _ _ hs hr => by cases hr; exact .refl hs

theorem reads_onNewLine : Reads source false onNewLine nothing :=
  fun _ _ _ hs hr => by cases hr; exact .refl hs

theorem reads_ahead {r : Reader Bool} : Reads source false (ahead r) nothing :=
  fun _ _ _ hs hr => by cases hr; exact .refl hs

theorem reads_forM {xs : List α} {f : α → Reader PUnit} (h : ∀ a, Reads source false (f a) nothing) :
    Reads source false (xs.forM f) nothing := by
  induction xs with
  | nil => exact .pure rfl
  | cons x xs ih => exact .of_on fun _ => .look (h x) fun _ => .last ih

theorem reads_attempt (h : Reads source moved r nodes) :
    Reads source false (attempt r) fun a? => (a?.map nodes).getD [] := by
  intro s a? s' hs hr
  unfold attempt at hr
  rcases hread : r s with _ | ⟨a, s₁⟩
  · rw [hread] at hr
    cases hr
    exact .refl hs
  · rw [hread] at hr
    cases hr
    exact (h s a s' hs hread).weaken

/-- Some change of the state that leaves the place in the text alone. -/
theorem reads_modify {f : State → State}
    (h : ∀ s, (f s).token = s.token ∧ (f s).source = s.source ∧ (f s).rest = s.rest ∧
      (f s).lastEnd = s.lastEnd ∧ (f s).lineComments = s.lineComments) :
    Reads source false (modify f) nothing := by
  intro s a s' hs hr
  cases hr
  exact .stay hs (h s)

theorem next_of_advance {s s' : State} {a : Unit} (h : advance s = some (a, s')) :
    s.next = some s' := by
  obtain ⟨_, _, hget, h⟩ := bind_eq_some h
  cases hget
  rcases hnext : s.next with _ | s₁
  · rw [hnext] at h
    cases h
  · rw [hnext] at h
    cases h
    rfl

theorem reads_advance : Reads source true advance nothing := by
  intro s a s' hs hr
  obtain ⟨hsound, hend, new, hnew, hfrom⟩ := hs.next (next_of_advance hr)
  have hmoved : s.here ≤ s'.lastEnd := hend ▸ hs.here_le
  refine ⟨hs, hsound, ⟨Nat.le_trans hmoved hsound.lastEnd_le,
    Nat.le_trans hs.lastEnd_le hmoved, new, hnew, fun k hk => ?_⟩,
    .single (.next (State.place_moveTo (next_of_advance hr))), fun _ => hmoved, .nil⟩
  exact Nat.le_trans hs.here_le (hfrom k hk)

/-- A reader that passes one token alone. -/
def PassesOne (source : List Char) (r : Reader α) : Prop :=
  ∀ s a s', s.Sound source → r s = some (a, s') → s'.lastEnd = s.token.span.stop

theorem PassesOne.look (hr : ∀ s a s', r s = some (a, s') → s' = s)
    (hk : ∀ a, PassesOne source (k a)) : PassesOne source (r >>= k) := by
  intro s b s' hs hb
  obtain ⟨a, s₁, ha, hb⟩ := bind_eq_some hb
  cases hr s a s₁ ha
  exact hk a s b s' hs hb

theorem PassesOne.map {f : α → β} (h : PassesOne source r) :
    PassesOne source (r >>= fun a => Pure.pure (f a)) := by
  intro s b s' hs hb
  obtain ⟨a, s₁, ha, hb⟩ := bind_eq_some hb
  cases hb
  exact h s a s' hs ha

theorem passesOne_advance : PassesOne source advance := fun _ _ _ hs hr =>
  (hs.next (next_of_advance hr)).2.1

theorem tokenKind_same (s : State) (k : TokenKind) (s' : State)
    (h : tokenKind s = some (k, s')) : s' = s := by
  cases h
  rfl

theorem passesOne_take : PassesOne source take := by
  refine .look tokenKind_same fun _ => .look (fun s u s' h => ?_) fun _ => passesOne_advance
  unfold check at h
  split at h <;> cases h
  rfl

theorem reads_take : Reads source true take nothing :=
  .of_on fun _ => .look reads_tokenKind fun _ => .look reads_check fun _ => .last reads_advance

theorem reads_isMark {m : Mark} : Reads source false (isMark m) nothing :=
  .of_on fun _ => .look reads_tokenKind fun _ => .pure rfl

theorem reads_keyword? : Reads source false keyword? nothing := by
  refine .of_on fun _ => .look reads_tokenKind fun _ => ?_
  split <;> exact .pure rfl

theorem reads_isWord {k : Keyword} : Reads source false (isWord k) nothing :=
  .of_on fun _ => .look reads_keyword? fun _ => .pure rfl

theorem reads_eatMark {m : Mark} : Reads source false (eatMark m) nothing := by
  exact .of_on fun _ => .look reads_isMark fun _ =>
    .ite (.move reads_take fun _ => .weaken (.pure rfl)) (.pure rfl)

theorem reads_eatWord {k : Keyword} : Reads source false (eatWord k) nothing := by
  refine .of_on fun _ => .look reads_isWord fun _ => ?_
  split
  · exact .move reads_take fun _ => .weaken (.pure rfl)
  · exact .pure rfl

theorem reads_expectMark {m : Mark} : Reads source true (expectMark m) nothing :=
  .of_on fun _ => .look reads_isMark fun _ => .look reads_check fun _ => .last reads_take

theorem reads_expectWord {k : Keyword} : Reads source true (expectWord k) nothing :=
  .of_on fun _ => .look reads_isWord fun _ => .look reads_check fun _ => .last reads_take

theorem encloses_advance : Encloses source (·.isSolid) advance nothing := fun s _ s' hs hk hr =>
  ⟨by rw [passesOne_advance s _ s' hs hr]; exact hs.here_lt hk, nofun⟩

theorem encloses_take : Encloses source (·.isSolid) take nothing := fun s _ s' hs hk hr =>
  ⟨by rw [passesOne_take s _ s' hs hr]; exact hs.here_lt hk, nofun⟩

theorem encloses_expectMark {m : Mark} : Encloses source (fun _ => True) (expectMark m) nothing := by
  intro s u s' hs _ hr
  obtain ⟨_, _, hmark, hr⟩ := bind_eq_some hr
  obtain ⟨_, _, hcheck, hr⟩ := bind_eq_some hr
  cases hmark
  unfold check at hcheck
  split at hcheck
  next hm =>
    cases hcheck
    exact encloses_take s u s' hs (by rw [eq_of_beq hm]; rfl) hr
  next => cases hcheck

theorem solid_of_keyword? {s s' : State} {keyword : Option Keyword}
    (h : keyword? s = some (keyword, s')) :
    s = s' ∧ ∀ k, keyword = some k → s.token.kind.isSolid := by
  obtain ⟨kind, _, hkind, h⟩ := bind_eq_some h
  cases hkind
  cases hk : s.token.kind with
  | word =>
    rw [hk] at h
    cases h
    exact ⟨rfl, fun _ _ => rfl⟩
  | _ =>
    rw [hk] at h
    cases h
    exact ⟨rfl, nofun⟩

theorem encloses_expectWord {k : Keyword} : Encloses source (fun _ => True) (expectWord k) nothing := by
  intro s u s' hs _ hr
  obtain ⟨_, _, hword, hr⟩ := bind_eq_some hr
  obtain ⟨keyword, _, hkeyword, hword⟩ := bind_eq_some hword
  obtain ⟨rfl, hsolid⟩ := solid_of_keyword? hkeyword
  cases hword
  obtain ⟨_, _, hcheck, hr⟩ := bind_eq_some hr
  unfold check at hcheck
  split at hcheck
  next hk =>
    cases hcheck
    exact encloses_take s u s' hs (hsolid k (eq_of_beq hk)) hr
  next => cases hcheck

/-- Goes on in one way past a mark, and in another way without it. -/
theorem ReadsPast.eat {m : Mark} {r r' : Reader β} (h : ReadsRest source s₀ ns r result)
    (h' : ReadsPast source s₀ ns r' result) :
    ReadsPast source s₀ ns (do if ← eatMark m then r else r') result := by
  intro s b s' hp hlt hb
  obtain ⟨eaten, s₁, heat, hb⟩ := bind_eq_some hb
  have hp₁ := hp.trans (reads_eatMark s eaten s₁ hp.after heat)
  rw [List.append_nil, Bool.or_false] at hp₁
  obtain ⟨there, _, hmark, heat⟩ := bind_eq_some heat
  cases hmark
  split at heat
  next hm =>
    obtain ⟨u, _, htake, heat⟩ := bind_eq_some heat
    cases heat
    have hsolid : s.token.kind.isSolid := by rw [eq_of_beq hm]; rfl
    have hnarrow := hp.narrow_append (encloses_take s u s₁ hp.after hsolid htake)
    rw [List.append_nil] at hnarrow
    exact h s₁ b s' hp₁ hnarrow hb
  next =>
    cases heat
    exact h' s b s' hp hlt hb

theorem reads_atStatementEnd : Reads source false atStatementEnd nothing :=
  .of_on fun _ => .look reads_token fun _ => .pure rfl

theorem reads_statementEnd : Reads source false statementEnd nothing := by
  refine .of_on fun _ => .look reads_eatMark fun _ => ?_
  split
  · exact .pure rfl
  · exact .look reads_atStatementEnd fun _ => .last reads_check

theorem reads_rescan {read : List Char → Option (TokenKind × List Char)}
    (h : ∀ s kind rest, read s = some (kind, rest) → Place.Anew s kind rest) :
    Reads source false (rescan read) nothing := by
  intro s a s' hs hr
  obtain ⟨_, _, hget, hr⟩ := bind_eq_some hr
  cases hget
  rcases hread : read s.source with _ | ⟨kind, rest⟩
  · rw [hread] at hr
    cases hr
  · rw [hread] at hr
    cases hr
    have hanew := h _ _ _ hread
    exact ⟨hs, { hs with
        rest := restAt_of_suffix hs.current hanew.suffix
        here_le := Nat.le_add_right _ _
        word := hanew.spellsIdentifier
        scanned := fun hk => absurd hk (by simp [hanew.isSolid_eq_false]) },
      ⟨Nat.le_refl _, Nat.le_refl _, [], rfl, by simp⟩, .single (.reread hanew), nofun, .nil⟩

theorem reads_commaList {close : Mark} {item : Reader Node} (h : Reads source moved item alone) :
    Reads source false (commaList close item) id := by
  refine .loop List.reverse id (fun s₀ items => ?_) rfl
  refine .look reads_isMark fun _ => .ite (.pure rfl) ?_
  refine .read h fun n => .look reads_isMark fun _ => .ite (.pure (by simp [roundNodes])) ?_
  exact .move reads_expectMark fun _ => .weaken (.pure (by simp [roundNodes]))

/-- A list of items is read up to the mark that closes it. -/
theorem closing_of_commaList {close : Mark} {item : Reader Node} {s s' : State}
    (h : commaList close item s = some (ns, s')) : s'.token.kind = .mark close := by
  obtain ⟨items, s₁, hlast⟩ := exists_last_round h
  obtain ⟨_, _, hmark, hlast⟩ := bind_eq_some hlast
  cases hmark
  split at hlast
  next hclosed =>
    cases hlast
    exact eq_of_beq hclosed
  next =>
    obtain ⟨n, s₂, -, hlast⟩ := bind_eq_some hlast
    obtain ⟨_, _, hmark, hlast⟩ := bind_eq_some hlast
    cases hmark
    split at hlast
    next hclosed =>
      cases hlast
      exact eq_of_beq hclosed
    next =>
      obtain ⟨_, _, -, hlast⟩ := bind_eq_some hlast
      cases hlast

end Steps

end Reader

end FlatBundle.Script
