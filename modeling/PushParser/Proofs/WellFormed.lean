import Mathlib.Data.List.Forall2
import PushParser.Proofs.Moves

/-!
# Well-formed stacks

The contents of a frame are typed by a relation `P`: it says what may stand for a symbol. A frame is
**`WellFormed`** when it stands somewhere in the rule of its nonterminal, the positions behind it
hold what their elements ask for, and repetitions have gathered at a repeating position only. A
stack is **`Sound`** when every frame is well formed, the outermost is a root, and each of the
others is for an operand of the element below it.

* `Frame.WellFormed.put`, `Frame.WellFormed.skip`, `Frame.WellFormed.result`: what the operations on
  frames keep;
* **`Runs.sound`**, **`Takes.sound`**, `settle_sound`, `advance_sound`: taking a token keeps stacks
  sound, and what root is reduced to stands for root;
* `Anything`: the relation that types every content.
-/

namespace PushParser

variable {α : Type}

/-- The slot holds what the element asks for, when `P` says what may stand for a symbol. -/
inductive SlotFits (P : Symbol → α → Prop) : Element → Slot α → Prop
  | symbol {s : Symbol} {a : α} (h : P s a) : SlotFits P (.symbol s) (.one a)
  | choice {s : Symbol} {ss : List Symbol} {a : α} (hs : s ∈ ss) (h : P s a) :
      SlotFits P (.choice ss) (.one a)
  | absent {s : Symbol} : SlotFits P (.quantified .opt s) .vacant
  | present {s : Symbol} {a : α} (h : P s a) : SlotFits P (.quantified .opt s) (.one a)
  | star {s : Symbol} {as : List α} (h : ∀ a ∈ as, P s a) :
      SlotFits P (.quantified .star s) (.many as)
  | plus {s : Symbol} {as : List α} (h : ∀ a ∈ as, P s a) (hne : as ≠ []) :
      SlotFits P (.quantified .plus s) (.many as)

/-- The algebra yields what may stand for the symbols of the grammar. -/
structure Algebra.Respects (A : Algebra α) (g : Grammar) (P : Symbol → α → Prop) : Prop where
  token : ∀ t, g.rule? t.tag = none → P t.tag (A.token t)
  node : ∀ {s r slots}, g.rule? s = some r → List.Forall₂ (SlotFits P) r slots →
    P s (A.node s slots)

/-- **A frame that stands in its rule**, with contents typed by `P`. -/
structure Frame.WellFormed (g : Grammar) (P : Symbol → α → Prop) (f : Frame α) : Prop where
  rule : ∃ done, g.rule? f.lhs = some (done ++ f.todo) ∧ List.Forall₂ (SlotFits P) done f.finished
  gathered : ∀ a ∈ f.repeated, ∃ q s es,
    f.todo = .quantified q s :: es ∧ q.repeats = true ∧ P s a

/-- The frames wait for the symbol: the innermost holds it as an operand of its current element, and
each of the others the nonterminal of the one above it. Without frames only root is waited for. -/
def Hosted : List (Frame α) → Symbol → Prop
  | [], s => s = rootName
  | k :: below, s => (∃ e es, k.todo = e :: es ∧ s ∈ e.operands) ∧ Hosted below k.lhs

/-- **A stack whose frames are well formed and fit together**, innermost frame first. -/
structure Sound (g : Grammar) (P : Symbol → α → Prop) (stack : List (Frame α)) : Prop where
  frames : ∀ f ∈ stack, f.WellFormed g P
  hosted : ∀ f below, stack = f :: below → Hosted below f.lhs

/-! ## Frames -/

namespace Frame

variable {g : Grammar} {P : Symbol → α → Prop}

@[simp] theorem lhs_put (f : Frame α) (a : α) : (f.put a).lhs = f.lhs := by
  unfold put
  split
  · rfl
  · split <;> rfl

@[simp] theorem lhs_skip (f : Frame α) : f.skip.lhs = f.lhs := by
  unfold skip
  split <;> rfl

theorem wellFormed_start {s : Symbol} {r : Rule} (h : g.rule? s = some r) :
    (start s r : Frame α).WellFormed g P :=
  ⟨⟨[], h, .nil⟩, List.forall_mem_nil _⟩

/-- A frame that finishes a position stands one further in its rule. The finished slots are related
to their elements by any relation. -/
theorem exists_rule_finish {R : Element → Slot α → Prop} {f k : Frame α} {e : Element} {es : Rule}
    {slot : Slot α}
    (hf : ∃ done, g.rule? f.lhs = some (done ++ f.todo) ∧ List.Forall₂ R done f.finished)
    (htodo : f.todo = e :: es) (hslot : R e slot) (hlhs : k.lhs = f.lhs) (hk : k.todo = es)
    (hfin : k.finished = f.finished ++ [slot]) :
    ∃ done, g.rule? k.lhs = some (done ++ k.todo) ∧ List.Forall₂ R done k.finished := by
  obtain ⟨done, hrule, hdone⟩ := hf
  refine ⟨done ++ [e], ?_, ?_⟩
  · rw [hlhs, hrule, htodo, hk, List.append_assoc, List.singleton_append]
  · rw [hfin]
    exact List.rel_append hdone (.cons hslot .nil)

theorem WellFormed.finish {f k : Frame α} {e : Element} {es : Rule} {slot : Slot α}
    (hf : f.WellFormed g P) (htodo : f.todo = e :: es) (hslot : SlotFits P e slot)
    (hlhs : k.lhs = f.lhs) (hk : k.todo = es) (hfin : k.finished = f.finished ++ [slot])
    (hrep : k.repeated = []) : k.WellFormed g P := by
  refine ⟨exists_rule_finish hf.rule htodo hslot hlhs hk hfin, fun a ha => ?_⟩
  rw [hrep] at ha
  cases ha

theorem WellFormed.repeated_eq_nil {f : Frame α} {e : Element} {es : Rule}
    (hf : f.WellFormed g P) (htodo : f.todo = e :: es) (he : e.repeats = false) :
    f.repeated = [] := by
  refine List.eq_nil_iff_forall_not_mem.2 fun a ha => ?_
  obtain ⟨q, s, es', h, hq, -⟩ := hf.gathered a ha
  rw [htodo] at h
  cases h
  exact absurd hq (by rw [show q.repeats = false from he]; exact Bool.false_ne_true)

theorem WellFormed.put_one {f : Frame α} {e : Element} {es : Rule} {a : α}
    (hf : f.WellFormed g P) (htodo : f.todo = e :: es) (he : e.repeats = false)
    (hslot : SlotFits P e (.one a)) : (f.put a).WellFormed g P := by
  have hput : f.put a = { f with filled := .one a :: f.filled, todo := es } := by
    simp [put, htodo, he]
  have hrep : (f.put a).repeated = [] := by
    rw [hput]
    exact hf.repeated_eq_nil htodo he
  exact hf.finish htodo hslot (lhs_put f a) (by rw [hput]) (finished_put htodo he a) hrep

/-- **A match of an operand keeps a frame well formed.** -/
theorem WellFormed.put {f : Frame α} {e : Element} {es : Rule} {s : Symbol} {a : α}
    (hf : f.WellFormed g P) (htodo : f.todo = e :: es) (hs : s ∈ e.operands) (ha : P s a) :
    (f.put a).WellFormed g P := by
  -- a repeating element gathers the match, any other is finished by it
  have gather : ∀ q, e = .quantified q s → q.repeats = true → (f.put a).WellFormed g P := by
    rintro q rfl hq
    have hput : f.put a = { f with repeated := a :: f.repeated } := by
      simp [Frame.put, htodo, Element.repeats, hq]
    rw [hput]
    refine ⟨hf.rule, fun b hb => ?_⟩
    rcases List.mem_cons.1 hb with rfl | hb
    · exact ⟨q, s, es, htodo, hq, ha⟩
    · exact hf.gathered b hb
  cases e with
  | symbol x =>
    rw [List.mem_singleton.1 hs] at ha
    exact hf.put_one htodo rfl (.symbol ha)
  | choice ss => exact hf.put_one htodo rfl (.choice hs ha)
  | quantified q x =>
    obtain rfl := List.mem_singleton.1 hs
    cases q with
    | star => exact gather .star rfl rfl
    | plus => exact gather .plus rfl rfl
    | opt => exact hf.put_one htodo rfl (.present ha)

theorem WellFormed.skip {f : Frame α} {q : Quantifier} {s : Symbol} {es : Rule}
    (hf : f.WellFormed g P) (htodo : f.todo = .quantified q s :: es)
    (hq : q.demands f.isBare = false) : f.skip.WellFormed g P := by
  have hskip : f.skip = ⟨f.lhs, .leave (.quantified q s) f.repeated :: f.filled, [], es⟩ := by
    simp [Frame.skip, htodo]
  have hrep : ∀ a ∈ f.repeated.reverse, P s a := by
    intro a ha
    obtain ⟨q', s', es', h, -, hp⟩ := hf.gathered a (List.mem_reverse.1 ha)
    rw [htodo] at h
    cases h
    exact hp
  have hslot : SlotFits P (.quantified q s) (.leave (.quantified q s) f.repeated.reverse) := by
    cases q with
    | star => exact .star hrep
    | opt => exact .absent
    | plus =>
      refine .plus hrep fun hnil => ?_
      rw [List.reverse_eq_nil_iff] at hnil
      simp [Quantifier.demands, isBare, hnil] at hq
  exact hf.finish htodo hslot (lhs_skip f) (by rw [hskip]) (finished_skip htodo) (by rw [hskip])

/-- **A complete frame is reduced to what may stand for its nonterminal.** -/
theorem WellFormed.result {A : Algebra α} (hA : A.Respects g P) {f : Frame α}
    (hf : f.WellFormed g P) (htodo : f.todo = []) : P f.lhs (f.result A) := by
  obtain ⟨done, hrule, hdone⟩ := hf.rule
  rw [htodo, List.append_nil] at hrule
  have hslots : f.slots = f.finished := by rw [slots, htodo]
  rw [Frame.result, hslots]
  exact hA.node hrule hdone

end Frame

/-! ## Stacks -/

section Stacks

variable {g : Grammar} {P : Symbol → α → Prop}

theorem sound_nil : Sound g P ([] : List (Frame α)) :=
  ⟨List.forall_mem_nil _, fun _ _ h => absurd h (by simp)⟩

theorem sound_cons_iff {f : Frame α} {below : List (Frame α)} :
    Sound g P (f :: below) ↔ f.WellFormed g P ∧ Hosted below f.lhs ∧
      ∀ k ∈ below, k.WellFormed g P := by
  constructor
  · intro h
    exact ⟨h.frames f List.mem_cons_self, h.hosted f below rfl,
      fun k hk => h.frames k (List.mem_cons_of_mem _ hk)⟩
  · rintro ⟨hf, hhost, hbelow⟩
    refine ⟨fun k hk => ?_, fun k rest h => ?_⟩
    · rcases List.mem_cons.1 hk with rfl | hk
      · exact hf
      · exact hbelow k hk
    · cases h
      exact hhost

theorem Sound.replace {f k : Frame α} {below : List (Frame α)} (h : Sound g P (f :: below))
    (hk : k.WellFormed g P) (hlhs : k.lhs = f.lhs) : Sound g P (k :: below) := by
  obtain ⟨-, hhost, hbelow⟩ := sound_cons_iff.1 h
  exact sound_cons_iff.2 ⟨hk, hlhs ▸ hhost, hbelow⟩

theorem Sound.enter {f : Frame α} {below : List (Frame α)} {e : Element} {es : Rule} {s : Symbol}
    {r : Rule} (h : Sound g P (f :: below)) (htodo : f.todo = e :: es) (hs : s ∈ e.operands)
    (hr : g.rule? s = some r) : Sound g P (.start s r :: f :: below) := by
  obtain ⟨-, hhost, -⟩ := sound_cons_iff.1 h
  exact sound_cons_iff.2 ⟨Frame.wellFormed_start hr, ⟨⟨e, es, htodo, hs⟩, hhost⟩, h.frames⟩

theorem sound_root {r : Rule} (hr : g.rule? rootName = some r) :
    Sound g P [(.start rootName r : Frame α)] :=
  sound_cons_iff.2 ⟨Frame.wellFormed_start hr, rfl, List.forall_mem_nil _⟩

variable {A : Algebra α}

theorem Sound.reduce (hA : A.Respects g P) {f k : Frame α} {below : List (Frame α)}
    (h : Sound g P (f :: k :: below)) (htodo : f.todo = []) :
    Sound g P (k.put (f.result A) :: below) := by
  obtain ⟨hf, ⟨⟨e, es, hk, hs⟩, hhost⟩, hbelow⟩ := sound_cons_iff.1 h
  have hput : (k.put (f.result A)).WellFormed g P :=
    (hbelow k List.mem_cons_self).put hk hs (hf.result hA htodo)
  refine sound_cons_iff.2 ⟨hput, ?_, fun l hl => hbelow l (List.mem_cons_of_mem _ hl)⟩
  rw [Frame.lhs_put]
  exact hhost

/-- What is known of a frame that ran on top of `below`. -/
def Progress.Sound (g : Grammar) (P : Symbol → α → Prop) (f : Frame α) (below : List (Frame α)) :
    Progress α → Prop
  | .shifted stack => PushParser.Sound g P stack
  | .completed k => k.todo = [] ∧ k.lhs = f.lhs ∧ PushParser.Sound g P (k :: below)

variable {E : Engine} {t : Token}

theorem Runs.sound (hA : A.Respects E.grammar P) {depth : Nat} {f : Frame α}
    {below : List (Frame α)} {p : Progress α} {events : List (Event α)}
    (hrun : Runs E A t depth f below p events) (h : Sound E.grammar P (f :: below)) :
    p.Sound E.grammar P f below := by
  induction hrun with
  | complete hf => exact ⟨hf, rfl, h⟩
  | @shift depth f below e es hf hs hn =>
    have hput := (h.frames f List.mem_cons_self).put hf hs (hA.token t hn)
    exact h.replace hput (Frame.lhs_put _ _)
  | @skip depth f below q s es p events hf hq _ ih =>
    have hskip := (h.frames f List.mem_cons_self).skip hf hq
    have hp := ih (h.replace hskip (Frame.lhs_skip _))
    cases p with
    | shifted stack => exact hp
    | completed k => exact ⟨hp.1, hp.2.1.trans (Frame.lhs_skip _), hp.2.2⟩
  | descend hf hs hr _ _ ih => exact ih (h.enter hf hs hr)
  | @fill depth f below e es s r k p events events' hf hs hr hq _ _ _ ih ih' =>
    obtain ⟨hk, -, hsound⟩ := ih (h.enter hf hs hr)
    have hp := ih' (hsound.reduce hA hk)
    cases p with
    | shifted stack => exact hp
    | completed l => exact ⟨hp.1, hp.2.1.trans (Frame.lhs_put _ _), hp.2.2⟩

/-- **A stack that takes a token stays sound**, and what root is reduced to on the way stands for
root. -/
theorem Takes.sound (hA : A.Respects E.grammar P) {stack : List (Frame α)} {c : Commit α}
    {events : List (Event α)} (htakes : Takes E A t stack c events)
    (h : Sound E.grammar P stack) : Sound E.grammar P c.stack ∧ ∀ a ∈ c.root, P rootName a := by
  induction htakes with
  | fresh hr run => exact ⟨run.sound hA (sound_root hr), by simp⟩
  | shift run => exact ⟨run.sound hA h, by simp⟩
  | reduce run _ ih =>
    obtain ⟨hl, -, hsound⟩ := run.sound hA h
    exact ih (hsound.reduce hA hl)
  | @restart f l c events events' run rest ih =>
    obtain ⟨hl, -, hsound⟩ := run.sound hA h
    obtain ⟨hwf, hroot, -⟩ := sound_cons_iff.1 hsound
    obtain ⟨hstack, hc⟩ := ih sound_nil
    have hresult : P rootName (l.result A) := (show l.lhs = rootName from hroot) ▸ hwf.result hA hl
    refine ⟨hstack, fun a ha => ?_⟩
    cases hcr : c.root with
    | none =>
      rw [Commit.orRoot, hcr] at ha
      cases ha
      exact hresult
    | some b =>
      rw [Commit.orRoot, hcr] at ha
      cases ha
      exact hc b (by rw [hcr]; exact rfl)

theorem settleFrom_sound (hA : A.Respects g P) {f : Frame α} {below : List (Frame α)}
    (h : Sound g P (f :: below)) (n : Nat) :
    Sound g P (settleFrom A n f below).1.stack ∧
      ∀ a ∈ (settleFrom A n f below).1.root, P rootName a := by
  induction below generalizing n f with
  | nil =>
    rw [settleFrom]
    split
    · next hc =>
      obtain ⟨hwf, hroot, -⟩ := sound_cons_iff.1 h
      refine ⟨sound_nil, fun a ha => ?_⟩
      cases ha
      exact (show f.lhs = rootName from hroot) ▸ hwf.result hA (List.isEmpty_iff.1 hc)
    · exact ⟨h, by simp⟩
  | cons k below ih =>
    rw [settleFrom]
    split
    · next hc => exact ih (h.reduce hA (List.isEmpty_iff.1 hc)) (n - 1)
    · exact ⟨h, by simp⟩

theorem settle_sound (hA : A.Respects g P) {stack : List (Frame α)} (h : Sound g P stack) :
    Sound g P (settle A stack).1.stack ∧ ∀ a ∈ (settle A stack).1.root, P rootName a := by
  cases stack with
  | nil => exact ⟨sound_nil, by simp [settle]⟩
  | cons f below => exact settleFrom_sound hA h below.length

/-- **A token that is taken keeps a stack sound.** -/
theorem advance_sound (hA : A.Respects E.grammar P) {blank : α} {stack : List (Frame α)}
    {c : Commit α} {events : List (Event α)} (h : advance E A blank t stack = some (c, events))
    (hs : Sound E.grammar P stack) : Sound E.grammar P c.stack := by
  obtain ⟨c', events', htakes, rfl, rfl⟩ := exists_takes_of_advance h
  exact (settle_sound hA (htakes.sound hA hs).1).1

end Stacks

/-! ## Frames with any contents -/

/-- The contents of frames do not matter. -/
abbrev Anything : Symbol → α → Prop := fun _ _ => True

theorem respects_anything (A : Algebra α) (g : Grammar) : A.Respects g Anything :=
  ⟨fun _ _ => trivial, fun _ _ => trivial⟩

theorem Sound.resume {g : Grammar} {f k : Frame α} {below : List (Frame α)}
    (h : Sound g Anything (f :: k :: below)) (a : α) : Sound g Anything (k.put a :: below) := by
  obtain ⟨-, ⟨⟨e, es, hk, hs⟩, hhost⟩, hbelow⟩ := sound_cons_iff.1 h
  have hput : (k.put a).WellFormed g Anything :=
    (hbelow k List.mem_cons_self).put hk hs trivial
  refine sound_cons_iff.2 ⟨hput, ?_, fun l hl => hbelow l (List.mem_cons_of_mem _ hl)⟩
  rw [Frame.lhs_put]
  exact hhost

end PushParser
