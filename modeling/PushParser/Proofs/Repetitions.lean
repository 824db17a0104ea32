import PushParser.Proofs.EmptyWord
import PushParser.Proofs.Traversal

/-!
# Empty repetitions are not counted

A body that takes no token is placed where nothing has gathered and one occurrence is required, and
nowhere else under a repetition. What becomes of a nonterminal that is entered depends on the token
alone, so the same body met with the same token completes again, and this time the position is left:
a repetition that took no token stays the only one. Every other one was entered by a token that it
took.

* `Attempt.Agrees`, **`step_agrees`**, `Engine.Shifts.not_completes`: neither the fuel nor the
  frames below decide what becomes of a frame;
* **`Element.Counts`**, `Event.Counted`: which repetitions a slot holds, and a reduction makes
  known;
* `Frame.Behind`, `Frame.Counted`, `Frame.Lone`: what is kept of a frame, in the middle of a token
  too;
* `Laden`: what is kept of a stack. The innermost frame holds a token;
* **`Runs.counted`**, `Takes.counted`, `settle_counted`: taking a token keeps it;
* **`Session.repetitions_counted`**: every reduction after any calls.
-/

namespace PushParser

variable {α : Type}

/-! ## The token alone decides -/

section Agrees

/-- Two attempts at a frame come to the same, if the fuel lasts for both. -/
inductive Attempt.Agrees : Attempt α → Attempt α → Prop
  | shifted {stack stack' : List (Frame α)} {tape tape' : Tape} :
      Agrees (.shifted stack tape) (.shifted stack' tape')
  | completed {tape tape' : Tape} : Agrees (.completed tape) (.completed tape')
  | failed : Agrees .failed .failed
  | exhausted {a b : Attempt α} (h : a = .exhausted ∨ b = .exhausted) : Agrees a b

/-- The same for how a symbol meets the token. -/
inductive Meeting.Agrees : Meeting α → Meeting α → Prop
  | here : Agrees .here .here
  | inside {stack stack' : List (Frame α)} {tape tape' : Tape} :
      Agrees (.inside stack tape) (.inside stack' tape')
  | nothing {tape tape' : Tape} : Agrees (.nothing tape) (.nothing tape')
  | refused : Agrees .refused .refused
  | exhausted {m n : Meeting α} (h : m = .exhausted ∨ n = .exhausted) : Agrees m n

/-- The same for what an element makes of it. -/
inductive Move.Agrees : Move α → Move α → Prop
  | shift {tape tape' : Tape} : Agrees (.shift tape) (.shift tape')
  | descend {stack stack' : List (Frame α)} {tape tape' : Tape} :
      Agrees (.descend stack tape) (.descend stack' tape')
  | fill {tape tape' : Tape} : Agrees (.fill tape) (.fill tape')
  | skip {tape tape' : Tape} : Agrees (.skip tape) (.skip tape')
  | fail : Agrees .fail .fail
  | exhausted {m n : Move α} (h : m = .exhausted ∨ n = .exhausted) : Agrees m n

theorem Attempt.Agrees.after {a b : Attempt α} (h : a.Agrees b) (before before' : Tape) :
    (a.after before).Agrees (b.after before') := by
  cases h with
  | shifted => exact .shifted
  | completed => exact .completed
  | failed => exact .failed
  | exhausted h => exact .exhausted (h.imp (fun h => by rw [h]; rfl) fun h => by rw [h]; rfl)

variable {E : Engine} {tag : Symbol}

theorem meet_agrees {enter enter' : Frame α → Attempt α} {s : Symbol}
    (h : ∀ r, (enter (.start s r)).Agrees (enter' (.start s r))) :
    (meet E enter tag s).Agrees (meet E enter' tag s) := by
  unfold meet
  cases hr : E.rule? s with
  | none =>
    dsimp only
    split
    · exact .here
    · exact .refused
  | some r =>
    have hs := h r
    dsimp only
    generalize enter (.start s r) = a at hs
    generalize enter' (.start s r) = b at hs
    cases hs with
    | shifted => exact .inside
    | completed => exact .nothing
    | failed => exact .refused
    | exhausted h => exact .exhausted (h.imp (fun h => by rw [h]) fun h => by rw [h])

theorem Meeting.Agrees.move {m n : Meeting α} (h : m.Agrees n) {here : Tape} {mark : Tape → Tape}
    {nothing : Tape → Move α} {refused refused' : Move α}
    (hnothing : ∀ tape tape', (nothing tape).Agrees (nothing tape'))
    (hrefused : refused.Agrees refused') :
    (m.move here mark nothing refused).Agrees (n.move here mark nothing refused') := by
  cases h with
  | here => exact .shift
  | inside => exact .descend
  | nothing => exact hnothing _ _
  | refused => exact hrefused
  | exhausted h => exact .exhausted (h.imp (fun h => by rw [h]; rfl) fun h => by rw [h]; rfl)

theorem passOver_agrees (q : Quantifier) (first : Bool) (s : Symbol) :
    (passOver E q first s : Move α).Agrees (passOver E q first s) := by
  unfold passOver
  split
  · exact .fail
  · exact .skip

theorem resolve_agrees (E : Engine) (tag : Symbol) {meeting meeting' : Symbol → Meeting α}
    (h : ∀ s, (meeting s).Agrees (meeting' s)) (first : Bool) (e : Element) :
    (resolve E tag meeting first e).Agrees (resolve E tag meeting' first e) := by
  cases e with
  | choice options =>
    rw [resolve, resolve]
    induction E.trialOrder tag options with
    | nil => exact .fail
    | cons o os ih =>
      rw [choose_cons, choose_cons]
      exact (h o.2).move (fun _ _ => .fill) ih
  | symbol s =>
    rw [resolve_symbol, resolve_symbol]
    exact (h s).move (fun _ _ => .fill) .fail
  | quantified q s =>
    rw [resolve_quantified, resolve_quantified]
    refine (h s).move (fun _ _ => ?_) (passOver_agrees q first s)
    split
    · exact .fill
    · exact passOver_agrees q first s

/-- **What becomes of a frame does not depend on the fuel nor on the frames below.** -/
theorem step_agrees (E : Engine) (blank : α) (tag : Symbol) (fuel fuel' : Nat) (f : Frame α)
    (below below' : List (Frame α)) :
    (step E blank tag fuel f below).Agrees (step E blank tag fuel' f below') := by
  induction fuel generalizing fuel' f below below' with
  | zero => exact .exhausted (.inl rfl)
  | succ fuel ih =>
    cases fuel' with
    | zero => exact .exhausted (.inr rfl)
    | succ fuel' =>
      rw [step, step]
      cases htodo : f.todo with
      | nil => exact .completed
      | cons e es =>
        have hmeet : ∀ s, (meet E (fun k => step E blank tag fuel k (f :: below)) tag s).Agrees
            (meet E (fun k => step E blank tag fuel' k (f :: below')) tag s) :=
          fun s => meet_agrees fun r => ih fuel' (.start s r) _ _
        have hmove := resolve_agrees E tag hmeet f.isBare e
        dsimp only
        generalize resolve E tag (meet E (fun k => step E blank tag fuel k _) tag) _ _ = m at hmove
        generalize resolve E tag (meet E (fun k => step E blank tag fuel' k _) tag) _ _ = n at hmove
        cases hmove with
        | shift => exact .shifted
        | descend => exact .shifted
        | fill => exact (ih fuel' _ below below').after _ _
        | skip => exact (ih fuel' _ below below').after _ _
        | fail => exact .failed
        | exhausted h => exact .exhausted (h.imp (fun h => by rw [h]) fun h => by rw [h])

/-- A nonterminal that takes the token in one trial completes without it in none. -/
theorem Engine.Shifts.not_completes {s : Symbol} {r : Rule} (h : E.Shifts tag s r) :
    ¬ E.Completes tag s r := by
  rintro ⟨fuel', below', tape', hcompleted⟩
  obtain ⟨fuel, below, stack, tape, hshifted⟩ := h
  have hagrees := step_agrees E () tag fuel fuel' (.start s r) below below'
  rw [hshifted, hcompleted] at hagrees
  cases hagrees with
  | exhausted h => exact h.elim (fun h => by cases h) fun h => by cases h

end Agrees

/-! ## Repetitions that count -/

/-- **The repetitions that the slot of an element holds count**: under `STAR` each has taken a
token, and under `PLUS` there is one at least, and one that took none is alone. -/
def Element.Counts : Element → Slot Tree → Prop
  | .quantified .star _, slot => ∃ as, slot = .many as ∧ ∀ a ∈ as, a.leaves ≠ []
  | .quantified .plus _, slot =>
    ∃ as, slot = .many as ∧ as ≠ [] ∧ ∀ a ∈ as, a.leaves = [] → as = [a]
  | _, _ => True

/-- **A reduction makes known repetitions that count**, position by position of its rule. -/
def Event.Counted (g : Grammar) : Event Tree → Prop
  | .reduce _ lhs slots _ => ∃ r, g.rule? lhs = some r ∧ List.Forall₂ Element.Counts r slots
  | _ => True

theorem Element.counts_of_not_repeats {e : Element} (he : e.repeats = false) (slot : Slot Tree) :
    e.Counts slot := by
  cases e with
  | symbol | choice => trivial
  | quantified q s =>
    cases q with
    | star | plus => cases he
    | opt => trivial

open PushParser.Tree (leavesOfSlots)

namespace Frame

variable {g : Grammar} {f : Frame Tree} {e : Element} {es : Rule} {a : Tree}

/-- The repetitions behind the current position count. -/
def Behind (g : Grammar) (f : Frame Tree) : Prop :=
  ∃ done, g.rule? f.lhs = some (done ++ f.todo) ∧ List.Forall₂ Element.Counts done f.finished

/-- **A frame between two tokens**: those gathered at the current position have taken tokens too. -/
structure Counted (g : Grammar) (f : Frame Tree) : Prop where
  behind : f.Behind g
  full : ∀ a ∈ f.repeated, a.leaves ≠ []

/-- **A frame where one repetition was placed without the token**, which the body of another would
not take either. -/
structure Lone (E : Engine) (tag : Symbol) (f : Frame Tree) : Prop where
  behind : f.Behind E.grammar
  alone : ∃ s es r a, f.todo = .quantified .plus s :: es ∧ f.repeated = [a] ∧
    E.rule? s = some r ∧ E.Completes tag s r

theorem counted_start {s : Symbol} {r : Rule} (hr : g.rule? s = some r) :
    (start s r : Frame Tree).Counted g :=
  ⟨⟨[], hr, .nil⟩, List.forall_mem_nil _⟩

theorem Behind.put (hf : f.Behind g) (htodo : f.todo = e :: es) (a : Tree) :
    (f.put a).Behind g := by
  cases he : e.repeats with
  | true =>
    have hput : f.put a = { f with repeated := a :: f.repeated } := by
      simp [Frame.put, htodo, he]
    rw [hput]
    exact hf
  | false =>
    have htodo' : (f.put a).todo = es := by simp [Frame.put, htodo, he]
    exact exists_rule_finish hf htodo (Element.counts_of_not_repeats he _) (lhs_put f a) htodo'
      (finished_put htodo he a)

theorem Behind.skip (hf : f.Behind g) (htodo : f.todo = e :: es)
    (hslot : e.Counts (.leave e f.repeated.reverse)) : f.skip.Counted g := by
  have hskip : f.skip = ⟨f.lhs, .leave e f.repeated :: f.filled, [], es⟩ := by
    simp [Frame.skip, htodo]
  refine ⟨exists_rule_finish hf htodo hslot (lhs_skip f) (by rw [hskip]) (finished_skip htodo), ?_⟩
  rw [hskip]
  exact List.forall_mem_nil _

theorem Counted.put (hf : f.Counted g) (htodo : f.todo = e :: es) (ha : a.leaves ≠ []) :
    (f.put a).Counted g := by
  refine ⟨hf.behind.put htodo a, ?_⟩
  cases he : e.repeats with
  | true =>
    have hrep : (f.put a).repeated = a :: f.repeated := by simp [Frame.put, htodo, he]
    rw [hrep]
    exact List.forall_mem_cons.2 ⟨ha, hf.full⟩
  | false =>
    have hrep : (f.put a).repeated = f.repeated := by simp [Frame.put, htodo, he]
    rw [hrep]
    exact hf.full

theorem Counted.skip {q : Quantifier} {s : Symbol} (hf : f.Counted g)
    (htodo : f.todo = .quantified q s :: es) (hq : q.demands f.isBare = false) :
    f.skip.Counted g := by
  have hfull : ∀ a ∈ f.repeated.reverse, a.leaves ≠ [] :=
    fun a ha => hf.full a (List.mem_reverse.1 ha)
  refine hf.behind.skip htodo ?_
  cases q with
  | star => exact ⟨_, rfl, hfull⟩
  | opt => trivial
  | plus =>
    refine ⟨_, rfl, fun hnil => ?_, fun a ha hempty => absurd hempty (hfull a ha)⟩
    rw [List.reverse_eq_nil_iff] at hnil
    simp [Quantifier.demands, isBare, hnil] at hq

theorem Lone.skip {E : Engine} {tag : Symbol} (hf : f.Lone E tag) : f.skip.Counted E.grammar := by
  obtain ⟨s, es, r, a, htodo, hrep, -⟩ := hf.alone
  refine hf.behind.skip htodo ⟨[a], ?_, List.cons_ne_nil _ _, ?_⟩
  · rw [hrep]
    rfl
  · exact List.forall_mem_singleton.2 fun _ => rfl

/-- **A match that took no token** finishes its position, or is the one repetition required. -/
theorem Counted.fill {E : Engine} {tag s : Symbol} {r : Rule} (hf : f.Counted E.grammar)
    (htodo : f.todo = e :: es) (hs : s ∈ e.operands) (hr : E.rule? s = some r)
    (hq : ∀ q x, e = .quantified q x → q.admitsEmpty f.isBare = true)
    (htrial : E.Completes tag s r) (a : Tree) :
    (f.put a).Counted E.grammar ∨ (f.put a).Lone E tag := by
  have hbehind := hf.behind.put htodo a
  cases he : e.repeats with
  | false =>
    left
    have hrep : (f.put a).repeated = f.repeated := by simp [Frame.put, htodo, he]
    refine ⟨hbehind, ?_⟩
    rw [hrep]
    exact hf.full
  | true =>
    right
    have hbare : f.repeated = [] := List.isEmpty_iff.1 (first_of_admitsEmpty hq he)
    have hput : f.put a = { f with repeated := [a] } := by simp [Frame.put, htodo, he, hbare]
    refine ⟨hbehind, s, es, r, a, ?_, by rw [hput], hr, htrial⟩
    rw [hput]
    cases e with
    | symbol | choice => cases he
    | quantified q x =>
      obtain rfl := List.mem_singleton.1 hs
      have hadmits := hq q s rfl
      cases q with
      | star => cases hadmits
      | opt => cases he
      | plus => exact htodo

theorem Behind.reduction (hf : f.Behind g) (htodo : f.todo = []) (depth : Nat) :
    (f.reduction Tree.algebra depth).Counted g := by
  obtain ⟨done, hrule, hdone⟩ := hf
  have hslots : f.slots = f.finished := by rw [slots, htodo]
  rw [htodo, List.append_nil] at hrule
  rw [Frame.reduction, hslots]
  exact ⟨done, hrule, hdone⟩

end Frame

/-! ## Stacks -/

/-- **A stack between two tokens**, innermost frame first: all frames are counted, and the innermost
holds a token. -/
structure Laden (g : Grammar) (stack : List (Frame Tree)) : Prop where
  frames : ∀ f ∈ stack, f.Counted g
  top : ∀ f below, stack = f :: below → leavesOfSlots f.slots ≠ []

section Stacks

variable {g : Grammar} {f k : Frame Tree} {below stack : List (Frame Tree)}

theorem laden_nil : Laden g [] := ⟨List.forall_mem_nil _, fun _ _ h => absurd h (by simp)⟩

theorem laden_cons_iff : Laden g (f :: below) ↔
    f.Counted g ∧ leavesOfSlots f.slots ≠ [] ∧ ∀ k ∈ below, k.Counted g := by
  constructor
  · intro h
    exact ⟨h.frames f List.mem_cons_self, h.top f below rfl,
      fun k hk => h.frames k (List.mem_cons_of_mem _ hk)⟩
  · rintro ⟨hf, htop, hbelow⟩
    refine ⟨List.forall_mem_cons.2 ⟨hf, hbelow⟩, fun k rest h => ?_⟩
    cases h
    exact htop

theorem Laden.put (hs : Sound g (Derivation g) (f :: below)) (hf : ∀ k ∈ f :: below, k.Counted g)
    {e : Element} {es : Rule} (htodo : f.todo = e :: es) {a : Tree} (ha : a.leaves ≠ []) :
    Laden g (f.put a :: below) := by
  have hleaves := Frame.leaves_slots_put (hs.frames f List.mem_cons_self) htodo a
  refine laden_cons_iff.2 ⟨(hf f List.mem_cons_self).put htodo ha, ?_,
    fun k hk => hf k (List.mem_cons_of_mem _ hk)⟩
  rw [hleaves]
  exact List.append_ne_nil_of_right_ne_nil _ ha

theorem Laden.reduce (hs : Sound g (Derivation g) (f :: k :: below))
    (hbelow : ∀ l ∈ k :: below, l.Counted g) (hf : leavesOfSlots f.slots ≠ []) :
    Laden g (k.put (f.result Tree.algebra) :: below) := by
  obtain ⟨-, ⟨⟨e, es, htodo, -⟩, -⟩, -⟩ := sound_cons_iff.1 hs
  refine Laden.put hs.tail hbelow htodo ?_
  rw [leaves_result]
  exact hf

end Stacks

/-! ## One token -/

section Token

variable {E : Engine} {t : Token}

/-- What is known of a frame that ran on top of `below`. -/
def Progress.Counted (g : Grammar) (below : List (Frame Tree)) : Progress Tree → Prop
  | .shifted stack => (∀ k ∈ below, k.Counted g) → Laden g stack
  | .completed k => k.Behind g

/-- **A run of a frame counts no empty repetition.** -/
theorem Runs.counted {depth : Nat} {f : Frame Tree} {below : List (Frame Tree)} {p : Progress Tree}
    {events : List (Event Tree)} (hrun : Runs E Tree.algebra t depth f below p events)
    (hs : Sound E.grammar (Derivation E.grammar) (f :: below))
    (hf : f.Counted E.grammar ∨ f.Lone E t.tag) :
    (∀ e ∈ events, e.Counted E.grammar) ∧ p.Counted E.grammar below := by
  have hA := Tree.respects E.grammar
  induction hrun with
  | complete htodo => exact ⟨List.forall_mem_nil _, hf.elim (·.behind) (·.behind)⟩
  | @shift depth f below e es htodo hmem hn =>
    refine ⟨List.forall_mem_singleton.2 trivial, fun hbelow => ?_⟩
    rcases hf with hf | hf
    · have htoken : (Tree.algebra.token t).leaves ≠ [] := by simp [Tree.algebra, Tree.leaves]
      exact Laden.put hs (List.forall_mem_cons.2 ⟨hf, hbelow⟩) htodo htoken
    · -- the operand has a rule, so it is not the tag of the token
      obtain ⟨s, es', r, a, hplus, -, hr, -⟩ := hf.alone
      cases htodo.symm.trans hplus
      rw [List.mem_singleton.1 hmem] at hn
      cases hn.symm.trans hr
  | @skip depth f below q s es p events htodo hq _ ih =>
    have hskip := (hs.frames f List.mem_cons_self).skip htodo hq
    refine ih (hs.replace hskip (Frame.lhs_skip f)) (.inl ?_)
    exact hf.elim (·.skip htodo hq) (·.skip)
  | @descend depth f below e es s r stack events htodo hmem hr htrial _ ih =>
    obtain ⟨hevents, hstack⟩ := ih (hs.enter htodo hmem hr) (.inl (Frame.counted_start hr))
    refine ⟨hevents, fun hbelow => ?_⟩
    rcases hf with hf | hf
    · exact hstack (List.forall_mem_cons.2 ⟨hf, hbelow⟩)
    · -- the body that completed without the token would now take it
      obtain ⟨s', es', r', a, hplus, -, hr', hcompletes⟩ := hf.alone
      cases htodo.symm.trans hplus
      obtain rfl := List.mem_singleton.1 hmem
      cases hr.symm.trans hr'
      exact absurd hcompletes htrial.not_completes
  | @fill depth f below e es s r k p events events' htodo hmem hr hq htrial inner _ ih ih' =>
    obtain ⟨hevents, hk⟩ := ih (hs.enter htodo hmem hr) (.inl (Frame.counted_start hr))
    obtain ⟨hdone, -, hsound⟩ := inner.sound hA (hs.enter htodo hmem hr)
    have hput : (f.put (k.result Tree.algebra)).Counted E.grammar ∨
        (f.put (k.result Tree.algebra)).Lone E t.tag := by
      rcases hf with hf | hf
      · exact hf.fill htodo hmem hr hq htrial _
      · -- a second repetition without the token is not admitted
        obtain ⟨s', es', r', a, hplus, hrep, -⟩ := hf.alone
        have hadmits := hq .plus s' (by cases htodo.symm.trans hplus; rfl)
        simp [Quantifier.admitsEmpty, Frame.isBare, hrep] at hadmits
    obtain ⟨hevents', hp⟩ := ih' (hsound.reduce hA hdone) hput
    refine ⟨List.forall_mem_append.2 ⟨hevents, List.forall_mem_cons.2 ⟨?_, hevents'⟩⟩, hp⟩
    exact hk.reduction hdone depth

/-- **A stack that takes a token counts no empty repetition**, and root is reduced with a token. -/
theorem Takes.counted {stack : List (Frame Tree)} {c : Commit Tree} {events : List (Event Tree)}
    (htakes : Takes E Tree.algebra t stack c events)
    (hs : Sound E.grammar (Derivation E.grammar) stack) (hl : Laden E.grammar stack) :
    (∀ e ∈ events, e.Counted E.grammar) ∧ Laden E.grammar c.stack ∧
      ∀ a ∈ c.root, a.leaves ≠ [] := by
  have hA := Tree.respects E.grammar
  induction htakes with
  | fresh hr run =>
    obtain ⟨hevents, hstack⟩ := run.counted (sound_root hr) (.inl (Frame.counted_start hr))
    exact ⟨hevents, hstack (List.forall_mem_nil _), by simp⟩
  | shift run =>
    obtain ⟨hf, -, hbelow⟩ := laden_cons_iff.1 hl
    obtain ⟨hevents, hstack⟩ := run.counted hs (.inl hf)
    exact ⟨hevents, hstack hbelow, by simp⟩
  | @reduce f k l below c events events' run _ ih =>
    obtain ⟨hf, htop, hbelow⟩ := laden_cons_iff.1 hl
    obtain ⟨hevents, hbehind⟩ := run.counted hs (.inl hf)
    obtain ⟨hdone, -, hsound⟩ := run.sound hA hs
    have hleaves : leavesOfSlots l.slots = leavesOfSlots f.slots := run.held_eq hs
    obtain ⟨hevents', hrest⟩ := ih (hsound.reduce hA hdone)
      (Laden.reduce hsound hbelow (hleaves ▸ htop))
    refine ⟨List.forall_mem_append.2 ⟨hevents, List.forall_mem_cons.2 ⟨?_, hevents'⟩⟩, hrest⟩
    exact hbehind.reduction hdone _
  | @restart f l c events events' run rest ih =>
    obtain ⟨hf, htop, -⟩ := laden_cons_iff.1 hl
    obtain ⟨hevents, hbehind⟩ := run.counted hs (.inl hf)
    obtain ⟨hdone, -, -⟩ := run.sound hA hs
    have hleaves : leavesOfSlots l.slots = leavesOfSlots f.slots := run.held_eq hs
    obtain ⟨hevents', hstack, -⟩ := ih sound_nil laden_nil
    refine ⟨List.forall_mem_append.2 ⟨hevents, List.forall_mem_cons.2 ⟨?_, hevents'⟩⟩, hstack, ?_⟩
    · exact hbehind.reduction hdone _
    · intro a ha
      rw [Commit.orRoot, rest.root_eq_none] at ha
      cases ha
      rw [Option.getD_none, leaves_result, hleaves]
      exact htop

theorem settleFrom_counted {g : Grammar} {f : Frame Tree} {below : List (Frame Tree)}
    (hs : Sound g (Derivation g) (f :: below)) (hl : Laden g (f :: below)) (n : Nat) :
    (∀ e ∈ (settleFrom Tree.algebra n f below).2, e.Counted g) ∧
      Laden g (settleFrom Tree.algebra n f below).1.stack ∧
      ∀ a ∈ (settleFrom Tree.algebra n f below).1.root, a.leaves ≠ [] := by
  obtain ⟨hf, htop, hbelow⟩ := laden_cons_iff.1 hl
  induction below generalizing n f with
  | nil =>
    rw [settleFrom]
    split
    · next hc =>
      have hreduction := hf.behind.reduction (List.isEmpty_iff.1 hc) n
      refine ⟨List.forall_mem_singleton.2 hreduction, laden_nil, fun a ha => ?_⟩
      cases ha
      rw [leaves_result]
      exact htop
    · exact ⟨List.forall_mem_nil _, hl, by simp⟩
  | cons k below ih =>
    rw [settleFrom]
    split
    · next hc =>
      have hdone := List.isEmpty_iff.1 hc
      have hreduced := Laden.reduce hs hbelow htop
      obtain ⟨hk, hktop, hkbelow⟩ := laden_cons_iff.1 hreduced
      obtain ⟨hevents, hrest⟩ :=
        ih (hs.reduce (Tree.respects g) hdone) hreduced (n - 1) hk hktop hkbelow
      exact ⟨List.forall_mem_cons.2 ⟨hf.behind.reduction hdone n, hevents⟩, hrest⟩
    · exact ⟨List.forall_mem_nil _, hl, by simp⟩

theorem settle_counted {g : Grammar} {stack : List (Frame Tree)}
    (hs : Sound g (Derivation g) stack) (hl : Laden g stack) :
    (∀ e ∈ (settle Tree.algebra stack).2, e.Counted g) ∧
      Laden g (settle Tree.algebra stack).1.stack ∧
      ∀ a ∈ (settle Tree.algebra stack).1.root, a.leaves ≠ [] := by
  cases stack with
  | nil => exact ⟨List.forall_mem_nil _, laden_nil, by simp [settle]⟩
  | cons f below => exact settleFrom_counted hs hl below.length

/-- **A token that is taken**, parsed to trees. -/
theorem advance_counted {blank : Tree} {stack : List (Frame Tree)} {c : Commit Tree}
    {events : List (Event Tree)} (h : advance E Tree.algebra blank t stack = some (c, events))
    (hs : Sound E.grammar (Derivation E.grammar) stack) (hl : Laden E.grammar stack) :
    (∀ e ∈ events, e.Counted E.grammar) ∧ Laden E.grammar c.stack ∧
      ∀ a ∈ rootValues events, a.leaves ≠ [] := by
  obtain ⟨c', events', htakes, rfl, rfl⟩ := exists_takes_of_advance h
  obtain ⟨hevents, hstack, hroot⟩ := htakes.counted hs hl
  obtain ⟨hevents', hstack', hroot'⟩ :=
    settle_counted (htakes.sound (Tree.respects E.grammar) hs).1 hstack
  refine ⟨List.forall_mem_append.2 ⟨hevents, hevents'⟩, hstack', ?_⟩
  rw [rootValues_append, htakes.rootValues_eq, rootValues_settle]
  refine List.forall_mem_append.2 ⟨fun a ha => ?_, fun a ha => ?_⟩
  · exact hroot a (Option.mem_toList.1 ha)
  · exact hroot' a (Option.mem_toList.1 ha)

end Token

/-! ## Sessions -/

namespace Session

variable {g : Grammar} {settings : Settings} {x : Session} {events : List (Event Tree)}
  {frames : List (Frame Tree)}

/-- **A session parsed to trees**: what it made known since the last reset, and the frames in
progress. -/
structure Counting (g : Grammar) (x : Session) (events : List (Event Tree))
    (frames : List (Frame Tree)) : Prop where
  moves : ActsAll g Tree.algebra [] events frames
  stack : x.parser.stack = frames.map (Frame.map (Tree.fold x.parser.settings.actions.algebra))
  progress : x.progress = events.map (Event.map (Tree.fold x.parser.settings.actions.algebra))
  leaves : (rootValues events).flatMap Tree.leaves ++ held frames = x.accepted
  laden : Laden g frames
  counted : ∀ e ∈ events, e.Counted g
  roots : ∀ a ∈ rootValues events, a.leaves ≠ []

theorem counting_nil (hstack : x.parser.stack = []) (hevents : x.events = [])
    (haccepted : x.accepted = []) : x.Counting g [] [] where
  moves := .refl
  stack := hstack
  progress := by
    rw [Session.progress, hevents]
    rfl
  leaves := haccepted.symm
  laden := laden_nil
  counted := List.forall_mem_nil _
  roots := List.forall_mem_nil _

theorem Counting.take (hx : x.Made g settings) (h : x.Counting g events frames) {t : Token}
    {c : Commit Value} {new : List (Event Value)} (hc : x.parser.commit t = some (c, new)) :
    ∃ events' frames', (x.call (.observe t)).Counting g events' frames' := by
  have hE : x.parser.engine.grammar = g := by rw [hx.engine]; rfl
  have hsound := (h.moves.traversed_eq sound_nil).1
  rw [← hE] at hsound
  -- the token is taken on the partial trees, and the values are their image
  obtain ⟨c', events', hadv, rfl, rfl⟩ := exists_commit_tree h.stack hc
  obtain ⟨-, -, hheld⟩ := advance_tree hadv hsound
  obtain ⟨hcounted, hladen, hroots⟩ := advance_counted hadv hsound (hE ▸ h.laden)
  have hmoves := actsAll_of_advance hadv
  have hprogress := progress_of_commit_some hx.ready hc
  rw [hE] at hcounted hladen hmoves
  rw [call_of_commit_some hx.ready hc] at hprogress ⊢
  refine ⟨events ++ events', c'.stack, h.moves.trans hmoves, rfl, ?_, ?_, hladen,
    List.forall_mem_append.2 ⟨h.counted, hcounted⟩, ?_⟩
  · rw [hprogress, h.progress, List.map_append]
  · rw [rootValues_append, List.flatMap_append, List.append_assoc, hheld, ← List.append_assoc,
      h.leaves]
  · rw [rootValues_append]
    exact List.forall_mem_append.2 ⟨h.roots, hroots⟩

theorem Counting.call (hx : x.Made g settings) (h : x.Counting g events frames) (c : Call) :
    ∃ events' frames', (x.call c).Counting g events' frames' := by
  cases c with
  | reset => exact ⟨[], [], counting_nil rfl rfl rfl⟩
  | observe t =>
    cases hc : x.parser.commit t with
    | some y => exact h.take hx hc
    | none =>
      obtain ⟨r, refused, hcall, -⟩ := call_of_commit_none hx.ready hc
      have hprogress := progress_of_commit_none hx.ready hc
      rw [hcall] at hprogress ⊢
      exact ⟨events, frames, h.moves, h.stack, hprogress.trans h.progress, h.leaves, h.laden,
        h.counted, h.roots⟩

/-- **Empty repetitions are never counted.** After any calls, what was made known since the last
reset is the traversal of the trees that root was reduced to and of those in progress, whose leaves
are the tokens accepted. In every reduction among them, each repetition under `STAR` has taken a
token, there is one at least under `PLUS`, and one that took none is the only one; and root was
reduced with a token each time. -/
theorem repetitions_counted {settings : List Setting} {p : Parser}
    (hp : Parser.make (some g) settings = .ok p) (calls : List Call) :
    ∃ trees frames, ((start p).run calls).Traversed g trees frames ∧
      trees.flatMap Tree.leaves ++ held frames = ((start p).run calls).accepted ∧
      (∀ e ∈ trees.flatMap (Tree.traversal 0 rootName) ++ traversed frames, e.Counted g) ∧
      ∀ a ∈ trees, a.leaves ≠ [] := by
  obtain ⟨c, rfl⟩ := Parser.eq_of_make hp
  obtain ⟨-, events, frames, h⟩ := run_induction
    (I := fun y => y.Made g c ∧ ∃ events frames, y.Counting g events frames)
    ⟨made_start, [], [], counting_nil rfl rfl rfl⟩
    (fun y call ⟨hmade, events, frames, h⟩ => ⟨hmade.call call, h.call hmade call⟩) calls
  obtain ⟨-, -, htraversed⟩ := h.moves.traversed_eq sound_nil
  refine ⟨rootValues events, frames, traversed_of_actsAll h.moves h.stack h.progress, h.leaves, ?_,
    h.roots⟩
  rw [← htraversed]
  exact h.counted

/-- A word for which the padding in front is one repetition without a token, and then padding with a
token in front of the next. -/
theorem repetitions_counted_padded : ∃ p x,
    Parser.make (some Grammar.paddedGrammar) [] = .ok p ∧
    x = (start p).run [.observe ⟨"x", .null⟩, .observe ⟨"blank", .null⟩, .observe ⟨"x", .null⟩] ∧
    rootValues x.progress = [
      .list [.list [.list [.null]], .list [.list [.null], .token "x" .null]],
      .list [.list [.list [.token "blank" .null]], .list [.list [.null], .token "x" .null]]] ∧
    ∃ trees frames, x.Traversed Grammar.paddedGrammar trees frames ∧
      trees.flatMap Tree.leaves ++ held frames = x.accepted ∧
      (∀ e ∈ trees.flatMap (Tree.traversal 0 rootName) ++ traversed frames,
        e.Counted Grammar.paddedGrammar) ∧
      ∀ a ∈ trees, a.leaves ≠ [] :=
  ⟨_, _, rfl, rfl, rfl, @repetitions_counted Grammar.paddedGrammar [] _ rfl
    [.observe ⟨"x", .null⟩, .observe ⟨"blank", .null⟩, .observe ⟨"x", .null⟩]⟩

end Session

end PushParser
