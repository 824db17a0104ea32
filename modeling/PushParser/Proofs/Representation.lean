import Mathlib.Logic.Relation
import PushParser.Proofs.Termination

/-!
# Frames by position

A frame keeps what it has finished and what it has still to do. Here it is looked at by position:
the element at the position is looked up in the rule of the nonterminal, and each position of the
rule has a slot.

* `Frame.element?`, `Frame.repetitions?`: the look-ups, which may fail;
* **`Frame.InRule`**: what the slots of a frame hold, position by position;
* **`Indexed`**: the stacks in which no look-up fails, with `indexed_of_sound`;
* **`Follows`**, `Follows.sound`: what one call does when a token is taken, and what it keeps;
* `settle_incomplete`: no complete frame is left when a token was taken;
* **`Session.represented_run`**: after any calls the stack is so represented and no frame is
  complete, and no look-up fails while a token is observed.
-/

namespace PushParser

variable {α : Type}

/-! ## Slots by position -/

namespace Frame

variable {g : Grammar} {f : Frame α} {r : Rule}

/-- The element at the position of a frame, looked up in the rule of its nonterminal. -/
def element? (g : Grammar) (f : Frame α) : Option Element :=
  (g.rule? f.lhs).bind fun r => r[f.position]?

/-- How many repetitions the slot at the position of a frame holds, when it is a list. -/
def repetitions? (f : Frame α) : Option Nat :=
  match f.slots[f.position]? with
  | some (.many as) => some as.length
  | _ => none

/-- **A frame stands in a rule.** -/
structure InRule (g : Grammar) (f : Frame α) (r : Rule) : Prop where
  rule : g.rule? f.lhs = some r
  todo : f.todo = r.drop f.position
  position : f.position ≤ r.length
  slots : f.slots.length = r.length
  /-- What repeats has a list for a slot. -/
  lists : ∀ {i : Nat} {e : Element}, r[i]? = some e → e.repeats = true →
    ∃ as, f.slots[i]? = some (.many as)
  /-- What has to occur has occurred before the position. -/
  behind : ∀ {i : Nat} {s : Symbol}, i < f.position → r[i]? = some (.quantified .plus s) →
    f.slots[i]? ≠ some (.many [])
  /-- After the position the slots are those of a frame that starts. -/
  ahead : ∀ {i : Nat}, f.position < i → f.slots[i]? = (start f.lhs r : Frame α).slots[i]?

theorem getElem?_slots_of_lt {i : Nat} (h : i < f.position) : f.slots[i]? = f.finished[i]? := by
  rw [← length_finished] at h
  unfold slots
  split
  · rfl
  · exact List.getElem?_append_left h

theorem getElem?_slots_of_le {i : Nat} (h : f.position ≤ i) :
    f.slots[i]? = f.todo[i - f.position]?.map fun e =>
      .leave e (if i = f.position then f.repeated.reverse else []) := by
  unfold slots
  split
  · next htodo =>
    rw [htodo, List.getElem?_nil, List.getElem?_eq_none (by rwa [length_finished])]
    rfl
  · next e es htodo =>
    rw [htodo, List.getElem?_append_right (by rwa [length_finished]), length_finished]
    obtain ⟨n, rfl⟩ := Nat.exists_eq_add_of_le h
    rw [Nat.add_sub_cancel_left]
    cases n with
    | zero => simp
    | succ n => simp

theorem getElem?_slots_start (lhs : Symbol) (r : Rule) (i : Nat) :
    (start lhs r : Frame α).slots[i]? = r[i]?.map (.leave · []) := by
  rw [getElem?_slots_of_le (Nat.zero_le i)]
  refine congrArg (Option.map · r[i]?) (funext fun e => ?_)
  split <;> rfl

end Frame

theorem exists_getElem?_of_forall₂ {β γ : Type} {R : β → γ → Prop} {bs : List β} {cs : List γ}
    (h : List.Forall₂ R bs cs) {i : Nat} {b : β} (hb : bs[i]? = some b) :
    ∃ c, cs[i]? = some c ∧ R b c := by
  induction h generalizing i with
  | nil => cases hb
  | cons hr _ ih =>
    cases i with
    | zero =>
      cases hb
      exact ⟨_, rfl, hr⟩
    | succ i => exact ih hb

theorem SlotFits.exists_many {P : Symbol → α → Prop} {e : Element} {slot : Slot α}
    (h : SlotFits P e slot) (he : e.repeats = true) : ∃ as, slot = .many as := by
  cases h with
  | star | plus => exact ⟨_, rfl⟩
  | symbol | choice | absent | present => cases he

namespace Frame

variable {g : Grammar} {P : Symbol → α → Prop} {f : Frame α} {r : Rule}

/-- **A well-formed frame stands in its rule.** -/
theorem WellFormed.exists_inRule (hf : f.WellFormed g P) : ∃ r, f.InRule g r := by
  obtain ⟨done, hrule, hdone⟩ := hf.rule
  have hlength : done.length = f.position := by rw [hdone.length_eq, length_finished]
  -- before the position the rule is what was done, and from there on what is to do
  have hlt : ∀ {i}, i < f.position → (done ++ f.todo)[i]? = done[i]? :=
    fun h => List.getElem?_append_left (by omega)
  have hle : ∀ {i}, f.position ≤ i → (done ++ f.todo)[i]? = f.todo[i - f.position]? := by
    intro i h
    rw [List.getElem?_append_right (by omega), hlength]
  refine ⟨done ++ f.todo, hrule, ?_, ?_, ?_, fun {i e} he hrep => ?_, fun {i s} hi he => ?_,
    fun {i} hi => ?_⟩
  · rw [← hlength, List.drop_left]
  · rw [List.length_append]
    omega
  · rw [length_slots, List.length_append, hlength]
    rfl
  · rcases Nat.lt_or_ge i f.position with hi | hi
    · rw [hlt hi] at he
      obtain ⟨slot, hslot, hfits⟩ := exists_getElem?_of_forall₂ hdone he
      obtain ⟨as, rfl⟩ := hfits.exists_many hrep
      exact ⟨as, by rw [getElem?_slots_of_lt hi, hslot]⟩
    · rw [hle hi] at he
      refine ⟨if i = f.position then f.repeated.reverse else [], ?_⟩
      rw [getElem?_slots_of_le hi, he, Option.map_some, Slot.leave, if_pos hrep]
  · rw [hlt hi] at he
    obtain ⟨slot, hslot, hfits⟩ := exists_getElem?_of_forall₂ hdone he
    cases hfits with
    | plus _ hne =>
      rw [getElem?_slots_of_lt hi, hslot]
      simpa using hne
  · rw [getElem?_slots_of_le (Nat.le_of_lt hi), getElem?_slots_start, hle (Nat.le_of_lt hi),
      if_neg (Nat.ne_of_gt hi)]

theorem InRule.element?_eq (h : f.InRule g r) : f.element? g = f.todo.head? := by
  rw [element?, h.rule, h.todo, Option.bind_some, List.head?_drop]

theorem InRule.position_lt (h : f.InRule g r) (hopen : f.isComplete = false) :
    f.position < r.length := by
  refine Nat.lt_of_not_le fun hle => ?_
  rw [isComplete, h.todo, List.drop_eq_nil_of_le hle] at hopen
  cases hopen

theorem InRule.repetitions?_eq (h : f.InRule g r) {e : Element} (he : f.element? g = some e)
    (hrep : e.repeats = true) : f.repetitions? = some f.repeated.length := by
  rw [h.element?_eq, List.head?_eq_getElem?] at he
  have hslot : f.slots[f.position]? = some (.many f.repeated.reverse) := by
    rw [getElem?_slots_of_le (Nat.le_refl _), Nat.sub_self, he, Option.map_some, if_pos rfl,
      Slot.leave, if_pos hrep]
  rw [repetitions?, hslot]
  exact congrArg some List.length_reverse

end Frame

/-! ## Stacks in which no look-up fails -/

/-- **A stack by position**, innermost frame first. -/
structure Indexed (g : Grammar) (stack : List (Frame α)) : Prop where
  frames : ∀ f ∈ stack, ∃ r, f.InRule g r
  bottom : ∀ f, stack.getLast? = some f → f.lhs = rootName
  /-- A frame is for an operand of the element at the position of the one below it. -/
  chain : stack.IsChain fun f k => ∃ e, k.element? g = some e ∧ f.lhs ∈ e.operands
  /-- The element of a frame that is not complete can be looked up. -/
  element : ∀ f ∈ stack, f.isComplete = false →
    ∃ e es, f.todo = e :: es ∧ f.element? g = some e
  /-- The repetitions of a repeating element can be counted. -/
  repetitions : ∀ f ∈ stack, ∀ e, f.element? g = some e → e.repeats = true →
    f.repetitions? = some f.repeated.length

section Stacks

variable {g : Grammar} {P : Symbol → α → Prop}

theorem Sound.tail {f : Frame α} {below : List (Frame α)} (h : Sound g P (f :: below)) :
    Sound g P below := by
  refine ⟨fun k hk => h.frames k (List.mem_cons_of_mem _ hk), ?_⟩
  rintro k rest rfl
  exact (h.hosted f _ rfl).2

theorem Hosted.incomplete {below : List (Frame α)} {s : Symbol} (h : Hosted below s) :
    ∀ k ∈ below, k.isComplete = false := by
  induction below generalizing s with
  | nil => exact List.forall_mem_nil _
  | cons k below ih =>
    obtain ⟨⟨e, es, htodo, -⟩, hbelow⟩ := h
    exact List.forall_mem_cons.2 ⟨by rw [Frame.isComplete, htodo]; rfl, ih hbelow⟩

theorem Sound.bottom {stack : List (Frame α)} (h : Sound g P stack) {f : Frame α}
    (hf : stack.getLast? = some f) : f.lhs = rootName := by
  induction stack with
  | nil => cases hf
  | cons k below ih =>
    cases below with
    | nil =>
      cases hf
      exact h.hosted _ [] rfl
    | cons l below =>
      rw [List.getLast?_cons_cons] at hf
      exact ih h.tail hf

theorem Sound.chain {stack : List (Frame α)} (h : Sound g P stack) :
    stack.IsChain fun f k => ∃ e, k.element? g = some e ∧ f.lhs ∈ e.operands := by
  induction stack with
  | nil => exact .nil
  | cons f below ih =>
    cases below with
    | nil => exact .singleton f
    | cons k below =>
      refine .cons_cons ?_ (ih h.tail)
      obtain ⟨e, es, htodo, hs⟩ := (h.hosted f _ rfl).1
      obtain ⟨r, hr⟩ := (h.frames k (by simp)).exists_inRule
      exact ⟨e, by rw [hr.element?_eq, htodo]; rfl, hs⟩

/-- **In a sound stack no look-up fails.** -/
theorem indexed_of_sound {stack : List (Frame α)} (h : Sound g P stack) : Indexed g stack where
  frames f hf := (h.frames f hf).exists_inRule
  bottom _ hf := h.bottom hf
  chain := h.chain
  element f hf hopen := by
    obtain ⟨r, hr⟩ := (h.frames f hf).exists_inRule
    cases htodo : f.todo with
    | nil =>
      rw [Frame.isComplete, htodo] at hopen
      cases hopen
    | cons e es => exact ⟨e, es, rfl, by rw [hr.element?_eq, htodo]; rfl⟩
  repetitions f hf e he hrep := by
    obtain ⟨r, hr⟩ := (h.frames f hf).exists_inRule
    exact hr.repetitions?_eq he hrep

end Stacks

/-! ## Calls keep stacks sound -/

section Trials

variable {E : Engine} {blank : α} {tag : Symbol} {stack stack' : List (Frame α)}

theorem Visits.sound (h : Visits E blank tag stack stack')
    (hs : Sound E.grammar Anything stack) : Sound E.grammar Anything stack' := by
  cases h with
  | enter hf hmem hr => exact hs.enter hf hmem hr
  | @fill f below e es fuel tape hf h =>
    obtain ⟨⟨s, hmem⟩, -⟩ := nullableIn_of_fill h
    exact hs.replace ((hs.frames f List.mem_cons_self).put hf hmem trivial) (Frame.lhs_put _ _)
  | @skip f below e es fuel tape hf h =>
    have hm := resolve_sound E tag f.lhs (fun k => step E blank tag fuel k (f :: below)) f.isBare e
    rw [h] at hm
    obtain ⟨q, s, rfl, hq, -⟩ := hm
    exact hs.replace ((hs.frames f List.mem_cons_self).skip hf hq) (Frame.lhs_skip _)

theorem VisitsIn.sound {n : Nat} (h : VisitsIn E blank tag n stack stack')
    (hs : Sound E.grammar Anything stack) : Sound E.grammar Anything stack' := by
  induction h with
  | refl => exact hs
  | head hv _ ih => exact ih (hv.sound hs)

end Trials

section Replays

variable {E : Engine}

/-- What an element that is told to do something has for it. -/
def Directive.Sound (E : Engine) (first : Bool) (e : Element) : Directive → Prop
  | .shift => ∃ s, s ∈ e.operands
  | .enter s r => s ∈ e.operands ∧ E.rule? s = some r
  | .skip => ∃ q s, e = .quantified q s ∧ q.demands first = false

theorem direct_sound {tag lhs : Symbol} {first : Bool} {e : Element} {tape rest : Tape}
    {d : Directive} (h : direct E tag lhs first e tape = .ok (d, rest)) : d.Sound E first e := by
  cases e with
  | symbol s =>
    rw [direct] at h
    cases hr : E.rule? s with
    | some r =>
      rw [hr] at h
      cases h
      exact ⟨List.mem_singleton_self s, hr⟩
    | none =>
      rw [hr] at h
      dsimp only at h
      split at h
      · cases h
        exact ⟨s, List.mem_singleton_self s⟩
      · cases h
  | quantified q s =>
    unfold direct at h
    dsimp only at h
    cases hr : E.rule? s with
    | some r =>
      rw [hr] at h
      dsimp only at h
      split at h
      · cases h
      · split at h
        · cases h
        · next hq =>
          cases h
          exact ⟨q, s, rfl, Bool.eq_false_of_not_eq_true hq⟩
      · cases h
        exact ⟨List.mem_singleton_self s, hr⟩
    | none =>
      rw [hr] at h
      dsimp only at h
      split at h
      · cases h
        exact ⟨s, List.mem_singleton_self s⟩
      · split at h
        · cases h
        · next hq =>
          cases h
          exact ⟨q, s, rfl, Bool.eq_false_of_not_eq_true hq⟩
  | choice options =>
    unfold direct at h
    dsimp only at h
    split at h
    · cases h
    · next i tape =>
      cases hs : options[i]? with
      | none =>
        rw [hs] at h
        cases h
      | some s =>
        have hmem : s ∈ options := List.mem_of_getElem? hs
        rw [hs] at h
        dsimp only at h
        cases hr : E.rule? s with
        | some r =>
          rw [hr] at h
          cases h
          exact ⟨hmem, hr⟩
        | none =>
          rw [hr] at h
          cases h
          exact ⟨s, hmem⟩

variable (E) (A : Algebra α) (t : Token)

/-- **What one call does when a token is taken**, to the stack and to what is left of the tape: a
frame does what the tape tells it to, a frame that has run to its end is reduced, and when there is
none a root is begun. -/
inductive Follows : List (Frame α) × Tape → List (Frame α) × Tape → Prop
  | shift {f : Frame α} {below : List (Frame α)} {e : Element} {es : Rule} {tape rest : Tape}
      (hf : f.todo = e :: es)
      (hd : direct E t.tag f.lhs f.isBare e tape = .ok (.shift, rest)) :
      Follows (f :: below, tape) (f.put (A.token t) :: below, rest)
  | skip {f : Frame α} {below : List (Frame α)} {e : Element} {es : Rule} {tape rest : Tape}
      (hf : f.todo = e :: es) (hd : direct E t.tag f.lhs f.isBare e tape = .ok (.skip, rest)) :
      Follows (f :: below, tape) (f.skip :: below, rest)
  | enter {f : Frame α} {below : List (Frame α)} {e : Element} {es : Rule} {s : Symbol} {r : Rule}
      {tape rest : Tape} (hf : f.todo = e :: es)
      (hd : direct E t.tag f.lhs f.isBare e tape = .ok (.enter s r, rest)) :
      Follows (f :: below, tape) (.start s r :: f :: below, rest)
  | reduce {f k : Frame α} {below : List (Frame α)} {tape : Tape} (hf : f.isComplete = true) :
      Follows (f :: k :: below, tape) (k.put (f.result A) :: below, tape)
  | finish {f : Frame α} {tape : Tape} (hf : f.isComplete = true) : Follows ([f], tape) ([], tape)
  | fresh {r : Rule} {tape : Tape} (hr : E.rule? rootName = some r) :
      Follows ([], tape) ([.start rootName r], tape)

variable {E A t}

/-- **Every call keeps the stack sound.** -/
theorem Follows.sound {x y : List (Frame α) × Tape} (h : Follows E A t x y)
    (hs : Sound E.grammar Anything x.1) : Sound E.grammar Anything y.1 := by
  cases h with
  | @shift f below e es tape rest hf hd =>
    obtain ⟨s, hmem⟩ := direct_sound hd
    exact hs.replace ((hs.frames f List.mem_cons_self).put hf hmem trivial) (Frame.lhs_put _ _)
  | @skip f below e es tape rest hf hd =>
    obtain ⟨q, s, rfl, hq⟩ := direct_sound hd
    exact hs.replace ((hs.frames f List.mem_cons_self).skip hf hq) (Frame.lhs_skip _)
  | enter hf hd =>
    obtain ⟨hmem, hr⟩ := direct_sound hd
    exact hs.enter hf hmem hr
  | reduce => exact hs.resume _
  | finish => exact sound_nil
  | fresh hr => exact sound_root hr

/-- Calls one after the other. -/
abbrev FollowsAll (E : Engine) (A : Algebra α) (t : Token) :
    List (Frame α) × Tape → List (Frame α) × Tape → Prop :=
  Relation.ReflTransGen (Follows E A t)

theorem FollowsAll.sound {x y : List (Frame α) × Tape} (h : FollowsAll E A t x y)
    (hs : Sound E.grammar Anything x.1) : Sound E.grammar Anything y.1 := by
  induction h with
  | refl => exact hs
  | tail _ hcall ih => exact hcall.sound ih

/-! ## Taking a token is such calls -/

/-- The stack of a frame that ran on top of `below`. -/
def Progress.stack (below : List (Frame α)) : Progress α → List (Frame α)
  | .shifted stack => stack
  | .completed f => f :: below

/-- **Running one frame by the tape is such calls**, and a frame that they leave is complete. -/
theorem followsAll_of_replayStep {fuel depth : Nat} {f : Frame α} {below : List (Frame α)}
    {tape : Tape} {x : Replayed α (Progress α)}
    (h : replayStep E A t fuel depth f below tape = .ok x) :
    FollowsAll E A t (f :: below, tape) (x.outcome.stack below, x.tape) ∧
      ∀ k, x.outcome = .completed k → k.isComplete = true := by
  induction fuel generalizing depth f below tape x with
  | zero => cases h
  | succ fuel ih =>
    rw [replayStep] at h
    cases hf : f.todo with
    | nil =>
      rw [hf] at h
      cases h
      refine ⟨.refl, fun k hk => ?_⟩
      cases hk
      exact List.isEmpty_iff.2 hf
    | cons e es =>
      rw [hf] at h
      dsimp only at h
      cases hd : direct E t.tag f.lhs f.isBare e tape with
      | error d =>
        rw [hd] at h
        cases h
      | ok y =>
        obtain ⟨d, rest⟩ := y
        rw [hd] at h
        cases d with
        | shift =>
          cases h
          exact ⟨.single (.shift hf hd), fun k hk => by cases hk⟩
        | skip =>
          obtain ⟨hcalls, hk⟩ := ih h
          exact ⟨.head (.skip hf hd) hcalls, hk⟩
        | enter s r =>
          dsimp only at h
          cases hin : replayStep E A t fuel (depth + 1) (.start s r) (f :: below) rest with
          | error d =>
            rw [hin] at h
            cases h
          | ok z =>
            obtain ⟨hcalls, hk⟩ := ih hin
            rw [hin] at h
            obtain ⟨outcome, events, tape'⟩ := z
            cases outcome with
            | shifted stack =>
              cases h
              exact ⟨.head (.enter hf hd) hcalls, fun k hk => by cases hk⟩
            | completed k =>
              -- the frame entered is reduced and the rest of the run goes on
              dsimp only at h
              cases hout : replayStep E A t fuel depth (f.put (k.result A)) below tape' with
              | error d =>
                rw [hout] at h
                cases h
              | ok w =>
                obtain ⟨hcalls', hk'⟩ := ih hout
                rw [hout] at h
                cases h
                exact ⟨.head (.enter hf hd) (hcalls.trans (.head (.reduce (hk k rfl)) hcalls')),
                  hk'⟩

theorem followsAll_of_replayFresh {tape : Tape} {x : Replayed α (Commit α)}
    (h : replayFresh E A t tape = .ok x) :
    FollowsAll E A t ([], tape) (x.outcome.stack, x.tape) := by
  unfold replayFresh at h
  cases hr : E.rule? rootName with
  | none =>
    rw [hr] at h
    cases h
  | some r =>
    rw [hr] at h
    dsimp only at h
    cases hrun : replayStep E A t E.fuel 1 (.start rootName r) [] tape with
    | error d =>
      rw [hrun] at h
      cases h
    | ok y =>
      obtain ⟨hcalls, -⟩ := followsAll_of_replayStep hrun
      rw [hrun] at h
      obtain ⟨outcome, events, rest⟩ := y
      cases outcome with
      | shifted stack =>
        cases h
        exact .head (.fresh hr) hcalls
      | completed k => cases h

theorem followsAll_of_replayFrom {n : Nat} {f : Frame α} {below : List (Frame α)} {tape : Tape}
    {x : Replayed α (Commit α)} (h : replayFrom E A t n f below tape = .ok x) :
    FollowsAll E A t (f :: below, tape) (x.outcome.stack, x.tape) := by
  induction below generalizing n f tape x with
  | nil =>
    rw [replayFrom] at h
    cases hrun : replayStep E A t E.fuel (n + 1) f [] tape with
    | error d =>
      rw [hrun] at h
      cases h
    | ok y =>
      obtain ⟨hcalls, hk⟩ := followsAll_of_replayStep hrun
      rw [hrun] at h
      obtain ⟨outcome, events, rest⟩ := y
      cases outcome with
      | shifted stack =>
        cases h
        exact hcalls
      | completed k =>
        dsimp only at h
        cases hfresh : replayFresh E A t rest with
        | error d =>
          rw [hfresh] at h
          cases h
        | ok z =>
          have hrest := followsAll_of_replayFresh hfresh
          rw [hfresh] at h
          cases h
          exact hcalls.trans (.head (.finish (hk k rfl)) hrest)
  | cons l below ih =>
    rw [replayFrom] at h
    cases hrun : replayStep E A t E.fuel (n + 1) f (l :: below) tape with
    | error d =>
      rw [hrun] at h
      cases h
    | ok y =>
      obtain ⟨hcalls, hk⟩ := followsAll_of_replayStep hrun
      rw [hrun] at h
      obtain ⟨outcome, events, rest⟩ := y
      cases outcome with
      | shifted stack =>
        cases h
        exact hcalls
      | completed k =>
        dsimp only at h
        cases hfrom : replayFrom E A t (n - 1) (l.put (k.result A)) below rest with
        | error d =>
          rw [hfrom] at h
          cases h
        | ok z =>
          have hrest := ih hfrom
          rw [hfrom] at h
          cases h
          exact hcalls.trans (.head (.reduce (hk k rfl)) hrest)

theorem followsAll_of_replay {stack : List (Frame α)} {tape : Tape} {x : Replayed α (Commit α)}
    (h : replay E A t tape stack = .ok x) :
    FollowsAll E A t (stack, tape) (x.outcome.stack, x.tape) := by
  cases stack with
  | nil => exact followsAll_of_replayFresh h
  | cons f below => exact followsAll_of_replayFrom h

theorem followsAll_settleFrom (n : Nat) (f : Frame α) (below : List (Frame α)) (tape : Tape) :
    FollowsAll E A t (f :: below, tape) ((settleFrom A n f below).1.stack, tape) := by
  induction below generalizing n f with
  | nil =>
    rw [settleFrom]
    split
    · next hf => exact .single (.finish hf)
    · exact .refl
  | cons k below ih =>
    rw [settleFrom]
    split
    · next hf => exact .head (.reduce hf) (ih (n - 1) (k.put (f.result A)))
    · exact .refl

theorem followsAll_settle (stack : List (Frame α)) (tape : Tape) :
    FollowsAll E A t (stack, tape) ((settle A stack).1.stack, tape) := by
  cases stack with
  | nil => exact .refl
  | cons f below => exact followsAll_settleFrom below.length f below tape

end Replays

theorem settleFrom_incomplete (A : Algebra α) (n : Nat) (f : Frame α) (below : List (Frame α)) :
    ∀ k ∈ (settleFrom A n f below).1.stack.head?, k.isComplete = false := by
  induction below generalizing n f with
  | nil =>
    rw [settleFrom]
    split
    · exact fun k hk => by cases hk
    · next hf =>
      intro k hk
      cases hk
      exact Bool.eq_false_of_not_eq_true hf
  | cons l below ih =>
    rw [settleFrom]
    split
    · exact ih (n - 1) (l.put (f.result A))
    · next hf =>
      intro k hk
      cases hk
      exact Bool.eq_false_of_not_eq_true hf

/-- **No complete frame is left.** -/
theorem settle_incomplete (A : Algebra α) (stack : List (Frame α)) :
    ∀ k ∈ (settle A stack).1.stack.head?, k.isComplete = false := by
  cases stack with
  | nil => exact fun k hk => by cases hk
  | cons f below => exact settleFrom_incomplete A below.length f below

/-! ## Parsers -/

namespace Parser

/-- **The stacks that are handled while a token is observed**: those of the trial, and when it takes
the token those of the replay and of the reductions after it. -/
inductive Handles (p : Parser) (t : Token) : List (Frame Value) → Prop
  | trial {n m : Nat} {offered stack : List (Frame Value)}
      (ho : Offers p.engine .null t.tag n p.stack offered)
      (hv : VisitsIn p.engine .null t.tag m offered stack) : Handles p t stack
  | replay {tape rest : Tape} {stack : List (Frame Value)}
      (ht : (PushParser.trial p.engine .null t.tag p.stack).tape? = some tape)
      (h : FollowsAll p.engine p.settings.actions.algebra t (p.stack, tape) (stack, rest)) :
      Handles p t stack

/-- **A parser between two calls.** -/
structure Represented (g : Grammar) (p : Parser) : Prop where
  lookahead : p.lookahead.items = []
  stack : Indexed g p.stack
  /-- No frame is complete. -/
  position : ∀ f ∈ p.stack, ∃ r, g.rule? f.lhs = some r ∧ f.position < r.length
  /-- What a rejection says was expected is the element at the position of the innermost frame. -/
  expected : ∀ f below, p.stack = f :: below → ∃ e, f.element? g = some e ∧ p.expected = e.text

variable {p : Parser} {g : Grammar} {t : Token}

theorem Handles.sound {stack : List (Frame Value)} (h : p.Handles t stack)
    (hs : Sound p.grammar Anything p.stack) : Sound p.grammar Anything stack := by
  cases h with
  | trial ho hv => exact hv.sound (ho.sound hs)
  | replay _ h => exact h.sound hs

/-- What a token leads to is come to by calls that follow the tape of the trial. -/
theorem exists_followsAll_of_commit {c : Commit Value} {events : List (Event Value)}
    (h : p.commit t = some (c, events)) :
    ∃ tape rest, (PushParser.trial p.engine .null t.tag p.stack).tape? = some tape ∧
      FollowsAll p.engine p.settings.actions.algebra t (p.stack, tape) (c.stack, rest) := by
  rw [commit, advance_eq] at h
  obtain ⟨tape, ht, h⟩ := Option.bind_eq_some_iff.1 h
  obtain ⟨x, hx, hsettled⟩ := Option.map_eq_some_iff.1 h
  rw [Replayed.settled, Prod.mk.injEq] at hsettled
  obtain ⟨rfl, -⟩ := hsettled
  cases hreplay : PushParser.replay p.engine p.settings.actions.algebra t tape p.stack with
  | error d =>
    rw [hreplay] at hx
    cases hx
  | ok y =>
    rw [hreplay] at hx
    cases hx
    exact ⟨tape, _, ht, (followsAll_of_replay hreplay).trans (followsAll_settle _ _)⟩

theorem handles_of_commit {c : Commit Value} {events : List (Event Value)}
    (h : p.commit t = some (c, events)) : p.Handles t c.stack := by
  obtain ⟨tape, rest, ht, hfollows⟩ := exists_followsAll_of_commit h
  exact .replay ht hfollows

theorem represented_of_sound (hready : p.Ready) (hs : Sound g Anything p.stack)
    (hopen : ∀ f ∈ p.stack.head?, f.isComplete = false) : p.Represented g := by
  have hindexed := indexed_of_sound hs
  have hall : ∀ f ∈ p.stack, f.isComplete = false := by
    cases hstack : p.stack with
    | nil => exact List.forall_mem_nil _
    | cons f below =>
      rw [hstack] at hopen
      exact List.forall_mem_cons.2 ⟨hopen f rfl, (hs.hosted f below hstack).incomplete⟩
  refine ⟨by rw [hready]; rfl, hindexed, fun f hf => ?_, fun f below hstack => ?_⟩
  · obtain ⟨r, hr⟩ := hindexed.frames f hf
    exact ⟨r, hr.rule, hr.position_lt (hall f hf)⟩
  · have hf : f ∈ p.stack := by rw [hstack]; exact List.mem_cons_self
    obtain ⟨e, es, htodo, he⟩ := hindexed.element f hf (hall f hf)
    exact ⟨e, he, by rw [expected, hstack]; simp only [Frame.expected, htodo]⟩

end Parser

namespace Session

variable {g : Grammar} {x : Session}

theorem Made.incomplete_call {settings : Settings} (hx : x.Made g settings)
    (hopen : ∀ f ∈ x.parser.stack.head?, f.isComplete = false) (c : Call) :
    ∀ f ∈ (x.call c).parser.stack.head?, f.isComplete = false := by
  cases c with
  | reset => exact fun f hf => by cases hf
  | observe t =>
    cases hc : x.parser.commit t with
    | none =>
      obtain ⟨r, events, hcall, -⟩ := call_of_commit_none hx.ready hc
      rw [hcall]
      exact hopen
    | some y =>
      obtain ⟨c, events⟩ := y
      obtain ⟨c', events', -, rfl, -⟩ := exists_takes_of_advance hc
      rw [call_of_commit_some hx.ready hc]
      exact settle_incomplete _ _

/-- **After any calls the innermost frame is not complete.** -/
theorem incomplete_run {settings : List Setting} {p : Parser}
    (hp : Parser.make (some g) settings = .ok p) (calls : List Call) :
    ∀ f ∈ ((start p).run calls).parser.stack.head?, f.isComplete = false := by
  obtain ⟨c, rfl⟩ := Parser.eq_of_make hp
  refine (run_induction (I := fun y => y.Made g c ∧
    ∀ f ∈ y.parser.stack.head?, f.isComplete = false) ⟨made_start, fun f hf => by cases hf⟩
    (fun y call hy => ?_) calls).2
  exact ⟨hy.1.call call, hy.1.incomplete_call hy.2 call⟩

/-- **The representation of stacks.** After any calls the lookahead is empty, the outermost frame is
a root, and every frame stands in the rule of its nonterminal before its end and was entered for an
operand of the element at the position of the frame below it. There is one slot for each position: a
list where the element repeats, which is not empty before the position if an occurrence is required,
and as at the start after it. While a token is observed the stacks are so too but for completeness,
up to the one that the token leads to, and so neither the element at a position nor the list of its
repetitions is ever missing. -/
theorem represented_run {settings : List Setting} {p : Parser}
    (hp : Parser.make (some g) settings = .ok p) {calls : List Call}
    (hx : x = (start p).run calls) :
    x.parser.Represented g ∧
      ∀ t, (∀ stack, x.parser.Handles t stack → Indexed g stack) ∧
        ∀ c events, x.parser.commit t = some (c, events) → x.parser.Handles t c.stack := by
  obtain ⟨c, hmade, hsound⟩ := exists_sound hp calls
  have hopen := incomplete_run hp calls
  rw [← hx] at hmade hsound hopen
  have hE : x.parser.grammar = g := by rw [Parser.grammar, hmade.engine]; rfl
  refine ⟨Parser.represented_of_sound hmade.ready hsound hopen, fun t => ⟨fun stack h => ?_, ?_⟩⟩
  · rw [← hE] at hsound ⊢
    exact indexed_of_sound (h.sound hsound)
  · exact fun c events h => Parser.handles_of_commit h

/-- After `(x`, with a comma refused on the way, a comma is offered to a new frame on top of two. -/
theorem represented_run_nested : ∃ p x, Parser.make (some nestedLists) [.predict] = .ok p ∧
    x = (start p).run [.observe ⟨"(", .null⟩, .observe ⟨",", .null⟩, .observe ⟨"x", .null⟩] ∧
    x.parser.Represented nestedLists ∧
    x.parser.stack.map (fun f => (f.lhs, f.position)) = [("items", 1), ("root", 1)] ∧
    Indexed nestedLists (.start "more" [.symbol ",", .symbol "item"] :: x.parser.stack) := by
  obtain ⟨hx, hhandled⟩ := @represented_run nestedLists _ [.predict] _ rfl
    [.observe ⟨"(", .null⟩, .observe ⟨",", .null⟩, .observe ⟨"x", .null⟩] rfl
  refine ⟨_, _, rfl, rfl, hx, rfl, (hhandled ⟨",", .null⟩).1 _ (.trial .first (.head ?_ .refl))⟩
  exact .enter rfl (List.mem_singleton_self "more") rfl

end Session

end PushParser
