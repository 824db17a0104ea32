import PushParser.Proofs.FirstSets
import PushParser.Proofs.Rejection
import PushParser.Proofs.Termination

/-!
# Prediction

A parser that predicts tries the options of a choice in another order: those whose first set holds
the tag of the token come before the others. So an option that is known to take the token is not
kept from it by one that matches nothing, and no option is left out.

* `trialOrder_of_heads`, `trialOrder_of_not_heads`: the option tried first can take the token, or
  the order is the one without prediction;
* `Attempt.Shifts`, **`step_shifts`**: a nonterminal whose first set holds the tag takes the token;
* `Attempt.Outdone`, **`step_outdone`**, **`trial_outdone`**: with prediction the token is taken, or
  the outcome is the one without it;
* **`Parser.first_accepted`**, **`Parser.accepted_with_prediction`**: what this means for parsers.
-/

namespace PushParser

variable {α : Type} {g : Grammar} {tag : Symbol}

open Grammar

/-! ## Options in order -/

theorem trialOrder_engine_true (options : List Symbol) :
    (g.engine true).trialOrder tag options =
      (numberFrom 0 options).filter (fun o => g.firstTable.holds tag o.2) ++
        (numberFrom 0 options).filter fun o => !g.firstTable.holds tag o.2 := by
  change (List.partition _ _).1 ++ (List.partition _ _).2 = _
  rw [List.partition_eq_filter_filter]
  rfl

/-- An option that can take the token is tried first, if there is one. -/
theorem trialOrder_of_heads (hg : g.leftRecursion? = none) (options : List Symbol) {s : Symbol}
    (hs : s ∈ options) (h : g.Heads s tag) :
    ∃ i t rest, (g.engine true).trialOrder tag options = (i, t) :: rest ∧ g.Heads t tag := by
  obtain ⟨i, hi⟩ := mem_numberFrom (n := 0) hs
  have hfits : (i, s) ∈ (numberFrom 0 options).filter fun o => g.firstTable.holds tag o.2 :=
    List.mem_filter.2 ⟨hi, (holds_firstTable_iff hg).2 h⟩
  obtain ⟨⟨j, t⟩, fits, hcons⟩ := List.exists_cons_of_ne_nil (List.ne_nil_of_mem hfits)
  have ht : (j, t) ∈ (numberFrom 0 options).filter fun o => g.firstTable.holds tag o.2 := by
    rw [hcons]
    exact List.mem_cons_self
  have hheads : g.Heads t tag := (holds_firstTable_iff hg).1 (List.mem_filter.1 ht).2
  rw [trialOrder_engine_true, hcons]
  exact ⟨j, t, _, List.cons_append, hheads⟩

theorem trialOrder_of_not_heads (hg : g.leftRecursion? = none) (options : List Symbol)
    (h : ∀ s ∈ options, ¬ g.Heads s tag) :
    (g.engine true).trialOrder tag options = (g.engine false).trialOrder tag options := by
  have hnone : ∀ o ∈ numberFrom 0 options, g.firstTable.holds tag o.2 = false := by
    intro o ho
    have hmem : o.2 ∈ options := List.mem_of_getElem? (getElem?_of_mem_numberFrom ho).2
    exact Bool.eq_false_iff.2 fun hholds => h o.2 hmem ((holds_firstTable_iff hg).1 hholds)
  rw [trialOrder_engine_true, List.filter_eq_nil_iff.2 fun o ho => by simp [hnone o ho],
    List.filter_eq_self.2 fun o ho => by simp [hnone o ho]]
  rfl

/-! ## Taking the token -/

section Shifts

/-- The frame takes the token, if the fuel lasts. -/
def Attempt.Shifts : Attempt α → Prop
  | .shifted _ _ | .exhausted => True
  | .completed _ | .failed => False

/-- The symbol takes the token, if the fuel lasts. -/
def Meeting.Shifts : Meeting α → Prop
  | .here | .inside _ _ | .exhausted => True
  | .nothing _ | .refused => False

/-- The element takes the token, if the fuel lasts. -/
def Move.Shifts : Move α → Prop
  | .shift _ | .descend _ _ | .exhausted => True
  | .fill _ | .skip _ | .fail => False

theorem Meeting.Shifts.move {m : Meeting α} (h : m.Shifts) {here : Tape} {mark : Tape → Tape}
    {nothing : Tape → Move α} {refused : Move α} :
    (m.move here mark nothing refused).Shifts := by
  cases m with
  | here | inside | exhausted => trivial
  | nothing | refused => exact h.elim

theorem meet_shifts {E : Engine} {enter : Frame α → Attempt α} {s : Symbol}
    (h : E.grammar.Heads s tag) (henter : ∀ r, E.rule? s = some r → (enter (.start s r)).Shifts) :
    (meet E enter tag s).Shifts := by
  unfold meet
  cases hr : E.rule? s with
  | none =>
    have hs : s = tag := ((heads_terminal_iff hr).1 h).symm
    dsimp only
    rw [if_pos hs]
    trivial
  | some r =>
    have hs := henter r hr
    dsimp only
    cases he : enter (.start s r) with
    | shifted | exhausted => trivial
    | completed | failed =>
      rw [he] at hs
      exact hs.elim

variable {meeting : Symbol → Meeting α}

/-- **An element with an operand that can take the token takes it.** -/
theorem resolve_shifts (hg : g.leftRecursion? = none)
    (hmeet : ∀ s, g.Heads s tag → (meeting s).Shifts) {e : Element} {s : Symbol}
    (hs : s ∈ e.operands) (h : g.Heads s tag) (first : Bool) :
    (resolve (g.engine true) tag meeting first e).Shifts := by
  cases e with
  | choice options =>
    obtain ⟨i, t, rest, horder, ht⟩ := trialOrder_of_heads hg options hs h
    rw [resolve, horder, choose_cons]
    exact (hmeet t ht).move
  | symbol x =>
    obtain rfl := List.mem_singleton.1 hs
    rw [resolve_symbol]
    exact (hmeet s h).move
  | quantified q x =>
    obtain rfl := List.mem_singleton.1 hs
    rw [resolve_quantified]
    exact (hmeet s h).move

theorem step_of_resolve_shifts {E : Engine} {blank : α} {fuel : Nat} {f : Frame α}
    {below : List (Frame α)} {e : Element} {es : Rule} (htodo : f.todo = e :: es)
    (h : (resolve E tag (meet E (fun k => step E blank tag fuel k (f :: below)) tag)
      f.isBare e).Shifts) : (step E blank tag (fuel + 1) f below).Shifts := by
  rw [step, htodo]
  dsimp only
  cases hres : resolve E tag (meet E (fun k => step E blank tag fuel k (f :: below)) tag)
      f.isBare e with
  | shift | descend | exhausted => trivial
  | fill | skip | fail =>
    rw [hres] at h
    exact h.elim

/-- **A nonterminal whose first set holds the tag takes the token**, on top of any frames. -/
theorem step_shifts (hg : g.leftRecursion? = none) (blank : α) {s : Symbol} {r : Rule}
    (hr : g.rule? s = some r) (h : g.Heads s tag) (fuel : Nat) (below : List (Frame α)) :
    (step (g.engine true) blank tag fuel (.start s r) below).Shifts := by
  induction fuel generalizing s r below with
  | zero => trivial
  | succ fuel ih =>
    cases h with
    | terminal hn => cases hn.symm.trans hr
    | rule hrule ht hheads =>
      cases hr.symm.trans hrule
      refine step_of_resolve_shifts rfl (resolve_shifts hg (fun u hu => ?_) ht hheads _)
      exact meet_shifts hu fun r' hr' => ih hr' hu _

theorem exists_step_eq_shifted (hg : g.leftRecursion? = none) (blank : α) {s t : Symbol} {r : Rule}
    (hr : g.rule? s = some r) (ht : t ∈ g.first s) (below : List (Frame α)) :
    ∃ stack tape, step (g.engine true) blank t (g.engine true).fuel (.start s r) below =
      .shifted stack tape := by
  have hshifts := step_shifts hg blank hr ((mem_first_iff hg).1 ht) (g.engine true).fuel below
  have hlasts : step (g.engine true) blank t (g.engine true).fuel (.start s r) below ≠ .exhausted :=
    step_ne_exhausted hg (Frame.wellFormed_start hr) below
  cases h : step (g.engine true) blank t (g.engine true).fuel (.start s r) below with
  | shifted stack tape => exact ⟨stack, tape, rfl⟩
  | exhausted => exact absurd h hlasts
  | completed | failed =>
    rw [h] at hshifts
    exact hshifts.elim

end Shifts

/-! ## With prediction and without -/

section Outdone

/-- What becomes of a frame without prediction and with it: with it the token is taken, or the
outcome is the same but for the choices made. -/
inductive Attempt.Outdone : Attempt α → Attempt α → Prop
  | shifts {a b : Attempt α} (h : b.Shifts) : Outdone a b
  | completed {tape tape' : Tape} : Outdone (.completed tape) (.completed tape')
  | failed : Outdone .failed .failed
  | exhausted {b : Attempt α} : Outdone .exhausted b

/-- The same for how a symbol meets the token. -/
inductive Meeting.Outdone : Meeting α → Meeting α → Prop
  | shifts {m n : Meeting α} (h : n.Shifts) : Outdone m n
  | nothing {tape tape' : Tape} : Outdone (.nothing tape) (.nothing tape')
  | refused : Outdone .refused .refused
  | exhausted {n : Meeting α} : Outdone .exhausted n

/-- The same for what an element makes of it. -/
inductive Move.Outdone : Move α → Move α → Prop
  | shifts {m n : Move α} (h : n.Shifts) : Outdone m n
  | fill {tape tape' : Tape} : Outdone (.fill tape) (.fill tape')
  | skip {tape tape' : Tape} : Outdone (.skip tape) (.skip tape')
  | fail : Outdone .fail .fail
  | exhausted {n : Move α} : Outdone .exhausted n

theorem Attempt.Shifts.after {a : Attempt α} (h : a.Shifts) (before : Tape) :
    (a.after before).Shifts := by
  cases a with
  | shifted | exhausted => trivial
  | completed | failed => exact h.elim

theorem Attempt.Outdone.after {a b : Attempt α} (h : a.Outdone b) (before before' : Tape) :
    (a.after before).Outdone (b.after before') := by
  cases h with
  | shifts h => exact .shifts (h.after before')
  | completed => exact .completed
  | failed => exact .failed
  | exhausted => exact .exhausted

theorem meet_outdone {enter enter' : Frame α → Attempt α} {s : Symbol}
    (h : ∀ r, g.rule? s = some r → (enter (.start s r)).Outdone (enter' (.start s r))) :
    (meet (g.engine false) enter tag s).Outdone (meet (g.engine true) enter' tag s) := by
  have hrule : ∀ b, (g.engine b).rule? s = g.rule? s := fun _ => rfl
  unfold meet
  rw [hrule, hrule]
  cases hr : g.rule? s with
  | none =>
    dsimp only
    split
    · exact .shifts trivial
    · exact .refused
  | some r =>
    have hs := h r hr
    dsimp only
    generalize enter (.start s r) = a at hs
    generalize enter' (.start s r) = b at hs
    cases hs with
    | completed => exact .nothing
    | failed => exact .refused
    | exhausted => exact .exhausted
    | shifts hb =>
      cases b with
      | shifted | exhausted => exact .shifts trivial
      | completed | failed => exact hb.elim

theorem Meeting.Outdone.move {m n : Meeting α} (h : m.Outdone n) {here : Tape}
    {mark : Tape → Tape} {nothing nothing' : Tape → Move α} {refused refused' : Move α}
    (hnothing : ∀ tape tape', (nothing tape).Outdone (nothing' tape'))
    (hrefused : refused.Outdone refused') :
    (m.move here mark nothing refused).Outdone (n.move here mark nothing' refused') := by
  cases h with
  | nothing => exact hnothing _ _
  | refused => exact hrefused
  | exhausted => exact .exhausted
  | shifts hn => exact .shifts hn.move

variable {meeting meeting' : Symbol → Meeting α}

theorem choose_outdone (h : ∀ s, (meeting s).Outdone (meeting' s)) (os : List (Nat × Symbol)) :
    (choose meeting os).Outdone (choose meeting' os) := by
  induction os with
  | nil => exact .fail
  | cons o os ih =>
    rw [choose_cons, choose_cons]
    exact (h o.2).move (fun _ _ => .fill) ih

theorem passOver_outdone (q : Quantifier) (first : Bool) (s : Symbol) :
    (passOver (g.engine false) q first s : Move α).Outdone
      (passOver (g.engine true) q first s) := by
  unfold passOver
  split
  · exact .fail
  · exact .skip

theorem resolve_outdone (hg : g.leftRecursion? = none)
    (h : ∀ s, (meeting s).Outdone (meeting' s))
    (hshifts : ∀ s, g.Heads s tag → (meeting' s).Shifts) (first : Bool) (e : Element) :
    (resolve (g.engine false) tag meeting first e).Outdone
      (resolve (g.engine true) tag meeting' first e) := by
  cases e with
  | choice options =>
    -- an option that can take the token is tried first, or the order does not change
    by_cases hheads : ∃ s ∈ options, g.Heads s tag
    · obtain ⟨s, hs, hs'⟩ := hheads
      exact .shifts (resolve_shifts hg hshifts (e := .choice options) hs hs' first)
    · have horder := trialOrder_of_not_heads hg options fun s hs hs' => hheads ⟨s, hs, hs'⟩
      rw [resolve, resolve, horder]
      exact choose_outdone h _
  | symbol s =>
    rw [resolve_symbol, resolve_symbol]
    exact (h s).move (fun _ _ => .fill) .fail
  | quantified q s =>
    rw [resolve_quantified, resolve_quantified]
    refine (h s).move (fun _ _ => ?_) (passOver_outdone q first s)
    split
    · exact .fill
    · exact passOver_outdone q first s

/-- **One frame with prediction and without.** The frames that come next are the same, as long as
the token is not taken. -/
theorem step_outdone (hg : g.leftRecursion? = none) (blank : α) (tag : Symbol) (fuel : Nat)
    (f : Frame α) (below : List (Frame α)) :
    (step (g.engine false) blank tag fuel f below).Outdone
      (step (g.engine true) blank tag fuel f below) := by
  induction fuel generalizing f below with
  | zero => exact .exhausted
  | succ fuel ih =>
    cases htodo : f.todo with
    | nil =>
      rw [step, step, htodo]
      exact .completed
    | cons e es =>
      have hmeet : ∀ s,
          (meet (g.engine false) (fun k => step (g.engine false) blank tag fuel k (f :: below))
            tag s).Outdone
          (meet (g.engine true) (fun k => step (g.engine true) blank tag fuel k (f :: below))
            tag s) := fun s => meet_outdone fun r _ => ih (.start s r) (f :: below)
      have hmove := resolve_outdone hg hmeet
        (fun s hs => meet_shifts hs fun r hr => step_shifts hg blank hr hs fuel (f :: below))
        f.isBare e
      rw [step, step, htodo]
      dsimp only
      generalize resolve (g.engine false) tag _ _ _ = m at hmove
      generalize resolve (g.engine true) tag _ _ _ = n at hmove
      cases hmove with
      | fill => exact (ih _ below).after _ _
      | skip => exact (ih _ below).after _ _
      | fail => exact .failed
      | exhausted => exact .exhausted
      | shifts hn =>
        cases n with
        | shift | descend | exhausted => exact .shifts trivial
        | fill | skip | fail => exact hn.elim

end Outdone

/-! ## Stacks -/

section Stacks

/-- The stack takes the token, if the fuel lasts. -/
def Verdict.Shifts : Verdict α → Prop
  | .accepted _ _ | .exhausted => True
  | .refused => False

/-- What becomes of a stack without prediction and with it. -/
inductive Verdict.Outdone : Verdict α → Verdict α → Prop
  | shifts {v w : Verdict α} (h : w.Shifts) : Outdone v w
  | refused : Outdone .refused .refused
  | exhausted {w : Verdict α} : Outdone .exhausted w

theorem Verdict.Shifts.after {v : Verdict α} (h : v.Shifts) (before : Tape) :
    (v.after before).Shifts := by
  cases v with
  | accepted | exhausted => trivial
  | refused => exact h.elim

theorem Verdict.Outdone.after {v w : Verdict α} (h : v.Outdone w) (before before' : Tape) :
    (v.after before).Outdone (w.after before') := by
  cases h with
  | shifts h => exact .shifts (h.after before')
  | refused => exact .refused
  | exhausted => exact .exhausted

/-- What becomes of a stack, given what becomes of its innermost frame and of the stack without
it. -/
def Attempt.verdict (reduced : Tape → Verdict α) : Attempt α → Verdict α
  | .shifted stack tape => .accepted stack tape
  | .completed tape => reduced tape
  | .failed => .refused
  | .exhausted => .exhausted

section Frames

variable (E : Engine) (blank : α) (tag : Symbol)

theorem trialFresh_of_rule {r : Rule} (hr : E.rule? rootName = some r) :
    trialFresh E blank tag =
      (step E blank tag E.fuel (.start rootName r) []).verdict fun _ => .refused := by
  rw [trialFresh, hr]
  dsimp only
  cases step E blank tag E.fuel (.start rootName r) [] with
  | shifted | completed | failed | exhausted => rfl

theorem trialFrom_nil (f : Frame α) :
    trialFrom E blank tag f [] = (step E blank tag E.fuel f []).verdict fun tape =>
      (trialFresh E blank tag).after tape := by
  rw [trialFrom]
  cases step E blank tag E.fuel f [] with
  | shifted | completed | failed | exhausted => rfl

theorem trialFrom_cons (f k : Frame α) (below : List (Frame α)) :
    trialFrom E blank tag f (k :: below) = (step E blank tag E.fuel f (k :: below)).verdict
      fun tape => (trialFrom E blank tag (k.put blank) below).after tape := by
  rw [trialFrom]
  cases step E blank tag E.fuel f (k :: below) with
  | shifted | completed | failed | exhausted => rfl

end Frames

theorem Attempt.Outdone.verdict {a b : Attempt α} (h : a.Outdone b)
    {reduced reduced' : Tape → Verdict α}
    (hreduced : ∀ tape tape', (reduced tape).Outdone (reduced' tape')) :
    (a.verdict reduced).Outdone (b.verdict reduced') := by
  cases h with
  | completed => exact hreduced _ _
  | failed => exact .refused
  | exhausted => exact .exhausted
  | shifts hb =>
    cases b with
    | shifted | exhausted => exact .shifts trivial
    | completed | failed => exact hb.elim

theorem trialFresh_outdone (hg : g.leftRecursion? = none) (blank : α) (tag : Symbol) :
    (trialFresh (g.engine false) blank tag).Outdone (trialFresh (g.engine true) blank tag) := by
  cases hr : g.rule? rootName with
  | none =>
    have hnone : ∀ b, trialFresh (g.engine b) blank tag = .refused := by
      intro b
      rw [trialFresh, show (g.engine b).rule? rootName = none from hr]
    rw [hnone, hnone]
    exact .refused
  | some r =>
    have hrule : ∀ b, (g.engine b).rule? rootName = some r := fun _ => hr
    have hstep := step_outdone hg blank tag g.fuel (.start rootName r) []
    rw [trialFresh_of_rule _ blank tag (hrule false), trialFresh_of_rule _ blank tag (hrule true)]
    exact hstep.verdict fun _ _ => .refused

theorem trialFrom_outdone (hg : g.leftRecursion? = none) (blank : α) (tag : Symbol) (f : Frame α)
    (below : List (Frame α)) :
    (trialFrom (g.engine false) blank tag f below).Outdone
      (trialFrom (g.engine true) blank tag f below) := by
  induction below generalizing f with
  | nil =>
    have hstep := step_outdone hg blank tag g.fuel f []
    rw [trialFrom_nil, trialFrom_nil]
    exact hstep.verdict fun _ _ => (trialFresh_outdone hg blank tag).after _ _
  | cons k below ih =>
    have hstep := step_outdone hg blank tag g.fuel f (k :: below)
    rw [trialFrom_cons, trialFrom_cons]
    exact hstep.verdict fun _ _ => (ih (k.put blank)).after _ _

/-- **One stack with prediction and without.** -/
theorem trial_outdone (hg : g.leftRecursion? = none) (blank : α) (tag : Symbol)
    (stack : List (Frame α)) :
    (trial (g.engine false) blank tag stack).Outdone (trial (g.engine true) blank tag stack) := by
  cases stack with
  | nil => exact trialFresh_outdone hg blank tag
  | cons f below => exact trialFrom_outdone hg blank tag f below

theorem exists_trial_eq_accepted (hg : g.leftRecursion? = none) {blank : α}
    {stack stack' : List (Frame α)} {tape : Tape} (hs : Sound g Anything stack)
    (h : trial (g.engine false) blank tag stack = .accepted stack' tape) :
    ∃ stack₁ tape₁, trial (g.engine true) blank tag stack = .accepted stack₁ tape₁ := by
  have houtdone := trial_outdone hg blank tag stack
  have hlasts : trial (g.engine true) blank tag stack ≠ .exhausted := trial_ne_exhausted hg hs
  rw [h] at houtdone
  cases h₁ : trial (g.engine true) blank tag stack with
  | accepted stack₁ tape₁ => exact ⟨stack₁, tape₁, rfl⟩
  | exhausted => exact absurd h₁ hlasts
  | refused =>
    rw [h₁] at houtdone
    cases houtdone with
    | shifts hrefused => exact hrefused.elim

end Stacks

/-! ## Parsers that predict -/

namespace Settings

variable {c c' : Settings}

theorem predict_setActions {table : List (Symbol × (List Value → Value))}
    (h : c.setActions g table = .ok c') : c'.predict = c.predict := by
  induction table generalizing c with
  | nil =>
    cases h
    rfl
  | cons e table ih =>
    rw [setActions, setAction] at h
    split at h
    · cases h
    · next hc =>
      split at hc
      · cases hc
        have hrest := ih h
        exact hrest
      · cases hc

theorem predict_apply {s : Setting} (h : c.apply g s = .ok c') :
    c'.predict = true ↔ c.predict = true ∨ s = .predict := by
  cases s with
  | action lhs run =>
    rw [apply, setAction] at h
    split at h
    · cases h
      simp
    · cases h
  | actions table =>
    rw [predict_setActions h]
    simp
  | onShift | onReject | onReduce | nesting | predict | trace =>
    cases h
    simp

theorem predict_applyAll {settings : List Setting} (h : c.applyAll g settings = .ok c') :
    c'.predict = true ↔ c.predict = true ∨ .predict ∈ settings := by
  induction settings generalizing c with
  | nil =>
    cases h
    simp
  | cons s settings ih =>
    rw [applyAll] at h
    split at h
    · cases h
    · next hs => rw [ih h, predict_apply hs, List.mem_cons, or_assoc, eq_comm (b := s)]

end Settings

variable {definitions : NameMap Form} {settings : List Setting} {p : Parser}

theorem Session.made_run (hp : Parser.make (some g) settings = .ok p) (calls : List Call) :
    ∃ c : Settings, (c.predict = true ↔ .predict ∈ settings) ∧
      ((start p).run calls).Made g c := by
  rw [Parser.make] at hp
  split at hp
  · cases hp
  · next c hc =>
    cases hp
    refine ⟨c, ?_, run_induction made_start (fun x call hx => hx.call call) calls⟩
    rw [Settings.predict_applyAll hc]
    exact or_iff_right Bool.false_ne_true

namespace Parser

theorem accepted_observe_iff (hp : p.Ready) (t : Token) : (p.observe t).accepted = true ↔
    ∃ stack tape, trial p.engine .null t.tag p.stack = .accepted stack tape := by
  rw [accepted_observe hp, commit, advance_isSome]
  cases trial p.engine Value.null t.tag p.stack with
  | accepted stack tape => simp [Verdict.tape?]
  | refused | exhausted => simp [Verdict.tape?]

/-- **With prediction what is in a first set is taken.** Let the parser predict, and the first set
of a nonterminal hold the tag. Then a frame that is started for the nonterminal on top of any frames
takes the token. So, whenever no frame is in progress, a token whose tag is in the first set of root
is accepted. -/
theorem first_accepted (hg : build definitions = .ok g)
    (hp : make (some g) settings = .ok p) (hpredict : .predict ∈ settings) :
    (∀ (blank : α) {s : Symbol} {r : Rule}, g.rule? s = some r → ∀ t ∈ g.first s, ∀ below,
      ∃ stack tape, step p.engine blank t p.engine.fuel (.start s r) below =
        .shifted stack tape) ∧
    ∀ (calls : List Call) (t : Token), ((Session.start p).run calls).parser.stack = [] →
      t.tag ∈ g.first rootName →
      (((Session.start p).run calls).parser.observe t).accepted = true := by
  have hnone := leftRecursion?_of_build hg
  have hengine : ∀ calls, ((Session.start p).run calls).parser.engine = g.engine true ∧
      ((Session.start p).run calls).parser.Ready := by
    intro calls
    obtain ⟨c, hc, hmade⟩ := Session.made_run hp calls
    rw [hmade.engine, hc.2 hpredict]
    exact ⟨rfl, hmade.ready⟩
  refine ⟨fun blank s r hr t ht below => ?_, fun calls t hstack ht => ?_⟩
  · rw [show p.engine = g.engine true from (hengine []).1]
    exact exists_step_eq_shifted hnone blank hr ht below
  · obtain ⟨r, hr⟩ := exists_rule_root hg
    obtain ⟨stack, tape, hstep⟩ := exists_step_eq_shifted hnone Value.null hr ht []
    obtain ⟨hrun, hready⟩ := hengine calls
    refine (accepted_observe_iff hready t).2 ⟨stack, tape, ?_⟩
    have hrule : (g.engine true).rule? rootName = some r := hr
    rw [hrun, hstack, trial, trialFresh_of_rule _ _ _ hrule, hstep]
    rfl

/-- The definitions of a gap or a word, and then an end. A gap may match nothing and is the first of
the two options. -/
def gappedForms : NameMap Form := .ofList [
  ("root", .sequence [Form.apply .choice ["gap", "word"], .name "end"]),
  ("gap", Form.apply (.quantifier .opt) ["blank"]),
  ("word", .names ["x", "y"])]

/-- The grammar that these definitions come to. -/
def gappedGrammar : Grammar where
  rules := .ofList [
    ("root", [.choice ["gap", "word"], .symbol "end"]),
    ("gap", [.quantified .opt "blank"]),
    ("word", [.symbol "x", .symbol "y"])]
  synthetic := []

theorem build_gappedForms : build gappedForms = .ok gappedGrammar :=
  Eq.refl (Except.ok gappedGrammar)

/-- A parser for it, with or without prediction. -/
def gappedParser (predict : Bool) : Parser :=
  ⟨gappedGrammar.engine predict, { Settings.default with predict }, [], .ofLimit 1, none, none⟩

/-- Without prediction the gap matches nothing and the word is not tried. -/
theorem first_accepted_gapped :
    make (some gappedGrammar) [.predict] = .ok (gappedParser true) ∧
      "x" ∈ gappedGrammar.first rootName ∧
      ((gappedParser false).observe ⟨"x", .null⟩).accepted = false ∧
      ∃ x, x = (Session.start (gappedParser true)).run [.observe ⟨"end", .null⟩] ∧
        x.parser.stack = [] ∧ (x.parser.observe ⟨"x", .null⟩).accepted = true := by
  have hp : make (some gappedGrammar) [.predict] = .ok (gappedParser true) := rfl
  have hfirst : "x" ∈ gappedGrammar.first rootName := by decide +kernel
  have haccepted := (first_accepted (α := Unit) build_gappedForms hp List.mem_cons_self).2
  exact ⟨hp, hfirst, rfl, _, rfl, rfl, haccepted _ _ rfl hfirst⟩

/-- **Prediction never costs a token.** On every stack that a parser reaches, whether it predicts or
not, a parser that predicts accepts the tokens that one that does not predict accepts. -/
theorem accepted_with_prediction (hg : build definitions = .ok g)
    (hp : make (some g) settings = .ok p) {plain predicting : List Setting} {p₀ p₁ : Parser}
    (h₀ : make (some g) plain = .ok p₀) (hplain : .predict ∉ plain)
    (h₁ : make (some g) predicting = .ok p₁) (hpredicting : .predict ∈ predicting)
    (calls : List Call) {stack : List (Frame Value)}
    (hstack : ((Session.start p).run calls).parser.stack = stack) (t : Token)
    (h : ({ p₀ with stack }.observe t).accepted = true) :
    ({ p₁ with stack }.observe t).accepted = true := by
  have hnone := leftRecursion?_of_build hg
  obtain ⟨c₀, hc₀, hmade₀⟩ := Session.made_run h₀ []
  obtain ⟨c₁, hc₁, hmade₁⟩ := Session.made_run h₁ []
  have hengine₀ : p₀.engine = g.engine false := by
    rw [← Bool.eq_false_iff.2 (mt hc₀.1 hplain)]
    exact hmade₀.engine
  have hengine₁ : p₁.engine = g.engine true := by
    rw [← hc₁.2 hpredicting]
    exact hmade₁.engine
  obtain ⟨-, -, hsound⟩ := Session.exists_sound hp calls
  rw [hstack] at hsound
  have hready₀ : Ready { p₀ with stack } := hmade₀.ready
  have hready₁ : Ready { p₁ with stack } := hmade₁.ready
  rw [accepted_observe_iff hready₀, hengine₀] at h
  rw [accepted_observe_iff hready₁, hengine₁]
  obtain ⟨stack₀, tape₀, htrial⟩ := h
  exact exists_trial_eq_accepted hnone hsound htrial

/-- A word begins with prediction only, but goes on without it as well. -/
theorem accepted_with_prediction_gapped : ∃ stack,
    ((Session.start (gappedParser true)).run [.observe ⟨"x", .null⟩]).parser.stack = stack ∧
      ({ gappedParser false with stack }.observe ⟨"y", .null⟩).accepted = true ∧
      ({ gappedParser true with stack }.observe ⟨"y", .null⟩).accepted = true := by
  have h₀ : make (some gappedGrammar) [] = .ok (gappedParser false) := rfl
  have h₁ : make (some gappedGrammar) [.predict] = .ok (gappedParser true) := rfl
  exact ⟨_, rfl, rfl, accepted_with_prediction build_gappedForms h₁ h₀ List.not_mem_nil h₁
    List.mem_cons_self _ rfl _ rfl⟩

end Parser

end PushParser
