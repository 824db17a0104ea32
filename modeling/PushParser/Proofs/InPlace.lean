import PushParser.Proofs.Rejection
import PushParser.Proofs.SlotFrames

/-!
# The search in place

A trial says which stack and which choices a token leads to. The machine finds them on one stack and
one tape that it cuts back to where an occurrence or an option began whenever that comes to nothing.
Under the frames and the choices that are cut off the others are as they were, so the machine is
left with the stack and the tape of the trial.

* `Machine.Over`: what lies under what was pushed and written;
* **`Machine.Does`**, **`Machine.does_step`**: one frame, with `tries_occurrence` and
  `moves_tryOptions` for what is tried and undone;
* **`Machine.decides_offer`**: a stack;
* **`Session.offer_stored`**: what a parser decides about a token.
-/

namespace PushParser

variable {α : Type}

/-! ## What is tried and undone -/

namespace Machine

open List (Forall₂)

variable {E : Engine} {t : Token} {F : SlotFrame Value} {low : List (SlotFrame Value)}
  {before : Tape}

/-- The frames `low` and the choices `before` are there, under what was pushed and written later. -/
structure Over (m : Machine) (low : List (SlotFrame Value)) (before : Tape) : Prop where
  stack : low <:+ m.stack
  tape : before <+: m.tape

theorem Over.refl : (⟨low, before⟩ : Machine).Over low before :=
  ⟨List.suffix_rfl, List.prefix_rfl⟩

theorem Over.cutStack_eq {m : Machine} (h : m.Over low before) :
    m.cutStack low.length = ⟨low, m.tape⟩ := by
  rw [cutStack, ← List.suffix_iff_eq_drop.1 h.stack]

theorem Over.cutTape_eq {m : Machine} (h : m.Over low before) :
    m.cutTape before.length = ⟨m.stack, before⟩ := by
  rw [cutTape, ← List.prefix_iff_eq_take.1 h.tape]

/-- **What is undone**: whatever was pushed and written since, the machine is back where the
occurrence began, with a zero for the choice. -/
theorem Over.undo_eq {m : Machine} {n : Nat} (h : m.Over low (before ++ [n])) :
    ((m.cutStack low.length).cutTape before.length).write 0 = ⟨low, before ++ [0]⟩ := by
  have hbefore : (⟨low, m.tape⟩ : Machine).Over low before :=
    ⟨List.suffix_rfl, (List.prefix_append _ _).trans h.tape⟩
  rw [h.cutStack_eq, hbefore.cutTape_eq]
  rfl

/-- **The machine does what the attempt says.** The frames `low` lie below the one that is run, and
the tape was `before`. -/
inductive Does (low : List (SlotFrame Value)) (before : Tape) : Attempt α → Machine.Result → Prop
  | shifted {stack : List (Frame α)} {stored : List (SlotFrame Value)} {tape : Tape}
      (h : Forall₂ SlotFrame.Counts stored stack) :
      Does low before (.shifted stack tape) (some (.shifted, ⟨stored, before ++ tape⟩))
  | completed {G : SlotFrame Value} {tape after : Tape} (htape : after = before ++ tape) :
      Does low before (.completed tape) (some (.completed, ⟨G :: low, after⟩))
  | failed {m : Machine} (h : m.Over low before) : Does low before .failed (some (.failed, m))
  | exhausted : Does low before .exhausted none

theorem Does.after {tape : Tape} {x : Attempt α} {y : Machine.Result}
    (h : Does low (before ++ tape) x y) : Does low before (x.after tape) y := by
  cases h with
  | shifted h =>
    rw [List.append_assoc]
    exact .shifted h
  | completed htape => exact .completed (by rw [htape, List.append_assoc])
  | failed h => exact .failed ⟨h.stack, (List.prefix_append _ _).trans h.tape⟩
  | exhausted => exact .exhausted

/-- The machine does what the meeting of a symbol says, in the frame `F`. -/
inductive Meets (t : Token) (F : SlotFrame Value) (low : List (SlotFrame Value)) (before : Tape) :
    Meeting α → Machine.Result → Prop
  | here : Meets t F low before .here (some (.shifted, ⟨F.put (.ofToken t) :: low, before⟩))
  | inside {stack : List (Frame α)} {stored : List (SlotFrame Value)} {tape : Tape}
      (h : Forall₂ SlotFrame.Counts stored stack) :
      Meets t F low before (.inside stack tape) (some (.shifted, ⟨stored, before ++ tape⟩))
  | nothing {tape : Tape} :
      Meets t F low before (.nothing tape) (some (.advanced, ⟨F.put .null :: low, before ++ tape⟩))
  | refused {m : Machine} (h : m.Over (F :: low) before) :
      Meets t F low before .refused (some (.failed, m))
  | exhausted : Meets t F low before .exhausted none

/-- The machine does what the meeting of a quantified symbol says, in the frame `F`. If it comes to
nothing that is accepted, `zero` is all that is written. -/
inductive Tries (t : Token) (F : SlotFrame Value) (low : List (SlotFrame Value))
    (before zero : Tape) (acceptEmpty : Bool) : Meeting α → Machine.Result → Prop
  | here : Tries t F low before zero acceptEmpty .here
      (some (.shifted, ⟨F.put (.ofToken t) :: low, before⟩))
  | inside {stack : List (Frame α)} {stored : List (SlotFrame Value)} {tape : Tape}
      (h : Forall₂ SlotFrame.Counts stored stack) :
      Tries t F low before zero acceptEmpty (.inside stack tape)
        (some (.shifted, ⟨stored, before ++ 1 :: tape⟩))
  | kept {tape : Tape} (haccept : acceptEmpty = true) :
      Tries t F low before zero acceptEmpty (.nothing tape)
        (some (.advanced, ⟨F.put .null :: low, before ++ 1 :: tape⟩))
  | undone {x : Meeting α} {after : Tape}
      (hx : x = .refused ∨ ∃ tape, x = .nothing tape ∧ acceptEmpty = false)
      (htape : after = before ++ zero) :
      Tries t F low before zero acceptEmpty x (some (.failed, ⟨F :: low, after⟩))
  | exhausted : Tries t F low before zero acceptEmpty .exhausted none

/-- The machine does what the move of an element says, in the frame `F`. -/
inductive Moves (t : Token) (e : Element) (F : SlotFrame Value) (low : List (SlotFrame Value))
    (before : Tape) : Move α → Machine.Result → Prop
  | shift {tape after : Tape} (htape : after = before ++ tape) :
      Moves t e F low before (.shift tape) (some (.shifted, ⟨F.put (.ofToken t) :: low, after⟩))
  | descend {stack : List (Frame α)} {stored : List (SlotFrame Value)} {tape : Tape}
      (h : Forall₂ SlotFrame.Counts stored stack) :
      Moves t e F low before (.descend stack tape) (some (.shifted, ⟨stored, before ++ tape⟩))
  | fill {tape : Tape} :
      Moves t e F low before (.fill tape)
        (some (.advanced, ⟨F.put .null :: low, before ++ tape⟩))
  | skip {q : Quantifier} {s : Symbol} {tape : Tape} (he : e = .quantified q s) :
      Moves t e F low before (.skip tape) (some (.advanced, ⟨F.skip q :: low, before ++ tape⟩))
  | fail {m : Machine} (h : m.Over (F :: low) before) :
      Moves t e F low before .fail (some (.failed, m))
  | exhausted : Moves t e F low before .exhausted none

section Elements

variable {inner : Machine → Machine.Result} {enter : Frame α → Attempt α}
  (hinner : ∀ s r before, E.rule? s = some r →
    Does (F :: low) before (enter (.start s r)) (inner ⟨.start s r :: F :: low, before⟩))

include hinner

theorem meets_symbol (s : Symbol) (before : Tape) :
    Meets t F low before (meet E enter t.tag s) (symbol E t inner s ⟨F :: low, before⟩) := by
  rw [meet, symbol, isNonterminal_eq]
  cases hr : E.rule? s with
  | none =>
    simp only [Option.isSome_none, Bool.false_eq_true, if_false]
    split
    · exact .here
    · exact .refused .refl
  | some r =>
    have hdoes := hinner s r before hr
    simp only [Option.isSome_some, if_true, Machine.enter, push, hr, Option.getD_some]
    generalize enter (.start s r) = x at hdoes
    generalize inner ⟨.start s r :: F :: low, before⟩ = y at hdoes
    cases hdoes with
    | shifted h => exact .inside h
    | completed htape =>
      rw [htape]
      exact .nothing
    | failed h => exact .refused h
    | exhausted => exact .exhausted

/-- **What comes to nothing is undone**, and a zero is written for it. -/
theorem tries_occurrence (s : Symbol) (acceptEmpty : Bool) (before : Tape) :
    Tries t F low before (if E.grammar.isNonterminal s then [0] else []) acceptEmpty
      (meet E enter t.tag s) (occurrence E t inner s acceptEmpty ⟨F :: low, before⟩) := by
  rw [meet, occurrence, isNonterminal_eq]
  cases hr : E.rule? s with
  | none =>
    simp only [Option.isSome_none, Bool.false_eq_true, if_false]
    split
    · exact .here
    · exact .undone (.inl rfl) (List.append_nil before).symm
  | some r =>
    have hdoes := hinner s r (before ++ [1]) hr
    have hbegin : ((⟨F :: low, before⟩ : Machine).write 1).push E s =
        ⟨.start s r :: F :: low, before ++ [1]⟩ := by
      rw [push, hr]
      rfl
    simp only [Option.isSome_some, if_true, speculate, hbegin]
    generalize enter (.start s r) = x at hdoes
    generalize inner ⟨.start s r :: F :: low, before ++ [1]⟩ = y at hdoes
    cases hdoes with
    | shifted h =>
      rw [List.append_assoc]
      exact .inside h
    | @completed G tape _ htape =>
      rw [htape]
      cases acceptEmpty with
      | true =>
        rw [List.append_assoc]
        exact .kept rfl
      | false =>
        have hover : (⟨G :: F :: low, before ++ [1] ++ tape⟩ : Machine).Over (F :: low)
            (before ++ [1]) := ⟨List.suffix_cons _ _, List.prefix_append _ _⟩
        simp only [hover.undo_eq]
        exact .undone (.inr ⟨tape, rfl, rfl⟩) rfl
    | failed h =>
      simp only [h.undo_eq]
      exact .undone (.inl rfl) rfl
    | exhausted => exact .exhausted

/-- The options are tried one after the other, each from the same stack and tape. -/
theorem moves_tryOptions {e : Element} (os : List (Nat × Symbol)) (i : Nat) (rest : Tape) :
    Moves t e F low before (choose (meet E enter t.tag) os)
      (tryOptions E t inner before.length os ⟨F :: low, before ++ i :: rest⟩) := by
  induction os generalizing i rest with
  | nil =>
    have hover : (⟨F :: low, before ++ i :: rest⟩ : Machine).Over (F :: low) before :=
      ⟨List.suffix_rfl, List.prefix_append _ _⟩
    rw [choose, tryOptions, hover.cutTape_eq]
    exact .fail .refl
  | cons o os ih =>
    obtain ⟨n, s⟩ := o
    have htape : ((before ++ i :: rest).take (before.length + 1)).set before.length n =
        before ++ [n] := by
      rw [List.take_length_add_append]
      simp
    have hmeets := meets_symbol hinner (t := t) s (before ++ [n])
    rw [choose, tryOptions]
    simp only [htape]
    generalize meet E enter t.tag s = x at hmeets
    generalize symbol E t inner s ⟨F :: low, before ++ [n]⟩ = y at hmeets
    cases hmeets with
    | here => exact .shift rfl
    | inside h =>
      rw [List.append_assoc]
      exact .descend h
    | nothing =>
      rw [List.append_assoc]
      exact .fill
    | refused h =>
      obtain ⟨rest', hrest⟩ := h.tape
      simp only [h.cutStack_eq, ← hrest, List.append_assoc]
      exact ih n rest'
    | exhausted => exact .exhausted

variable {f : Frame α} (hf : F.Counts f)

omit hinner in
include hf in
/-- A quantified symbol is tried, and passed over if it does not come to anything and may be. -/
theorem element_quantified (q : Quantifier) (s : Symbol) :
    element E t inner (.quantified q s) ⟨F :: low, before⟩ =
      match occurrence E t inner s (q.admitsEmpty f.isBare) ⟨F :: low, before⟩ with
      | some (.failed, m) =>
        if q.demands f.isBare then some (.failed, m) else some (.advanced, m.modifyTop (·.skip q))
      | x => x := by
  have hbare : (F.repetitions < 1) = (f.isBare = true) := by
    rw [hf.repetitions, Frame.isBare, List.isEmpty_iff, Nat.lt_one_iff, List.length_eq_zero_iff]
  cases q with
  | star => rfl
  | plus =>
    simp only [element, repetition, List.head?_cons, Option.elim_some, hbare, Bool.decide_eq_true]
    rfl
  | opt => rfl

omit hinner in
/-- What is left of an occurrence that came to nothing is passed over, or the element fails. -/
theorem moves_passOver (q : Quantifier) (s : Symbol) (bare : Bool) {after : Tape}
    (hafter : after = before ++ if E.grammar.isNonterminal s then [0] else []) :
    Moves t (.quantified q s) F low before (passOver E q bare s : Move α)
      (if q.demands bare then some (.failed, ⟨F :: low, after⟩)
      else some (.advanced, ⟨F.skip q :: low, after⟩)) := by
  rw [passOver, hafter]
  split
  · exact .fail ⟨List.suffix_rfl, List.prefix_append _ _⟩
  · exact .skip rfl

include hf

/-- **An element is met as in a trial.** -/
theorem moves_element (e : Element) :
    Moves t e F low before (resolve E t.tag (meet E enter t.tag) f.isBare e)
      (element E t inner e ⟨F :: low, before⟩) := by
  cases e with
  | symbol s =>
    have hmeets := meets_symbol hinner (t := t) s before
    rw [resolve, element]
    generalize meet E enter t.tag s = x at hmeets
    generalize symbol E t inner s ⟨F :: low, before⟩ = y at hmeets
    cases hmeets with
    | here => exact .shift (List.append_nil before).symm
    | inside h => exact .descend h
    | nothing => exact .fill
    | refused h => exact .fail h
    | exhausted => exact .exhausted
  | quantified q s =>
    have htries := tries_occurrence hinner (t := t) s (q.admitsEmpty f.isBare) before
    rw [resolve, element_quantified hf]
    generalize meet E enter t.tag s = x at htries
    generalize occurrence E t inner s (q.admitsEmpty f.isBare) ⟨F :: low, before⟩ = y at htries
    cases htries with
    | here => exact .shift (List.append_nil before).symm
    | inside h => exact .descend h
    | kept haccept =>
      simp only [haccept, if_true]
      exact .fill
    | undone hx htape =>
      obtain rfl | ⟨tape, rfl, haccept⟩ := hx
      · exact moves_passOver q s f.isBare htape
      · simp only [haccept, Bool.false_eq_true, if_false]
        exact moves_passOver q s f.isBare htape
    | exhausted => exact .exhausted
  | choice options => exact moves_tryOptions hinner (E.trialOrder t.tag options) 0 []

end Elements

/-! ## Runs -/

section Runs

variable (blank : α)

/-- **The machine runs a frame as a trial does.** -/
theorem does_step (fuel : Nat) {f : Frame α} {below : List (Frame α)} (hf : F.Counts f)
    (hlow : Forall₂ SlotFrame.Counts low below) (before : Tape) :
    Does low before (PushParser.step E blank t.tag fuel f below)
      (step E t fuel ⟨F :: low, before⟩) := by
  induction fuel generalizing F f low below before with
  | zero => exact .exhausted
  | succ fuel ih =>
    rw [PushParser.step, step]
    cases htodo : f.todo with
    | nil =>
      have hcomplete : F.isComplete = true := by rw [hf.isComplete_eq, Frame.isComplete, htodo]; rfl
      simp only [hcomplete, if_true]
      exact .completed (List.append_nil before).symm
    | cons e es =>
      have hcomplete : F.isComplete = false := by
        rw [hf.isComplete_eq, Frame.isComplete, htodo]
        rfl
      have he : F.element? = some e := by rw [hf.element?_eq, htodo]; rfl
      simp only [hcomplete, he, Bool.false_eq_true, if_false]
      have hmoves : Moves t e F low before
          (resolve E t.tag
            (meet E (fun h => PushParser.step E blank t.tag fuel h (f :: below)) t.tag) f.isBare e)
          (element E t (step E t fuel) e ⟨F :: low, before⟩) :=
        moves_element (fun s r before _ => ih (SlotFrame.counts_start s r) (.cons hf hlow) before)
          hf e
      generalize resolve E t.tag _ f.isBare e = x at hmoves
      generalize element E t _ e ⟨F :: low, before⟩ = y at hmoves
      cases hmoves with
      | shift htape =>
        rw [htape]
        exact .shifted (.cons (hf.put _ _) hlow)
      | descend h => exact .shifted h
      | fill => exact (ih (hf.put _ _) hlow _).after
      | skip he =>
        rw [he] at htodo
        exact (ih (hf.skip htodo) hlow _).after
      | fail h => exact .failed ⟨(List.suffix_cons F low).trans h.stack, h.tape⟩
      | exhausted => exact .exhausted

/-- **The machine decides as the trial of a stack does.** -/
inductive Decides (before : Tape) : Verdict α → Machine.Result → Prop
  | accepted {stack : List (Frame α)} {stored : List (SlotFrame Value)} {tape : Tape}
      (h : Forall₂ SlotFrame.Counts stored stack) :
      Decides before (.accepted stack tape) (some (.shifted, ⟨stored, before ++ tape⟩))
  | refused {m : Machine} : Decides before .refused (some (.failed, m))
  | exhausted : Decides before .exhausted none

theorem Decides.after {tape : Tape} {x : Verdict α} {y : Machine.Result}
    (h : Decides (before ++ tape) x y) : Decides before (x.after tape) y := by
  cases h with
  | accepted h =>
    rw [List.append_assoc]
    exact .accepted h
  | refused => exact .refused
  | exhausted => exact .exhausted

theorem decides_fresh (rounds : Nat) (before : Tape) :
    Decides before (trialFresh E blank t.tag)
      (run E t (rounds + 1) true ((⟨[], before⟩ : Machine).push E rootName)) := by
  rw [trialFresh, run, push]
  cases hr : E.rule? rootName with
  | none =>
    -- without a rule the root is complete at once
    obtain ⟨fuel, hfuel⟩ : ∃ fuel, E.fuel = fuel + 1 := by
      refine Nat.exists_eq_succ_of_ne_zero ?_
      rw [E.fuel_eq, Grammar.fuel]
      exact Nat.ne_of_gt (Nat.mul_pos (Nat.succ_pos _) (Nat.succ_pos _))
    rw [hfuel]
    exact .refused
  | some r =>
    have hdoes := does_step (E := E) (t := t) blank E.fuel
      (SlotFrame.counts_start (α := α) (β := Value) rootName r) .nil before
    simp only [Option.getD_some]
    generalize PushParser.step E blank t.tag E.fuel (.start rootName r) [] = x at hdoes
    generalize step E t E.fuel ⟨[.start rootName r], before⟩ = y at hdoes
    cases hdoes with
    | shifted h => exact .accepted h
    | completed htape => exact .refused
    | failed h => exact .refused
    | exhausted => exact .exhausted

theorem decides_from {f : Frame α} {below : List (Frame α)} (hf : F.Counts f)
    (hlow : Forall₂ SlotFrame.Counts low below) (before : Tape) :
    Decides before (trialFrom E blank t.tag f below)
      (run E t (low.length + 2) false ⟨F :: low, before⟩) := by
  induction hlow generalizing F f before with
  | nil =>
    have hdoes := does_step (E := E) (t := t) blank E.fuel hf .nil before
    rw [trialFrom, run]
    generalize PushParser.step E blank t.tag E.fuel f [] = x at hdoes
    generalize step E t E.fuel ⟨[F], before⟩ = y at hdoes
    cases hdoes with
    | shifted h => exact .accepted h
    | completed htape =>
      rw [htape]
      exact (decides_fresh blank 0 _).after
    | failed h => exact .refused
    | exhausted => exact .exhausted
  | @cons K k low below hk hlow ih =>
    have hdoes := does_step (E := E) (t := t) blank E.fuel hf (.cons hk hlow) before
    rw [trialFrom, run]
    generalize PushParser.step E blank t.tag E.fuel f (k :: below) = x at hdoes
    generalize step E t E.fuel ⟨F :: K :: low, before⟩ = y at hdoes
    cases hdoes with
    | shifted h => exact .accepted h
    | completed htape =>
      rw [htape]
      exact (ih (hk.put .null blank) _).after
    | failed h => exact .refused
    | exhausted => exact .exhausted

/-- **Offered to copies of the frames in progress, a token is decided as by a trial.** -/
theorem decides_offer {stored : List (SlotFrame Value)} {stack : List (Frame α)}
    (h : Forall₂ SlotFrame.Counts (stored.map SlotFrame.copy) stack) :
    Decides [] (trial E blank t.tag stack) (offer E t stored) := by
  cases stored with
  | nil =>
    cases h
    exact decides_fresh blank 0 []
  | cons F low =>
    cases h with
    | cons hf hlow =>
      rw [trial, offer, List.isEmpty_cons, if_neg Bool.false_ne_true, List.length_cons,
        ← List.length_map SlotFrame.copy]
      exact decides_from blank hf hlow []

end Runs

end Machine

/-! ## Parsers -/

namespace Session

variable {g : Grammar} {x : Session}

/-- **The search in place decides about every token.** After any calls, offer a token to copies of
the frames as they are kept. The machine comes to an end, and it takes the token exactly if the
parser accepts it. Then the tape that it is left with is the one that the replay is given, and its
stack has the frames of the trial, with the same nonterminals, positions and numbers of
repetitions. -/
theorem offer_stored {settings : List Setting} {p : Parser} {definitions : NameMap Form}
    (hg : Grammar.build definitions = .ok g) (hp : Parser.make (some g) settings = .ok p)
    {calls : List Call} (hx : x = (start p).run calls) (t : Token) :
    ∃ outcome m, Machine.offer x.parser.engine t (x.parser.stack.map (Frame.stored g)) =
        some (outcome, m) ∧
      ((outcome = .failed ∧ (x.parser.observe t).accepted = false) ∨
        (outcome = .shifted ∧ (x.parser.observe t).accepted = true ∧
          ∃ stack, trial x.parser.engine Value.null t.tag x.parser.stack = .accepted stack m.tape ∧
            List.Forall₂ SlotFrame.Counts m.stack stack)) := by
  obtain ⟨c, hmade, hsound⟩ := exists_sound hp calls
  rw [← hx] at hmade hsound
  have hE : x.parser.engine.grammar = g := by rw [hmade.engine]; rfl
  have hcounts : List.Forall₂ SlotFrame.Counts
      ((x.parser.stack.map (Frame.stored g)).map SlotFrame.copy) x.parser.stack := by
    rw [List.map_map, List.forall₂_map_left_iff]
    exact List.forall₂_same.2 fun f hf => SlotFrame.counts_copy (hsound.frames f hf)
  have hdecides := Machine.decides_offer (E := x.parser.engine) (t := t) Value.null hcounts
  have hlasts : trial x.parser.engine Value.null t.tag x.parser.stack ≠ .exhausted :=
    trial_ne_exhausted (by rw [hE]; exact Grammar.leftRecursion?_of_build hg) (by rwa [hE])
  have haccepted := Parser.accepted_observe hmade.ready t
  rw [Parser.commit, advance_isSome] at haccepted
  generalize trial x.parser.engine Value.null t.tag x.parser.stack = v at *
  generalize Machine.offer x.parser.engine t (x.parser.stack.map (Frame.stored g)) = y at *
  cases hdecides with
  | accepted h => exact ⟨_, _, rfl, .inr ⟨rfl, haccepted, _, rfl, h⟩⟩
  | refused => exact ⟨_, _, rfl, .inl ⟨rfl, haccepted⟩⟩
  | exhausted => exact absurd rfl hlasts

end Session

end PushParser
