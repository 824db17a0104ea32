import Mathlib.Data.List.Forall2
import PushParser.Proofs.Rejection

/-!
# Values do not decide

A parser looks at the tags of tokens only. The values that tokens carry, the actions, the listeners
and the trace have no part in which tokens are accepted or in what becomes of the frames.

* `Event.withValue`, `replay_withValue`, `advance_withValue`: a token with another value is taken in
  the same way, where the algebra does not tell the two apart;
* `Mark`, `marks`: the tags shifted and the nonterminals reduced;
* **`advance_outline`**: what a token does to the outline of a stack depends on its tag and on the
  outline only;
* **`Session.Alike`**: two sessions with the same outline, with a lemma for one call on each;
* **`Session.alike_run`**: sessions over one grammar that are offered tokens of the same tags stay
  alike, whatever the values, actions and listeners.
-/

namespace PushParser

variable {α β : Type}

/-! ## Tokens with other values -/

/-- The token with another value. -/
def Token.withValue (t : Token) (v : Value) : Token := ⟨t.tag, v⟩

/-- The event with another value for the token that is shifted. -/
def Event.withValue (v : Value) : Event α → Event α
  | .shift depth lhs t => .shift depth lhs (t.withValue v)
  | e => e

/-- The same with another value for the token that is shifted. -/
def Replayed.withValue {σ : Type} (v : Value) (x : Replayed α σ) : Replayed α σ :=
  { x with events := x.events.map (Event.withValue v) }

@[simp] theorem Event.withValue_reduction (A : Algebra α) (v : Value) (f : Frame α) (depth : Nat) :
    (f.reduction A depth).withValue v = f.reduction A depth := rfl

section WithValue

variable (E : Engine) {A : Algebra α} {t : Token} {v : Value}
  (hA : A.token (t.withValue v) = A.token t)

include hA

theorem replayStep_withValue (fuel depth : Nat) (f : Frame α) (below : List (Frame α))
    (tape : Tape) :
    replayStep E A (t.withValue v) fuel depth f below tape =
      (replayStep E A t fuel depth f below tape).map (Replayed.withValue v) := by
  have htag : (t.withValue v).tag = t.tag := rfl
  induction fuel generalizing depth f below tape with
  | zero => rfl
  | succ fuel ih =>
    rw [replayStep, replayStep, htag]
    cases f.todo with
    | nil => rfl
    | cons e es =>
      dsimp only
      cases direct E t.tag f.lhs f.isBare e tape with
      | error d => rfl
      | ok x =>
        obtain ⟨d, tape⟩ := x
        cases d with
        | shift => simp [Except.map, Replayed.withValue, Event.withValue, hA]
        | skip => exact ih depth f.skip below tape
        | enter s r =>
          dsimp only
          rw [ih (depth + 1) (.start s r) (f :: below) tape]
          -- the frame entered takes the token, completes or diverges
          rcases replayStep E A t fuel (depth + 1) (.start s r) (f :: below) tape with
            d | ⟨stack | k, events, rest⟩
          · rfl
          · rfl
          · simp only [Except.map, Replayed.withValue]
            rw [ih depth (f.put (k.result A)) below rest]
            cases replayStep E A t fuel depth (f.put (k.result A)) below rest with
            | error d => rfl
            | ok x => simp [Except.map, Replayed.withValue, Replayed.after]

theorem replayFresh_withValue (tape : Tape) :
    replayFresh E A (t.withValue v) tape =
      (replayFresh E A t tape).map (Replayed.withValue v) := by
  unfold replayFresh
  cases E.rule? rootName with
  | none => rfl
  | some r =>
    dsimp only
    rw [replayStep_withValue E hA]
    rcases replayStep E A t E.fuel 1 (.start rootName r) [] tape with
      d | ⟨stack | k, events, rest⟩
    · rfl
    · rfl
    · rfl

theorem replayFrom_withValue (n : Nat) (f : Frame α) (below : List (Frame α)) (tape : Tape) :
    replayFrom E A (t.withValue v) n f below tape =
      (replayFrom E A t n f below tape).map (Replayed.withValue v) := by
  induction below generalizing n f tape with
  | nil =>
    rw [replayFrom, replayFrom, replayStep_withValue E hA]
    rcases replayStep E A t E.fuel (n + 1) f [] tape with d | ⟨stack | k, events, rest⟩
    · rfl
    · rfl
    · simp only [Except.map, Replayed.withValue]
      rw [replayFresh_withValue E hA]
      cases replayFresh E A t rest with
      | error d => rfl
      | ok x => simp [Except.map, Replayed.withValue]
  | cons k below ih =>
    rw [replayFrom, replayFrom, replayStep_withValue E hA]
    rcases replayStep E A t E.fuel (n + 1) f (k :: below) tape with d | ⟨stack | l, events, rest⟩
    · rfl
    · rfl
    · simp only [Except.map, Replayed.withValue]
      rw [ih (n - 1) (k.put (l.result A)) rest]
      cases replayFrom E A t (n - 1) (k.put (l.result A)) below rest with
      | error d => rfl
      | ok x => simp [Except.map, Replayed.withValue, Replayed.after]

theorem replay_withValue (tape : Tape) (stack : List (Frame α)) :
    replay E A (t.withValue v) tape stack =
      (replay E A t tape stack).map (Replayed.withValue v) := by
  cases stack with
  | nil => exact replayFresh_withValue E hA tape
  | cons f below => exact replayFrom_withValue E hA below.length f below tape

omit E hA in
theorem settleFrom_withValue (n : Nat) (f : Frame α) (below : List (Frame α)) :
    (settleFrom A n f below).2.map (Event.withValue v) = (settleFrom A n f below).2 := by
  induction below generalizing n f with
  | nil =>
    rw [settleFrom]
    split <;> rfl
  | cons k below ih =>
    rw [settleFrom]
    split
    · simp [ih (n - 1) (k.put (f.result A))]
    · rfl

omit E hA in
theorem settle_withValue (stack : List (Frame α)) :
    (settle A stack).2.map (Event.withValue v) = (settle A stack).2 := by
  cases stack with
  | nil => rfl
  | cons f below => exact settleFrom_withValue below.length f below

/-- **A token with another value is taken in the same way.** -/
theorem advance_withValue (blank : α) (stack : List (Frame α)) :
    advance E A blank (t.withValue v) stack =
      (advance E A blank t stack).map fun x => (x.1, x.2.map (Event.withValue v)) := by
  rw [advance_eq, advance_eq]
  have htag : (t.withValue v).tag = t.tag := rfl
  rw [htag]
  cases (trial E blank t.tag stack).tape? with
  | none => rfl
  | some tape =>
    rw [Option.bind_some, Option.bind_some, replay_withValue E hA]
    cases replay E A t tape stack with
    | error d => rfl
    | ok x =>
      simp [Except.map, Except.toOption, Replayed.withValue, Replayed.settled, settle_withValue]

end WithValue

/-! ## Outlines -/

/-- **What is seen of a shift or a reduction apart from values.** -/
inductive Mark where
  /-- A token of this tag was shifted. -/
  | shifted (tag : Symbol)
  /-- A frame of this nonterminal was reduced. -/
  | reduced (lhs : Symbol)
  deriving DecidableEq

/-- What is seen of an event apart from values. -/
def Event.mark? : Event α → Option Mark
  | .shift _ _ t => some (.shifted t.tag)
  | .reduce _ lhs _ _ => some (.reduced lhs)
  | _ => none

/-- **The tags shifted and the nonterminals reduced**, in order. -/
def marks (events : List (Event α)) : List Mark := events.filterMap Event.mark?

@[simp] theorem marks_append (es es' : List (Event α)) :
    marks (es ++ es') = marks es ++ marks es' := List.filterMap_append

@[simp] theorem marks_map (h : α → β) (events : List (Event α)) :
    marks (events.map (Event.map h)) = marks events := by
  rw [marks, List.filterMap_map, marks]
  congr 1
  funext e
  cases e <;> rfl

@[simp] theorem marks_withValue (v : Value) (events : List (Event α)) :
    marks (events.map (Event.withValue v)) = marks events := by
  rw [marks, List.filterMap_map, marks]
  congr 1
  funext e
  cases e <;> rfl

theorem marks_of_isRejection {events : List (Event α)} (h : ∀ e ∈ events, e.isRejection = true) :
    marks events = [] := by
  refine List.filterMap_eq_nil_iff.2 fun e he => ?_
  have hr := h e he
  cases e with
  | shift | reduce => cases hr
  | reject | told | nested => rfl

/-- What is seen of a commit apart from values: the frames, whether root was reduced, and the
marks. -/
def Commit.outline (x : Commit α × List (Event α)) : List (Frame Unit) × Bool × List Mark :=
  (x.1.stack.map Frame.erase, x.1.root.isSome, marks x.2)

theorem Commit.outline_map (h : α → β) (x : Commit α × List (Event α)) :
    Commit.outline (x.1.map h, x.2.map (Event.map h)) = Commit.outline x := by
  simp [outline, Commit.map]

theorem advance_erase (E : Engine) (A : Algebra α) (blank : α) (t : Token)
    (stack : List (Frame α)) :
    (advance E A blank t stack).map Commit.outline =
      (advance E .unit () t (stack.map Frame.erase)).map Commit.outline := by
  have hmap : advance E .unit () t (stack.map Frame.erase) = _ :=
    advance_map E A.hom_unit t blank () stack
  rw [hmap, Option.map_map]
  congr 1
  funext x
  exact (Commit.outline_map _ x).symm

/-- **What a token does to the outline of a stack** depends on its tag and on the outline only. -/
theorem advance_outline (E : Engine) (A : Algebra α) (B : Algebra β) (a : α) (b : β) {t u : Token}
    (htag : t.tag = u.tag) {stack : List (Frame α)} {stack' : List (Frame β)}
    (hstack : stack.map Frame.erase = stack'.map Frame.erase) :
    (advance E A a t stack).map Commit.outline = (advance E B b u stack').map Commit.outline := by
  have ht : t = u.withValue t.value := by rw [Token.withValue, ← htag]
  rw [advance_erase E A, advance_erase E B, hstack, ht, advance_withValue E (A := .unit) rfl,
    Option.map_map]
  congr 1
  funext x
  simp [Commit.outline]

/-! ## Parsers -/

namespace Parser

/-- **The frames in progress as they are shown**, innermost first: the nonterminal, the position and
the length of the rule. -/
def frames (p : Parser) : List (Symbol × Nat × Nat) :=
  p.stack.map fun f => (f.lhs, f.position, f.length)

variable {p q : Parser}

theorem frames_eq_of_erase (h : p.stack.map Frame.erase = q.stack.map Frame.erase) :
    p.frames = q.frames := by
  have hframes : ∀ r : Parser, r.frames =
      (r.stack.map Frame.erase).map fun f => (f.lhs, f.position, f.length) := by
    intro r
    simp [frames, Frame.erase]
  rw [hframes, hframes, h]

theorem expected_eq_of_erase (h : p.stack.map Frame.erase = q.stack.map Frame.erase) :
    p.expected = q.expected := by
  have hexpected : ∀ r : Parser, r.expected =
      ((r.stack.map Frame.erase).head?.map Frame.expected).getD rootName := by
    intro r
    unfold expected
    cases r.stack <;> rfl
  rw [hexpected, hexpected, h]

theorem outline_commit (hengine : p.engine = q.engine)
    (h : p.stack.map Frame.erase = q.stack.map Frame.erase) {t u : Token} (htag : t.tag = u.tag) :
    (p.commit t).map Commit.outline = (q.commit u).map Commit.outline := by
  rw [commit, commit, hengine]
  exact advance_outline q.engine _ _ _ _ htag h

end Parser

/-! ## Two sessions -/

/-- The calls differ in the value of a token at most. -/
inductive Call.SameTag : Call → Call → Prop
  | observe {t u : Token} (h : t.tag = u.tag) : SameTag (.observe t) (.observe u)
  | reset : SameTag .reset .reset

namespace Session

variable {g : Grammar} {c d : Settings} {x y : Session}

/-- **Two sessions that differ in values at most.** -/
structure Alike (x y : Session) : Prop where
  /-- The frames have the same nonterminals, positions and numbers of repetitions. -/
  stack : x.parser.stack.map Frame.erase = y.parser.stack.map Frame.erase
  done : x.parser.done = y.parser.done
  /-- The last rejections name the same expectation, or there is none on either side. -/
  expected : x.parser.rejection.map Rejection.expected = y.parser.rejection.map Rejection.expected
  /-- The same tags were accepted since the last reset. -/
  accepted : Token.tags x.accepted = Token.tags y.accepted
  /-- The same tags were shifted and the same nonterminals reduced since the last reset. -/
  marks : marks x.events = marks y.events

theorem Alike.call_of_commit_none (h : x.Alike y) (hx : x.parser.Ready) (hy : y.parser.Ready)
    {t u : Token} (ht : x.parser.commit t = none) (hu : y.parser.commit u = none) :
    (x.call (.observe t)).Alike (y.call (.observe u)) := by
  obtain ⟨hacc, ⟨v, hv⟩, hevents⟩ := Parser.observe_refused hx ht
  obtain ⟨hacc', ⟨v', hv'⟩, hevents'⟩ := Parser.observe_refused hy hu
  have hmarks := marks_of_isRejection fun e he => (hevents e he).isRejection
  have hmarks' := marks_of_isRejection fun e he => (hevents' e he).isRejection
  rw [call, call]
  dsimp only at hv hv' ⊢
  rw [hacc, hacc', hv, hv']
  refine ⟨h.stack, h.done, ?_, h.accepted, ?_⟩
  · simp [Parser.expected_eq_of_erase h.stack]
  · simp [hmarks, hmarks', h.marks]

theorem Alike.call_of_commit_some (h : x.Alike y) (hx : x.parser.Ready) (hy : y.parser.Ready)
    {t u : Token} (htag : t.tag = u.tag) {a b : Commit Value × List (Event Value)}
    (ht : x.parser.commit t = some a) (hu : y.parser.commit u = some b)
    (hab : Commit.outline a = Commit.outline b) :
    (x.call (.observe t)).Alike (y.call (.observe u)) := by
  obtain ⟨⟨stack, root⟩, events⟩ := a
  obtain ⟨⟨stack', root'⟩, events'⟩ := b
  simp only [Commit.outline, Prod.mk.injEq] at hab
  obtain ⟨hstack, hroot, hmarks⟩ := hab
  have hempty : x.parser.stack.isEmpty = y.parser.stack.isEmpty := by
    rw [← List.isEmpty_map (f := Frame.erase), h.stack, List.isEmpty_map]
  have hdone := h.done
  rw [Parser.done, Parser.done] at hdone
  rw [Session.call_of_commit_some hx ht, Session.call_of_commit_some hy hu]
  refine ⟨hstack, ?_, rfl, ?_, ?_⟩
  · rw [Parser.done, Parser.done, Parser.resultAfter, Parser.resultAfter, Option.isSome_or,
      Option.isSome_or, hroot, hempty]
    split
    · rfl
    · rw [hdone]
  · simp [Token.tags, htag,
      show x.accepted.map Token.tag = y.accepted.map Token.tag from h.accepted]
  · simp [hmarks, h.marks]

/-- **Calls that differ in the value of a token at most keep two sessions alike.** -/
theorem Alike.call (h : x.Alike y) (hx : x.Made g c) (hy : y.Made g d)
    (hpredict : c.predict = d.predict) {a b : Call} (hcall : a.SameTag b) :
    (x.call a).Alike (y.call b) := by
  cases hcall with
  | reset => exact ⟨rfl, rfl, rfl, rfl, rfl⟩
  | @observe t u htag =>
    have hengine : x.parser.engine = y.parser.engine := by rw [hx.engine, hy.engine, hpredict]
    have houtline := Parser.outline_commit hengine h.stack htag
    cases ht : x.parser.commit t with
    | none =>
      rw [ht, Option.map_none, eq_comm, Option.map_eq_none_iff] at houtline
      exact h.call_of_commit_none hx.ready hy.ready ht houtline
    | some a =>
      rw [ht, Option.map_some, eq_comm, Option.map_eq_some_iff] at houtline
      obtain ⟨b, hu, hab⟩ := houtline
      exact h.call_of_commit_some hx.ready hy.ready htag ht hu hab.symm

theorem Alike.run (h : x.Alike y) (hx : x.Made g c) (hy : y.Made g d)
    (hpredict : c.predict = d.predict) {calls calls' : List Call}
    (hcalls : List.Forall₂ Call.SameTag calls calls') :
    (x.run calls).Alike (y.run calls') := by
  induction hcalls generalizing x y with
  | nil => exact h
  | cons hcall _ ih => exact ih (h.call hx hy hpredict hcall) (hx.call _) (hy.call _)

theorem Alike.accepted_observe (h : x.Alike y) (hx : x.Made g c) (hy : y.Made g d)
    (hpredict : c.predict = d.predict) {t u : Token} (htag : t.tag = u.tag) :
    (x.parser.observe t).accepted = (y.parser.observe u).accepted := by
  have hengine : x.parser.engine = y.parser.engine := by rw [hx.engine, hy.engine, hpredict]
  have houtline := Parser.outline_commit hengine h.stack htag
  rw [Parser.accepted_observe hx.ready, Parser.accepted_observe hy.ready,
    ← Option.isSome_map (f := Commit.outline), houtline, Option.isSome_map]

/-- **Values, actions, listeners and the trace decide nothing.** Let two parsers be made for one
grammar, both with prediction or both without, and called with the same resets and with tokens of
the same tags. Then after each call both have accepted the same tags, show the same frames, are both
done or both not, expected the same at the last rejection, and have shifted the same tags and
reduced the same nonterminals in the same order; and either both accept the next token or neither
does. -/
theorem alike_run {settings settings' : List Setting} {p q : Parser}
    (hp : Parser.make (some g) settings = .ok p) (hq : Parser.make (some g) settings' = .ok q)
    (hpredict : p.settings.predict = q.settings.predict) {calls calls' : List Call}
    (hcalls : List.Forall₂ Call.SameTag calls calls') (n : Nat)
    (hx : x = (start p).run (calls.take n)) (hy : y = (start q).run (calls'.take n)) :
    x.Alike y ∧ x.parser.frames = y.parser.frames ∧
      ∀ t u, t.tag = u.tag → (x.parser.observe t).accepted = (y.parser.observe u).accepted := by
  obtain ⟨c, rfl⟩ := Parser.eq_of_make hp
  obtain ⟨d, rfl⟩ := Parser.eq_of_make hq
  have halike : x.Alike y := by
    rw [hx, hy]
    refine Alike.run ?_ made_start made_start hpredict (List.forall₂_take n hcalls)
    exact ⟨rfl, rfl, rfl, rfl, rfl⟩
  have hmade : x.Made g c := hx ▸ run_induction made_start (fun _ call h => h.call call) _
  have hmade' : y.Made g d := hy ▸ run_induction made_start (fun _ call h => h.call call) _
  refine ⟨halike, Parser.frames_eq_of_erase halike.stack, fun t u htag => ?_⟩
  exact halike.accepted_observe hmade hmade' hpredict htag

/-- One parser counts the items of a list and notes everything down, the other has neither actions
nor listeners, and their tokens carry different values. After `(x` both wait for another item. -/
theorem alike_run_nested : ∃ p q x y,
    Parser.make (some nestedLists) [.predict, .trace, .onShift "s", .onReduce "r",
      .onReject (.note "n"), .action "items" fun vs => .int (Int64.ofNat vs.length)] = .ok p ∧
    Parser.make (some nestedLists) [.predict] = .ok q ∧
    p.settings.predict = q.settings.predict ∧
    x = (start p).run [.observe ⟨"(", .str "["⟩, .observe ⟨"y", .null⟩, .observe ⟨"x", .list []⟩] ∧
    y = (start q).run [.observe ⟨"(", .null⟩, .observe ⟨"y", .bool true⟩, .observe ⟨"x", .int 3⟩] ∧
    x.Alike y ∧ x.parser.frames = y.parser.frames ∧
    x.parser.frames = [("items", 1, 2), ("root", 1, 3)] ∧
    (x.parser.observe ⟨",", .str ","⟩).accepted = (y.parser.observe ⟨",", .null⟩).accepted := by
  have hcalls : List.Forall₂ Call.SameTag
      [.observe ⟨"(", .str "["⟩, .observe ⟨"y", .null⟩, .observe ⟨"x", .list []⟩]
      [.observe ⟨"(", .null⟩, .observe ⟨"y", .bool true⟩, .observe ⟨"x", .int 3⟩] :=
    .cons (.observe rfl) (.cons (.observe rfl) (.cons (.observe rfl) .nil))
  obtain ⟨halike, hframes, haccepted⟩ := @alike_run nestedLists _ _
    [.predict, .trace, .onShift "s", .onReduce "r", .onReject (.note "n"),
      .action "items" fun vs => .int (Int64.ofNat vs.length)] [.predict] _ _ rfl rfl rfl _ _
    hcalls 3
    rfl rfl
  exact ⟨_, _, _, _, rfl, rfl, rfl, rfl, rfl, halike, hframes, rfl, haccepted _ _ rfl⟩

end Session

end PushParser
