import PushParser.Parser.Algebra
import PushParser.Parser.Trial

/-!
# Replays

A replay takes the token on the real stack. It reads the choices from the tape of the trial, so no
frame is entered in vain, and every reduction it makes is final.

* `Directive`, `direct`: what the tape tells an element to do;
* **`replayStep`**: runs one frame by the tape;
* **`replay`**: runs a stack by the tape;
* **`settle`**: reduces the frames that the token completed.
-/

namespace PushParser

/-- Why a replay cannot follow its tape. -/
inductive Divergence where
  /-- The tape ended too early. -/
  | tapeEnded
  /-- The tape names an option that is not there. -/
  | noSuchOption
  /-- A frame was to take the token and could not. -/
  | refused (lhs : Symbol)
  /-- The fuel ran out. -/
  | exhausted
  deriving DecidableEq, Inhabited

/-- What an element is told to do. -/
inductive Directive where
  | shift
  | enter (s : Symbol) (r : Rule)
  | skip
  deriving DecidableEq, Inhabited

variable {α : Type} (E : Engine) (A : Algebra α)

/-- What the tape tells an element of `lhs` to do, and the rest of the tape. Only nonterminals under
a quantifier and choices read from it. -/
def direct (tag lhs : Symbol) (first : Bool) : Element → Tape → Except Divergence (Directive × Tape)
  | .symbol s, tape =>
    match E.rule? s with
    | some r => .ok (.enter s r, tape)
    | none => if s = tag then .ok (.shift, tape) else .error (.refused lhs)
  | .quantified q s, tape =>
    match E.rule? s with
    | some r =>
      match tape with
      | [] => .error .tapeEnded
      | 0 :: tape => if q.demands first then .error (.refused lhs) else .ok (.skip, tape)
      | _ :: tape => .ok (.enter s r, tape)
    | none =>
      if s = tag then .ok (.shift, tape)
      else if q.demands first then .error (.refused lhs)
      else .ok (.skip, tape)
  | .choice options, tape =>
    match tape with
    | [] => .error .tapeEnded
    | i :: tape =>
      match options[i]? with
      | none => .error .noSuchOption
      | some s =>
        match E.rule? s with
        | some r => .ok (.enter s r, tape)
        | none => .ok (.shift, tape)

/-- How far a replay got with one frame. -/
inductive Progress (α : Type) where
  /-- The token was taken, which gives this stack, innermost frame first. -/
  | shifted (stack : List (Frame α))
  | completed (frame : Frame α)
  deriving Inhabited

/-- **What a replay did**: how far it got, the events and the rest of the tape. -/
structure Replayed (α σ : Type) where
  outcome : σ
  events : List (Event α)
  tape : Tape

/-- The same, with events before it. -/
def Replayed.after {σ : Type} (before : List (Event α)) (x : Replayed α σ) : Replayed α σ :=
  { x with events := before ++ x.events }

/-- **Run one frame by the tape**, on top of the frames `below`, until the token is taken or the
frame is complete. The frame is the innermost of `depth`. -/
def replayStep (t : Token) : (fuel depth : Nat) → Frame α → (below : List (Frame α)) → Tape →
    Except Divergence (Replayed α (Progress α))
  | 0, _, _, _, _ => .error .exhausted
  | fuel + 1, depth, f, below, tape =>
    match f.todo with
    | [] => .ok ⟨.completed f, [], tape⟩
    | e :: _ =>
      match direct E t.tag f.lhs f.isBare e tape with
      | .error d => .error d
      | .ok (.shift, tape) =>
        .ok ⟨.shifted (f.put (A.token t) :: below), [.shift depth f.lhs t], tape⟩
      | .ok (.skip, tape) => replayStep t fuel depth f.skip below tape
      | .ok (.enter s r, tape) =>
        match replayStep t fuel (depth + 1) (.start s r) (f :: below) tape with
        | .error d => .error d
        | .ok ⟨.shifted stack, events, tape⟩ => .ok ⟨.shifted stack, events, tape⟩
        | .ok ⟨.completed h, events, tape⟩ =>
          (replayStep t fuel depth (f.put (h.result A)) below tape).map
            (.after (events ++ [h.reduction A depth]))

/-! ## Stacks -/

/-- A stack, and what root was reduced to if it was reduced on the way. -/
structure Commit (α : Type) where
  stack : List (Frame α)
  root : Option α
  deriving Inhabited

/-- Root was reduced to `a`, and perhaps again later. -/
def Commit.orRoot (a : α) (c : Commit α) : Commit α := { c with root := some (c.root.getD a) }

/-- Run a new root by the tape. -/
def replayFresh (t : Token) (tape : Tape) : Except Divergence (Replayed α (Commit α)) :=
  match E.rule? rootName with
  | none => .error (.refused rootName)
  | some r =>
    match replayStep E A t E.fuel 1 (.start rootName r) [] tape with
    | .error d => .error d
    | .ok ⟨.shifted stack, events, tape⟩ => .ok ⟨⟨stack, none⟩, events, tape⟩
    | .ok ⟨.completed _, _, _⟩ => .error (.refused rootName)

/-- Run a frame and, as frames complete, the `n` frames below it. -/
def replayFrom (t : Token) : (n : Nat) → Frame α → (below : List (Frame α)) → Tape →
    Except Divergence (Replayed α (Commit α))
  | n, f, [], tape =>
    match replayStep E A t E.fuel (n + 1) f [] tape with
    | .error d => .error d
    | .ok ⟨.shifted stack, events, tape⟩ => .ok ⟨⟨stack, none⟩, events, tape⟩
    | .ok ⟨.completed h, events, tape⟩ =>
      match replayFresh E A t tape with
      | .error d => .error d
      | .ok x =>
        .ok ⟨x.outcome.orRoot (h.result A), events ++ h.reduction A n :: x.events, x.tape⟩
  | n, f, k :: below, tape =>
    match replayStep E A t E.fuel (n + 1) f (k :: below) tape with
    | .error d => .error d
    | .ok ⟨.shifted stack, events, tape⟩ => .ok ⟨⟨stack, none⟩, events, tape⟩
    | .ok ⟨.completed h, events, tape⟩ =>
      (replayFrom t (n - 1) (k.put (h.result A)) below tape).map
        (.after (events ++ [h.reduction A n]))

/-- **Take a token on a stack**, innermost frame first, by the tape. -/
def replay (t : Token) (tape : Tape) : List (Frame α) → Except Divergence (Replayed α (Commit α))
  | [] => replayFresh E A t tape
  | f :: below => replayFrom E A t below.length f below tape

/-- Reduce a frame that is complete and those of the `n` frames below that are complete then. -/
def settleFrom : (n : Nat) → Frame α → (below : List (Frame α)) → Commit α × List (Event α)
  | n, f, [] =>
    if f.isComplete then (⟨[], some (f.result A)⟩, [f.reduction A n]) else (⟨[f], none⟩, [])
  | n, f, k :: below =>
    if f.isComplete then
      let rest := settleFrom (n - 1) (k.put (f.result A)) below
      (rest.1, f.reduction A n :: rest.2)
    else (⟨f :: k :: below, none⟩, [])

/-- **Reduce the frames that the token completed.** -/
def settle : List (Frame α) → Commit α × List (Event α)
  | [] => (⟨[], none⟩, [])
  | f :: below => settleFrom A below.length f below

/-- **Take a token on a stack**, or nothing when it cannot be taken. A trial finds the choices, a
replay makes them, and the frames completed are reduced. -/
def advance (blank : α) (t : Token) (stack : List (Frame α)) :
    Option (Commit α × List (Event α)) :=
  match trial E blank t.tag stack with
  | .refused | .exhausted => none
  | .accepted _ tape =>
    match replay E A t tape stack with
    | .error _ => none
    | .ok x =>
      let settled := settle A x.outcome.stack
      some (⟨settled.1.stack, settled.1.root.or x.outcome.root⟩, x.events ++ settled.2)

end PushParser
