import PushParser.Parser.Engine
import PushParser.Parser.Frame

/-!
# Trials

A trial finds out whether a stack of frames can take a token. Where a match would be placed it
places a `blank`, and it writes the choices that lead to the token on a **`Tape`**: one or zero for
entering or passing over a quantified nonterminal, and the number of the option taken for a choice.
Choices that come to nothing leave no mark.

A quantified symbol is entered whenever it can take the token, and a choice takes the first of its
options that does not refuse it. An option that takes no token counts as taken.

* `Attempt`: what becomes of a frame;
* `Meeting`, `meet`: how a symbol meets the token;
* `Move`, `resolve`: what an element makes of it;
* **`step`**: runs one frame until the token is taken, the frame is complete, or neither can be;
* **`trial`**: runs a stack. A root that completes is started anew once.
-/

namespace PushParser

variable {α : Type}

/-- The choices of a trial, in order. -/
abbrev Tape := List Nat

/-- **What becomes of a frame** that is offered a token. -/
inductive Attempt (α : Type) where
  /-- The token was taken, which gives this stack, innermost frame first. -/
  | shifted (stack : List (Frame α)) (tape : Tape)
  /-- The frame is complete and the token still there. -/
  | completed (tape : Tape)
  /-- The frame can neither take the token nor be completed. -/
  | failed
  /-- The fuel ran out. -/
  | exhausted
  deriving DecidableEq, Inhabited

/-- The same, with choices made before. -/
def Attempt.after (before : Tape) : Attempt α → Attempt α
  | .shifted stack tape => .shifted stack (before ++ tape)
  | .completed tape => .completed (before ++ tape)
  | .failed => .failed
  | .exhausted => .exhausted

/-- How a symbol meets the token. -/
inductive Meeting (α : Type) where
  /-- It is the terminal of the token. -/
  | here
  /-- A frame entered for it, or one above, took the token. -/
  | inside (stack : List (Frame α)) (tape : Tape)
  /-- It matches without the token. -/
  | nothing (tape : Tape)
  /-- It does not match. -/
  | refused
  | exhausted
  deriving DecidableEq, Inhabited

/-- What an element makes of the token. -/
inductive Move (α : Type) where
  /-- Take it. -/
  | shift (tape : Tape)
  /-- It is taken by a frame above. -/
  | descend (stack : List (Frame α)) (tape : Tape)
  /-- Place a match without it and go on. -/
  | fill (tape : Tape)
  /-- Leave the position and go on. -/
  | skip (tape : Tape)
  | fail
  | exhausted
  deriving DecidableEq, Inhabited

variable (E : Engine)

/-- How a symbol meets the token, given what becomes of the frame of a nonterminal. -/
def meet (enter : Frame α → Attempt α) (tag s : Symbol) : Meeting α :=
  match E.rule? s with
  | none => if s = tag then .here else .refused
  | some r =>
    match enter (.start s r) with
    | .shifted stack tape => .inside stack tape
    | .completed tape => .nothing tape
    | .failed => .refused
    | .exhausted => .exhausted

/-- Pass over a quantified symbol, unless an occurrence is required. -/
def passOver (q : Quantifier) (first : Bool) (s : Symbol) : Move α :=
  if q.demands first then .fail
  else .skip (if E.grammar.isNonterminal s then [0] else [])

/-- The first option that does not refuse the token. -/
def choose (meet : Symbol → Meeting α) : List (Nat × Symbol) → Move α
  | [] => .fail
  | (i, s) :: rest =>
    match meet s with
    | .here => .shift [i]
    | .inside stack tape => .descend stack (i :: tape)
    | .nothing tape => .fill (i :: tape)
    | .refused => choose meet rest
    | .exhausted => .exhausted

/-- What an element makes of the token. An occurrence of a quantified symbol may be its `first`. -/
def resolve (tag : Symbol) (meet : Symbol → Meeting α) (first : Bool) : Element → Move α
  | .symbol s =>
    match meet s with
    | .here => .shift []
    | .inside stack tape => .descend stack tape
    | .nothing tape => .fill tape
    | .refused => .fail
    | .exhausted => .exhausted
  | .quantified q s =>
    match meet s with
    | .here => .shift []
    | .inside stack tape => .descend stack (1 :: tape)
    | .nothing tape => if q.admitsEmpty first then .fill (1 :: tape) else passOver E q first s
    | .refused => passOver E q first s
    | .exhausted => .exhausted
  | .choice options => choose meet (E.trialOrder tag options)

variable (blank : α)

/-- **Offer a token to a frame** on top of the frames `below`. -/
def step (tag : Symbol) : (fuel : Nat) → Frame α → (below : List (Frame α)) → Attempt α
  | 0, _, _ => .exhausted
  | fuel + 1, f, below =>
    match f.todo with
    | [] => .completed []
    | e :: _ =>
      match resolve E tag (meet E (fun h => step tag fuel h (f :: below)) tag) f.isBare e with
      | .shift tape => .shifted (f.put blank :: below) tape
      | .descend stack tape => .shifted stack tape
      | .fill tape => (step tag fuel (f.put blank) below).after tape
      | .skip tape => (step tag fuel f.skip below).after tape
      | .fail => .failed
      | .exhausted => .exhausted

/-! ## Stacks -/

/-- **What becomes of a stack** that is offered a token. -/
inductive Verdict (α : Type) where
  /-- The token was taken, which gives this stack, innermost frame first. -/
  | accepted (stack : List (Frame α)) (tape : Tape)
  | refused
  | exhausted
  deriving DecidableEq, Inhabited

/-- The same, with choices made before. -/
def Verdict.after (before : Tape) : Verdict α → Verdict α
  | .accepted stack tape => .accepted stack (before ++ tape)
  | .refused => .refused
  | .exhausted => .exhausted

/-- Offer a token to a new root. One that completes without the token would start forever, so it
refuses. -/
def trialFresh (tag : Symbol) : Verdict α :=
  match E.rule? rootName with
  | none => .refused
  | some r =>
    match step E blank tag E.fuel (.start rootName r) [] with
    | .shifted stack tape => .accepted stack tape
    | .completed _ | .failed => .refused
    | .exhausted => .exhausted

/-- Offer a token to a frame and, as frames complete, to those below it. -/
def trialFrom (tag : Symbol) : Frame α → List (Frame α) → Verdict α
  | f, [] =>
    match step E blank tag E.fuel f [] with
    | .shifted stack tape => .accepted stack tape
    | .completed tape => (trialFresh E blank tag).after tape
    | .failed => .refused
    | .exhausted => .exhausted
  | f, k :: below =>
    match step E blank tag E.fuel f (k :: below) with
    | .shifted stack tape => .accepted stack tape
    | .completed tape => (trialFrom tag (k.put blank) below).after tape
    | .failed => .refused
    | .exhausted => .exhausted

/-- **Offer a token to a stack**, innermost frame first. -/
def trial (tag : Symbol) : List (Frame α) → Verdict α
  | [] => trialFresh E blank tag
  | f :: below => trialFrom E blank tag f below

end PushParser
