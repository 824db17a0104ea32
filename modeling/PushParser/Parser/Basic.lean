import PushParser.Parser.Replay
import PushParser.Parser.Settings
import PushParser.Queue

/-!
# Parsers

A **`Parser`** recognises a grammar one observed token at a time. Between observations its
lookahead is empty.

* `Parser.make`: a parser for a grammar;
* **`Parser.observe`**: offer one token. A token that is taken is shifted into the innermost frame,
  and every frame it completes is reduced. A token that is rejected changes nothing but the last
  rejection.
* `Observations`, `Parser.observeAll`, `Parser.observeTimes`: many tokens, with what the listeners
  noted down and the trace;
* `Parser.reset`: begin anew.
-/

namespace PushParser

/-- **A parser and its state.** -/
structure Parser where
  engine : Engine
  settings : Settings
  /-- The frames in progress, innermost first. -/
  stack : List (Frame Value)
  lookahead : Queue
  /-- The value of root, once it was reduced and until a token starts the next parse. -/
  result : Option Value
  /-- The rejection of the last token, unless it was taken. -/
  rejection : Option Rejection
  deriving Inhabited

/-- What an observation leads to. -/
structure Observation where
  accepted : Bool
  parser : Parser
  events : List (Event Value)

/-- What the listeners note down of an observation. -/
def Observation.log (o : Observation) : List Entry := o.parser.settings.log o.events

/-- The trace of an observation. -/
def Observation.trace (o : Observation) : String := o.parser.settings.traceOf o.events

namespace Parser

/-- **A parser for a grammar**, if there is one. -/
def make (g? : Option Grammar) (settings : List Setting) : Except SetupError Parser :=
  match g? with
  | none => .error (.configuration .noGrammar)
  | some g =>
    match Settings.default.applyAll g settings with
    | .error e => .error e
    | .ok c => .ok ⟨g.engine c.predict, c, [], .ofLimit 1, none, none⟩

/-- The grammar that is parsed. -/
def grammar (p : Parser) : Grammar := p.engine.grammar

/-- Number of frames in progress. -/
def depth (p : Parser) : Nat := p.stack.length

/-- Root was reduced and no token has started the next parse. -/
def done (p : Parser) : Bool := p.result.isSome

/-- The printed form of what the innermost frame waits for, or root when there is none. -/
def expected (p : Parser) : String :=
  match p.stack with
  | [] => rootName
  | f :: _ => f.expected

/-- Begin anew. -/
def reset (p : Parser) : Parser :=
  { p with stack := [], lookahead := p.lookahead.reset, result := none, rejection := none }

/-! ## Rejecting -/

/-- Tell the listeners of a rejected token, in order. Those that have the parser observe another
token do it by `observing`. -/
def tell (observing : Parser → Token → Parser × List (Event Value)) (t : Token) :
    Parser → List RejectListener → Parser × List (Event Value)
  | p, [] => (p, [])
  | p, .note label :: rest =>
    let told := tell observing t p rest
    (told.1, .told label t :: told.2)
  | p, .ask choose :: rest =>
    match choose t with
    | none => tell observing t p rest
    | some u =>
      let observed := observing p u
      let told := tell observing t observed.1 rest
      (told.1, observed.2 ++ told.2)

/-- Reject a token: remember it, then tell the listeners. -/
def rejectWith (observing : Parser → Token → Parser × List (Event Value)) (p : Parser) (t : Token) :
    Parser × List (Event Value) :=
  let r : Rejection := ⟨t, p.expected⟩
  let told := tell observing t { p with rejection := some r } p.settings.onReject
  (told.1, .reject p.depth r :: told.2)

/-! ## Accepting -/

/-- The stack, the value of root and the events after a token is taken, if it can be. -/
def commit (p : Parser) (t : Token) : Option (Commit Value × List (Event Value)) :=
  advance p.engine p.settings.actions.algebra .null t p.stack

/-- The value of root after a token is taken: the latest reduced, or else the one before unless the
token starts a parse. -/
def resultAfter (p : Parser) (c : Commit Value) : Option Value :=
  c.root.or (if p.stack.isEmpty then none else p.result)

/-- Offer a token. While it is rejected it stays in the lookahead, so that a token observed then is
rejected too. -/
def observeWith (observing : Parser → Token → Parser × List (Event Value)) (p : Parser)
    (t : Token) : Observation :=
  match p.lookahead.push t with
  | .error _ =>
    let rejected := p.rejectWith observing t
    ⟨false, rejected.1, rejected.2⟩
  | .ok full =>
    match p.commit t with
    | none =>
      let rejected := { p with lookahead := full }.rejectWith observing t
      ⟨false, { rejected.1 with lookahead := rejected.1.lookahead.drop }, rejected.2⟩
    | some (c, events) =>
      ⟨true,
        { p with
          stack := c.stack
          lookahead := full.drop
          result := p.resultAfter c
          rejection := none },
        events⟩

/-- Offer a token on behalf of a listener, as one of at most `n` inside one another. Once there are
so many the listeners let it be. -/
def observeNested : (n : Nat) → Parser → Token → Parser × List (Event Value)
  | 0, p, _ => (p, [])
  | n + 1, p, t =>
    let o := p.observeWith (observeNested n) t
    (o.parser, o.events ++ [.nested o.accepted])

/-- **Offer one token.** -/
def observe (p : Parser) (t : Token) : Observation :=
  p.observeWith (observeNested p.settings.nesting) t

end Parser

/-! ## Many tokens -/

/-- **What observing several tokens leads to**: how many were accepted, the parser, what the
listeners noted down, in order, and the trace. -/
structure Observations where
  accepted : Nat
  parser : Parser
  log : Array Entry
  trace : String

namespace Observations

/-- Nothing was observed yet. -/
def start (p : Parser) : Observations := ⟨0, p, #[], ""⟩

/-- Offer one more token. -/
def add (os : Observations) (t : Token) : Observations :=
  let o := os.parser.observe t
  ⟨os.accepted + o.accepted.toNat, o.parser, os.log ++ o.log, os.trace ++ o.trace⟩

/-- Offer more tokens in order. -/
def addAll (os : Observations) (ts : List Token) : Observations := ts.foldl add os

/-- Offer more tokens, `n` times over. -/
def addTimes (os : Observations) (ts : List Token) : (n : Nat) → Observations
  | 0 => os
  | n + 1 => (os.addAll ts).addTimes ts n

end Observations

namespace Parser

/-- **Offer tokens in order.** -/
def observeAll (p : Parser) (ts : List Token) : Observations := (Observations.start p).addAll ts

/-- Offer the same tokens `n` times over. -/
def observeTimes (p : Parser) (ts : List Token) (n : Nat) : Observations :=
  (Observations.start p).addTimes ts n

end Parser

end PushParser
