import PushParser.Grammar.Build
import PushParser.Parser.Basic
import PushParser.Proofs.WellFormed

/-!
# Sessions

A **`Session`** is a parser in use: it is called again and again, and what it took and did since
the last reset is kept beside it.

* `observe_refused`, `observe_of_commit_none`: a rejected token changes nothing but the last
  rejection, also when a listener has the parser observe another token meanwhile;
* `observe_of_commit_some`: what a token that is taken changes;
* `Session.run_induction`: what every call keeps holds after any calls;
* **`Session.Made`**: the sessions that begin with a parser made for a grammar;
* **`Session.exists_sound`**: after any calls the stack is sound;
* **`replay_follows_trial`**: no replay diverges from its trial.
-/

namespace PushParser

/-! ## Rejections -/

/-- The event belongs to a rejection. -/
def Event.isRejection {α : Type} : Event α → Bool
  | .shift .. | .reduce .. => false
  | .reject .. | .told .. | .nested .. => true

/-- What happens while tokens are rejected and the stack is that of `p`: each rejection names what
`p` waits for, listeners are told, and no token is taken on their behalf. -/
def Event.Refuses (p : Parser) : Event Value → Prop
  | .shift .. | .reduce .. => False
  | .reject depth r => depth = p.depth ∧ r.expected = p.expected
  | .told .. => True
  | .nested accepted => accepted = false

theorem Event.Refuses.isRejection {p : Parser} {e : Event Value} (h : e.Refuses p) :
    e.isRejection = true := by
  cases e with
  | shift | reduce => exact h.elim
  | reject | told | nested => rfl

namespace Parser

/-- The lookahead takes no more tokens. -/
def Full (p : Parser) : Prop := p.lookahead.length = p.lookahead.limit

/-- The lookahead takes one token and is empty. -/
def Ready (p : Parser) : Prop := p.lookahead = .ofLimit 1

/-- The parser `q` is `p` after some token was rejected. -/
def Rejected (p q : Parser) : Prop := ∃ u, q = { p with rejection := some ⟨u, p.expected⟩ }

/-- What happened was rejecting: only the last rejection changed in `p`. -/
def Refused (p : Parser) (x : Parser × List (Event Value)) : Prop :=
  Rejected p x.1 ∧ ∀ e ∈ x.2, e.Refuses p

variable {observing : Parser → Token → Parser × List (Event Value)} {p : Parser}

theorem tell_refused (hobs : ∀ q u, Rejected p q → Refused p (observing q u)) (t : Token)
    {q : Parser} (hq : Rejected p q) (listeners : List RejectListener) :
    Refused p (tell observing t q listeners) := by
  induction listeners generalizing q with
  | nil => exact ⟨hq, List.forall_mem_nil _⟩
  | cons listener rest ih =>
    cases listener with
    | note label =>
      obtain ⟨hr, hevents⟩ := ih hq
      exact ⟨hr, List.forall_mem_cons.2 ⟨trivial, hevents⟩⟩
    | ask choose =>
      rw [tell]
      split
      · exact ih hq
      · next u _ =>
        obtain ⟨hr, hevents⟩ := hobs q u hq
        obtain ⟨hr', hevents'⟩ := ih hr
        exact ⟨hr', List.forall_mem_append.2 ⟨hevents, hevents'⟩⟩

/-- Rejecting looks at nothing that rejecting changes. -/
theorem rejectWith_refused (hobs : ∀ q u, Rejected p q → Refused p (observing q u))
    (r : Option Rejection) (t : Token) :
    Refused p ({ p with rejection := r }.rejectWith observing t) := by
  obtain ⟨hr, hevents⟩ := tell_refused hobs t ⟨t, rfl⟩ p.settings.onReject
  exact ⟨hr, List.forall_mem_cons.2 ⟨⟨rfl, rfl⟩, hevents⟩⟩

/-- A token that a listener has the parser observe meets a full lookahead, which rejects it. The
tokens observed inside that meet the same lookahead. -/
theorem observeNested_refused (hp : Full p) (n : Nat) (q : Parser) (u : Token)
    (hq : Rejected p q) : Refused p (observeNested n q u) := by
  induction n generalizing q u with
  | zero => exact ⟨hq, List.forall_mem_nil _⟩
  | succ n ih =>
    obtain ⟨v, rfl⟩ := hq
    have hpush : p.lookahead.push u = .error ⟨p.lookahead.limit, u⟩ :=
      Queue.push_eq_error_iff.2 ⟨hp, rfl⟩
    obtain ⟨hr, hevents⟩ := rejectWith_refused ih (some ⟨v, p.expected⟩) u
    rw [observeNested, observeWith, hpush]
    exact ⟨hr, List.forall_mem_append.2 ⟨hevents, List.forall_mem_singleton.2 rfl⟩⟩

theorem push_of_ready {p : Parser} (hp : p.Ready) (t : Token) :
    ∃ full, p.lookahead.push t = .ok full ∧ full.length = full.limit ∧ full.drop = p.lookahead := by
  rw [Ready] at hp
  rw [hp]
  exact ⟨_, rfl, rfl, rfl⟩

theorem observe_refused (hp : p.Ready) {t : Token} (h : p.commit t = none) :
    (p.observe t).accepted = false ∧ Refused p ((p.observe t).parser, (p.observe t).events) := by
  obtain ⟨full, hpush, hfull, hdrop⟩ := push_of_ready hp t
  have hp' : Full { p with lookahead := full } := hfull
  let observing := observeNested p.settings.nesting
  obtain ⟨⟨u, hu⟩, hevents⟩ :=
    rejectWith_refused (observeNested_refused hp' p.settings.nesting) p.rejection t
  have ho : p.observe t = ⟨false,
      { (rejectWith observing { p with lookahead := full } t).1 with
        lookahead := (rejectWith observing { p with lookahead := full } t).1.lookahead.drop },
      (rejectWith observing { p with lookahead := full } t).2⟩ := by
    rw [observe, observeWith, hpush]
    simp only [h]
    rfl
  rw [ho]
  refine ⟨rfl, ⟨u, ?_⟩, hevents⟩
  rw [hu, ← hdrop]
  rfl

/-- **A token that cannot be taken** changes nothing but the last rejection. -/
theorem observe_of_commit_none {p : Parser} (hp : p.Ready) {t : Token} (h : p.commit t = none) :
    (p.observe t).accepted = false ∧ (∃ r, (p.observe t).parser = { p with rejection := r }) ∧
      ∀ e ∈ (p.observe t).events, e.isRejection = true := by
  obtain ⟨hacc, ⟨u, hu⟩, hevents⟩ := observe_refused hp h
  exact ⟨hacc, ⟨_, hu⟩, fun e he => (hevents e he).isRejection⟩

/-- **A token that can be taken** is: the stack and the value of root are those of the commit. -/
theorem observe_of_commit_some {p : Parser} (hp : p.Ready) {t : Token} {c : Commit Value}
    {events : List (Event Value)} (h : p.commit t = some (c, events)) :
    p.observe t = ⟨true, { p with
      stack := c.stack
      result := p.resultAfter c
      rejection := none }, events⟩ := by
  obtain ⟨full, hpush, -, hdrop⟩ := push_of_ready hp t
  rw [observe, observeWith, hpush]
  simp only [h]
  rw [hdrop]

end Parser

/-! ## Calls -/

/-- A call on a parser. -/
inductive Call where
  | observe (t : Token)
  | reset

/-- **A parser in use.** -/
structure Session where
  parser : Parser
  /-- The tokens accepted since the last reset, in order. -/
  accepted : List Token
  /-- What the parser did since the last reset, in order. -/
  events : List (Event Value)

namespace Session

/-- A parser that was not called yet. -/
def start (p : Parser) : Session := ⟨p, [], []⟩

/-- One call. -/
def call (x : Session) : Call → Session
  | .observe t =>
    let o := x.parser.observe t
    ⟨o.parser, if o.accepted then x.accepted ++ [t] else x.accepted, x.events ++ o.events⟩
  | .reset => ⟨x.parser.reset, [], []⟩

/-- Calls, one after the other. -/
def run (x : Session) (calls : List Call) : Session := calls.foldl call x

theorem call_of_commit_none {x : Session} (hx : x.parser.Ready) {t : Token}
    (h : x.parser.commit t = none) :
    ∃ r events, x.call (.observe t) =
        ⟨{ x.parser with rejection := r }, x.accepted, x.events ++ events⟩ ∧
      ∀ e ∈ events, e.isRejection = true := by
  obtain ⟨hacc, ⟨r, hr⟩, hevents⟩ := Parser.observe_of_commit_none hx h
  refine ⟨r, _, ?_, hevents⟩
  rw [Session.call, hr, hacc]
  rfl

theorem call_of_commit_some {x : Session} (hx : x.parser.Ready) {t : Token} {c : Commit Value}
    {events : List (Event Value)} (h : x.parser.commit t = some (c, events)) :
    x.call (.observe t) = ⟨{ x.parser with
      stack := c.stack
      result := x.parser.resultAfter c
      rejection := none }, x.accepted ++ [t], x.events ++ events⟩ := by
  rw [Session.call, Parser.observe_of_commit_some hx h]
  rfl

/-- **What every call keeps holds after any calls.** -/
theorem run_induction {I : Session → Prop} {x : Session} (hx : I x)
    (hcall : ∀ y c, I y → I (y.call c)) (calls : List Call) : I (x.run calls) := by
  induction calls generalizing x with
  | nil => exact hx
  | cons c calls ih => exact ih (hcall x c hx)

/-- The parser was made for the grammar and is between two calls. -/
structure Made (g : Grammar) (settings : Settings) (x : Session) : Prop where
  engine : x.parser.engine = g.engine settings.predict
  settings : x.parser.settings = settings
  ready : x.parser.Ready

variable {g : Grammar} {settings : Settings}

theorem made_start : (start ⟨g.engine settings.predict, settings, [], .ofLimit 1, none, none⟩).Made
    g settings := ⟨rfl, rfl, rfl⟩

theorem Made.call {x : Session} (hx : x.Made g settings) (c : Call) :
    (x.call c).Made g settings := by
  cases c with
  | reset =>
    have hready := hx.ready
    rw [Parser.Ready] at hready
    refine ⟨hx.engine, hx.settings, ?_⟩
    change x.parser.lookahead.reset = _
    rw [hready]
    rfl
  | observe t =>
    cases hc : x.parser.commit t with
    | none =>
      obtain ⟨r, events, hcall, -⟩ := call_of_commit_none hx.ready hc
      rw [hcall]
      exact ⟨hx.engine, hx.settings, hx.ready⟩
    | some y =>
      rw [call_of_commit_some hx.ready hc]
      exact ⟨hx.engine, hx.settings, hx.ready⟩

end Session

theorem Parser.eq_of_make {g : Grammar} {settings : List Setting} {p : Parser}
    (h : Parser.make (some g) settings = .ok p) :
    ∃ c, p = ⟨g.engine c.predict, c, [], .ofLimit 1, none, none⟩ := by
  rw [Parser.make] at h
  split at h
  · cases h
  · next c _ =>
    cases h
    exact ⟨c, rfl⟩

/-! ## Stacks that are reached -/

namespace Session

variable {g : Grammar} {settings : Settings} {x : Session}

theorem Made.sound_call (hx : x.Made g settings) (hs : Sound g Anything x.parser.stack) (c : Call) :
    Sound g Anything (x.call c).parser.stack := by
  have hE : x.parser.engine.grammar = g := by rw [hx.engine]; rfl
  cases c with
  | reset => exact sound_nil
  | observe t =>
    cases hc : x.parser.commit t with
    | none =>
      obtain ⟨r, events, hcall, -⟩ := call_of_commit_none hx.ready hc
      rw [hcall]
      exact hs
    | some y =>
      obtain ⟨c, events⟩ := y
      rw [call_of_commit_some hx.ready hc]
      have hsound := advance_sound (respects_anything _ _) hc (by rw [hE]; exact hs)
      rwa [hE] at hsound

theorem exists_sound {settings : List Setting} {p : Parser}
    (hp : Parser.make (some g) settings = .ok p) (calls : List Call) :
    ∃ c, ((start p).run calls).Made g c ∧ Sound g Anything ((start p).run calls).parser.stack := by
  obtain ⟨c, rfl⟩ := Parser.eq_of_make hp
  refine ⟨c, run_induction (I := fun x => x.Made g c ∧ Sound g Anything x.parser.stack)
    ⟨made_start, sound_nil⟩ (fun y call hy => ?_) calls⟩
  exact ⟨hy.1.call call, hy.1.sound_call hy.2 call⟩

end Session

/-! ## Replays do not diverge -/

/-- **No replay diverges from its trial.** Let a trial on a copy of the stack with other contents
take the token and end with the frames `stack` and the choices `tape`. Then the replay on the stack
itself reads `tape` to its end and nothing after it, and ends with the same frames but for their
contents: the same nonterminals, positions and numbers of repetitions. So the token is taken. -/
theorem Parser.replay_follows_trial (p : Parser) (t : Token) {β : Type} {blank : β}
    {copy stack : List (Frame β)} {tape : Tape}
    (hcopy : copy.map Frame.erase = p.stack.map Frame.erase)
    (h : trial p.engine blank t.tag copy = .accepted stack tape) :
    (∃ c events, c.stack.map Frame.erase = stack.map Frame.erase ∧
      ∀ rest, replay p.engine p.settings.actions.algebra t (tape ++ rest) p.stack =
        .ok ⟨c, events, rest⟩) ∧
      (p.commit t).isSome = true := by
  obtain ⟨c, events, hc, htakes, hx⟩ := exists_takes_of_accepted hcopy h
  refine ⟨⟨c, events, hc, hx⟩, ?_⟩
  have htape : (trial p.engine Value.null t.tag p.stack).tape? = some tape := by
    rw [tape?_trial, ← hcopy, ← tape?_trial p.engine blank, h]
    rfl
  rw [Parser.commit, advance_isSome, htape]
  rfl

/-! ## Nested lists -/

/-- The definitions of lists of items in brackets, where an item may be a list. -/
def nestedForms : NameMap Form := .ofList [
  ("root", .sequence [.name "(", Form.apply (.quantifier .opt) ["items"], .name ")"]),
  ("items", .sequence [.name "item", Form.apply (.quantifier .star) ["more"]]),
  ("more", .names [",", "item"]),
  ("item", Form.apply .choice ["x", "root"])]

/-- The grammar of nested lists. -/
def nestedLists : Grammar where
  rules := .ofList [
    ("root", [.symbol "(", .quantified .opt "items", .symbol ")"]),
    ("items", [.symbol "item", .quantified .star "more"]),
    ("more", [.symbol ",", .symbol "item"]),
    ("item", [.choice ["x", "root"]])]
  synthetic := []

theorem build_nestedForms : Grammar.build nestedForms = .ok nestedLists :=
  Eq.refl (Except.ok nestedLists)

/-- A parser for nested lists that took `(x`. -/
def nestedParser : Parser :=
  ((Session.start ⟨nestedLists.engine true, { Settings.default with predict := true }, [],
    .ofLimit 1, none, none⟩).run [.observe ⟨"(", .null⟩, .observe ⟨"x", .null⟩]).parser

/-- A closing bracket passes over further items and completes the list. -/
theorem Parser.replay_follows_trial_nested :
    ∃ stack, trial nestedParser.engine .null ")" nestedParser.stack = .accepted stack [0] ∧
      (∃ c events, c.stack.map Frame.erase = stack.map Frame.erase ∧
        ∀ rest, replay nestedParser.engine nestedParser.settings.actions.algebra ⟨")", .null⟩
          ([0] ++ rest) nestedParser.stack = .ok ⟨c, events, rest⟩) ∧
      (nestedParser.commit ⟨")", .null⟩).isSome = true :=
  ⟨_, rfl, Parser.replay_follows_trial nestedParser ⟨")", .null⟩ rfl rfl⟩

end PushParser
