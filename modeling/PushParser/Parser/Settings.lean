import PushParser.Grammar.Error
import PushParser.Parser.Algebra

/-!
# Settings of a parser

* `RejectListener`: who is told of a rejected token;
* **`Settings`**: the actions, the listeners, prediction and tracing;
* `Setting`, `Settings.apply`: one setting, and how it changes the others;
* `Entry`, `Settings.log`, `Settings.traceOf`: what the listeners note down, and the trace.
-/

namespace PushParser

open Text (quote)

/-- Who is told of a rejected token. -/
inductive RejectListener where
  /-- One that notes the token down under a label. -/
  | note (label : String)
  /-- One that has the parser observe the token it chooses for the rejected one, if it does. -/
  | ask (choose : Token → Option Token)
  deriving Inhabited

/-- One that always has the parser observe the same token. -/
def RejectListener.observe (u : Token) : RejectListener := .ask fun _ => some u

/-- **The settings of a parser.** -/
structure Settings where
  /-- What nonterminals reduce to; those without an entry reduce to the list of their children. -/
  table : NameMap (List Value → Value)
  /-- Labels of those told of each token taken. -/
  onShift : List String
  onReject : List RejectListener
  /-- Labels of those told of each reduction. -/
  onReduce : List String
  /-- How many tokens listeners have the parser observe inside one another at most. They keep count
  together. -/
  nesting : Nat
  /-- Options of a choice are ordered by their first sets. -/
  predict : Bool
  trace : Bool

/-- No actions, no listeners, no prediction and no trace. Tokens that listeners have the parser
observe do not nest. -/
def Settings.default : Settings := ⟨.empty, [], [], [], 1, false, false⟩

instance : Inhabited Settings := ⟨.default⟩

/-- The actions of the table. -/
def Settings.actions (c : Settings) : Actions := fun s =>
  match c.table.find? s with
  | some run => run
  | none => Actions.default s

/-- **One setting.** -/
inductive Setting where
  | action (lhs : Symbol) (run : List Value → Value)
  | actions (table : NameMap (List Value → Value))
  | onShift (label : String)
  | onReject (listener : RejectListener)
  | onReduce (label : String)
  | nesting (n : Nat)
  | predict
  | trace

/-- Why there is no parser. -/
inductive SetupError where
  | configuration (e : ConfigurationError)
  /-- An action was given for a symbol without a rule. -/
  | unknownNonterminal (s : Symbol)
  deriving DecidableEq, Inhabited

/-- The wording of a setup error. -/
def SetupError.message : SetupError → String
  | .configuration e => e.message
  | .unknownNonterminal s => "unknown nonterminal " ++ quote s

namespace Settings

variable (g : Grammar)

/-- Give a nonterminal an action. -/
def setAction (c : Settings) (lhs : Symbol) (run : List Value → Value) :
    Except SetupError Settings :=
  if g.isNonterminal lhs then .ok { c with table := c.table.insert lhs run }
  else .error (.unknownNonterminal lhs)

/-- Give nonterminals actions, one after the other. -/
def setActions (c : Settings) : List (Symbol × (List Value → Value)) → Except SetupError Settings
  | [] => .ok c
  | (lhs, run) :: rest =>
    match c.setAction g lhs run with
    | .error e => .error e
    | .ok c => c.setActions rest

/-- Apply one setting. -/
def apply (c : Settings) : Setting → Except SetupError Settings
  | .action lhs run => c.setAction g lhs run
  | .actions table => c.setActions g table.entries
  | .onShift label => .ok { c with onShift := c.onShift ++ [label] }
  | .onReject listener => .ok { c with onReject := c.onReject ++ [listener] }
  | .onReduce label => .ok { c with onReduce := c.onReduce ++ [label] }
  | .nesting n => .ok { c with nesting := n }
  | .predict => .ok { c with predict := true }
  | .trace => .ok { c with trace := true }

/-- Apply settings in order; the first that fails counts. -/
def applyAll (c : Settings) : List Setting → Except SetupError Settings
  | [] => .ok c
  | s :: rest =>
    match c.apply g s with
    | .error e => .error e
    | .ok c => c.applyAll rest

end Settings

/-! ## Notes -/

/-- **What a listener notes down.** -/
inductive Entry where
  | shift (listener : String) (token : Token)
  | reject (listener : String) (token : Token)
  | reduce (listener : String) (lhs : Symbol) (children : List Value)
  | nested (accepted : Bool)
  deriving Inhabited

/-- What the listeners note down of an event. -/
def Settings.notes (c : Settings) : Event Value → List Entry
  | .shift _ _ t => c.onShift.map (.shift · t)
  | .reduce _ lhs slots _ => c.onReduce.map (.reduce · lhs (slots.map Slot.value))
  | .reject _ _ => []
  | .told listener t => [.reject listener t]
  | .nested accepted => [.nested accepted]

/-- What the listeners note down of a list of events. -/
def Settings.log (c : Settings) (events : List (Event Value)) : List Entry :=
  events.flatMap c.notes

/-- The trace of a list of events, empty unless one is kept. -/
def Settings.traceOf (c : Settings) (events : List (Event Value)) : String :=
  if c.trace then Event.trace events else ""

end PushParser
