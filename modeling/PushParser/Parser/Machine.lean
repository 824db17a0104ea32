import PushParser.Parser.Trial

/-!
# Trials in place

A trial runs on copies of the frames in progress, which it changes in place: one stack and one tape,
both cut back where a choice comes to nothing. A frame keeps its rule and one slot for each
position. Its copy does not touch the lists of repetitions that it shares with the original, but
counts its own repetitions beside them.

* **`SlotFrame`**: a frame by position, with `put`, `skip` and `copy`;
* `Frame.stored`: how a frame in progress is kept;
* **`Machine`**: a stack and a tape;
* `Machine.speculate`, `Machine.tryOptions`: what is tried, and how it is undone;
* **`Machine.step`**, **`Machine.run`**: the search for the frame that takes the token.
-/

namespace PushParser

variable {α : Type}

/-! ## Frames by position -/

/-- **A frame by position.** -/
structure SlotFrame (α : Type) where
  lhs : Symbol
  rule : Rule
  position : Nat
  /-- One slot for each position. -/
  slots : List (Slot α)
  /-- It is a copy. -/
  shared : Bool
  /-- The repetitions that a copy counted at each position, once it counted any. -/
  pending : Option (List Nat)

namespace Slot

/-- How many repetitions a slot holds. -/
def count : Slot α → Nat
  | .many as => as.length
  | .vacant | .one _ => 0

/-- One repetition more. -/
def gather (a : α) : Slot α → Slot α
  | .many as => .many (as ++ [a])
  | s => s

end Slot

namespace SlotFrame

/-- A frame before its first position. -/
def start (lhs : Symbol) (r : Rule) : SlotFrame α := ⟨lhs, r, 0, r.map (.leave · []), false, none⟩

/-- Every position is finished. -/
def isComplete (F : SlotFrame α) : Bool := F.position == F.rule.length

/-- The element at the current position. -/
def element? (F : SlotFrame α) : Option Element := F.rule[F.position]?

/-- The repetitions at a position: those in its slot and those counted beside it. -/
def repetitionsAt (F : SlotFrame α) (i : Nat) : Nat :=
  (F.slots[i]?.elim 0 Slot.count) + F.pending.elim 0 (·.getD i 0)

/-- The repetitions at the current position. -/
def repetitions (F : SlotFrame α) : Nat := F.repetitionsAt F.position

/-- Count one repetition more at the current position. -/
def countOne (F : SlotFrame α) : SlotFrame α :=
  { F with
    pending := some ((F.pending.getD (.replicate F.rule.length 0)).modify F.position (· + 1)) }

/-- **Place a match at the current position.** Repetitions gather, or are counted by a copy;
anything else finishes the position. -/
def put (F : SlotFrame α) (a : α) : SlotFrame α :=
  match F.element? with
  | none => F
  | some e =>
    if e.repeats then
      if F.shared then F.countOne else { F with slots := F.slots.modify F.position (·.gather a) }
    else { F with slots := F.slots.set F.position (.one a), position := F.position + 1 }

/-- Leave the current position. The slot of an option is cleared. -/
def skip (F : SlotFrame α) : Quantifier → SlotFrame α
  | .opt => { F with slots := F.slots.set F.position .vacant, position := F.position + 1 }
  | .star | .plus => { F with position := F.position + 1 }

/-- **A copy for a trial.** -/
def copy (F : SlotFrame α) : SlotFrame α := { F with shared := true }

end SlotFrame

/-- How a frame in progress is kept. -/
def Frame.stored (g : Grammar) (f : Frame α) : SlotFrame α :=
  ⟨f.lhs, (g.rule? f.lhs).getD [], f.position, f.slots, false, none⟩

/-! ## The machine -/

/-- **A stack of frames**, innermost first, **and a tape**. -/
structure Machine where
  stack : List (SlotFrame Value)
  tape : Tape

/-- How far a machine got. -/
inductive Outcome where
  /-- The token cannot be taken. -/
  | failed
  /-- The token was taken. -/
  | shifted
  /-- The innermost frame is complete and the token still there. -/
  | completed
  /-- The innermost frame moved on without the token. -/
  | advanced
  deriving DecidableEq

/-- How far a machine got and what became of it, unless the fuel ran out. -/
abbrev Machine.Result := Option (Outcome × Machine)

namespace Machine

variable (E : Engine) (t : Token)

/-- A new frame. -/
def push (m : Machine) (s : Symbol) : Machine :=
  { m with stack := .start s ((E.rule? s).getD []) :: m.stack }

/-- Change the innermost frame. -/
def modifyTop (m : Machine) (h : SlotFrame Value → SlotFrame Value) : Machine :=
  { m with stack := m.stack.modifyHead h }

/-- Take the token. -/
def shift (m : Machine) : Machine := m.modifyTop (·.put (.ofToken t))

/-- Remove the innermost frame and place nothing for it in the next. -/
def reduce (m : Machine) : Machine := { m with stack := m.stack.tail }.modifyTop (·.put .null)

/-- Write a choice. -/
def write (m : Machine) (n : Nat) : Machine := { m with tape := m.tape ++ [n] }

/-- Keep the outermost frames only. -/
def cutStack (m : Machine) (depth : Nat) : Machine :=
  { m with stack := m.stack.drop (m.stack.length - depth) }

/-- Keep the first choices only. -/
def cutTape (m : Machine) (mark : Nat) : Machine := { m with tape := m.tape.take mark }

section Inner

variable (inner : Machine → Machine.Result)

/-- Enter a nonterminal. -/
def enter (s : Symbol) (m : Machine) : Machine.Result :=
  match inner (m.push E s) with
  | some (.completed, m) => some (.advanced, m.reduce)
  | x => x

/-- Meet a symbol. -/
def symbol (s : Symbol) (m : Machine) : Machine.Result :=
  if E.grammar.isNonterminal s then enter E inner s m
  else if s = t.tag then some (.shifted, m.shift t)
  else some (.failed, m)

/-- **Try an occurrence of a nonterminal.** If it comes to nothing, the frames and the choices made
for it go, and a zero is written instead. One that takes no token is kept only if that is
accepted. -/
def speculate (s : Symbol) (acceptEmpty : Bool) (m : Machine) : Machine.Result :=
  let undo (m' : Machine) := ((m'.cutStack m.stack.length).cutTape m.tape.length).write 0
  match inner ((m.write 1).push E s) with
  | some (.shifted, m') => some (.shifted, m')
  | some (.completed, m') =>
    if acceptEmpty then some (.advanced, m'.reduce) else some (.failed, undo m')
  | some (_, m') => some (.failed, undo m')
  | none => none

/-- Try an occurrence of a quantified symbol. -/
def occurrence (s : Symbol) (acceptEmpty : Bool) (m : Machine) : Machine.Result :=
  if E.grammar.isNonterminal s then speculate E inner s acceptEmpty m
  else if s = t.tag then some (.shifted, m.shift t)
  else some (.failed, m)

/-- A repeated symbol, of which `least` occurrences are required. -/
def repetition (q : Quantifier) (s : Symbol) (least : Nat) (m : Machine) : Machine.Result :=
  let count := m.stack.head?.elim 0 SlotFrame.repetitions
  match occurrence E t inner s (count < least) m with
  | some (.failed, m) =>
    if count < least then some (.failed, m) else some (.advanced, m.modifyTop (·.skip q))
  | x => x

/-- An optional symbol. -/
def option (s : Symbol) (m : Machine) : Machine.Result :=
  match occurrence E t inner s true m with
  | some (.failed, m) => some (.advanced, m.modifyTop (·.skip .opt))
  | x => x

/-- **Try numbered options.** The number of each is written over that of the one before. -/
def tryOptions (mark : Nat) : List (Nat × Symbol) → Machine → Machine.Result
  | [], m => some (.failed, m.cutTape mark)
  | (i, s) :: rest, m =>
    let m := { m with tape := (m.tape.take (mark + 1)).set mark i }
    match symbol E t inner s m with
    | some (.failed, m') => tryOptions mark rest (m'.cutStack m.stack.length)
    | x => x

/-- Meet the element at the current position. -/
def element (e : Element) (m : Machine) : Machine.Result :=
  match e with
  | .symbol s => symbol E t inner s m
  | .quantified .star s => repetition E t inner .star s 0 m
  | .quantified .plus s => repetition E t inner .plus s 1 m
  | .quantified .opt s => option E t inner s m
  | .choice options =>
    tryOptions E t inner m.tape.length (E.trialOrder t.tag options) (m.write 0)

end Inner

/-- **Run the innermost frame** until the token is taken, the frame is complete, or neither can
be. -/
def step : (fuel : Nat) → Machine → Machine.Result
  | 0, _ => none
  | fuel + 1, m =>
    match m.stack with
    | [] => none
    | F :: _ =>
      if F.isComplete then some (.completed, m)
      else
        match F.element? with
        | none => none
        | some e =>
          match element E t (step fuel) e m with
          | some (.advanced, m) => step fuel m
          | x => x

/-- **Run a stack**, for some rounds. A root that is `fresh` and completes without the token would
start forever. -/
def run : (rounds : Nat) → (fresh : Bool) → Machine → Machine.Result
  | 0, _, _ => none
  | rounds + 1, fresh, m =>
    match step E t E.fuel m with
    | some (.completed, m) =>
      if fresh && m.stack.length == 1 then some (.failed, m)
      else if m.reduce.stack.isEmpty then run rounds true (m.reduce.push E rootName)
      else run rounds fresh m.reduce
    | x => x

/-- **Offer the token to copies of the frames.** Each round but the last removes a frame. -/
def offer (stack : List (SlotFrame Value)) : Machine.Result :=
  let m : Machine := ⟨stack.map SlotFrame.copy, []⟩
  if stack.isEmpty then run E t 1 true (m.push E rootName) else run E t (stack.length + 1) false m

end Machine

end PushParser
