import PushParser.Queue.Family
import PushParser.Queue.Slice

/-!
# Queues in shared memory

A queue is a **`Handle`**: a limit and a slice of tokens. Handles are cheap to change and say
nothing by themselves; the tokens lie in a memory that all queues of a **`Store`** have in common.
Taking a token from the head and resetting cut the slice, and a push appends to it. Only a clone
asks for an array of its own, and copies the tokens there.

* `Handle.create`, `push`, `peek`, `next`, `drop`, `reset`, **`Handle.clone`**: the operations;
* **`Store.perform`**: one operation, addressed to a queue by its place;
* `Store.performAll`: one operation after the other.
-/

namespace PushParser

/-- **A queue in memory.** -/
structure Handle where
  limit : Nat
  tokens : Slice
  deriving DecidableEq, Inhabited

namespace Handle

/-- An empty queue for `n` tokens, or for one when `n` is not positive. -/
def create (m : Memory) (n : Int) : Memory × Handle :=
  let limit := if n ≤ 0 then 1 else n.toNat
  let made := m.make 0 limit
  (made.1, ⟨limit, made.2⟩)

variable (m : Memory) (q : Handle)

/-- Append a token, unless the queue is full. -/
def push (spare : Nat → Nat) (t : Token) : Except QueueFull (Memory × Handle) :=
  if q.limit ≤ q.tokens.length then .error ⟨q.limit, t⟩
  else
    let appended := m.append spare q.tokens t
    .ok (appended.1, { q with tokens := appended.2 })

/-- The token at the head. -/
def peek : Option Token := m.get? q.tokens 0

/-- The token at the head and the queue without it. -/
def next : Option Token × Handle :=
  match q.peek m with
  | none => (none, q)
  | some t => (some t, { q with tokens := q.tokens.tail })

/-- Remove the head, if there is one. -/
def drop : Handle := (q.next m).2

/-- Remove every token. -/
def reset : Handle := { q with tokens := q.tokens.clear }

/-- **A queue of its own** with the same tokens. -/
def clone : Memory × Handle :=
  let made := m.make q.tokens.length q.limit
  (made.1.copy made.2 q.tokens, ⟨q.limit, made.2⟩)

end Handle

/-- **Queues that have a memory in common.** -/
structure Store where
  memory : Memory
  handles : List Handle
  deriving Inhabited

namespace Store

/-- One queue. -/
def ofLimit (n : Int) : Store :=
  let created := Handle.create [] n
  ⟨created.1, [created.2]⟩

/-- The tokens of the `i`-th queue, as they lie in memory. -/
def contents (σ : Store) (i : Nat) : List Token :=
  match σ.handles[i]? with
  | none => []
  | some q => σ.memory.read q.tokens

/-- **One operation, addressed to the `i`-th queue**, if there is one. A clone becomes the last
queue. -/
def perform (spare : Nat → Nat) (σ : Store) (i : Nat) (op : Operation) : Option (Store × Reply) :=
  match σ.handles[i]? with
  | none => none
  | some q =>
    match op with
    | .push t =>
      match q.push σ.memory spare t with
      | .ok (m, q') => some (⟨m, σ.handles.set i q'⟩, .done)
      | .error e => some (σ, .full e)
    | .peek => some (σ, .head (q.peek σ.memory))
    | .next =>
      some ({ σ with handles := σ.handles.set i (q.next σ.memory).2 }, .head (q.next σ.memory).1)
    | .drop => some ({ σ with handles := σ.handles.set i (q.drop σ.memory) }, .done)
    | .reset => some ({ σ with handles := σ.handles.set i q.reset }, .done)
    | .clone => some (⟨(q.clone σ.memory).1, σ.handles ++ [(q.clone σ.memory).2]⟩, .done)

/-- **Operations one after the other**, each with the place of the queue it is addressed to. -/
def performAll (spare : Nat → Nat) (σ : Store) : List (Nat × Operation) → Option Store
  | [] => some σ
  | step :: steps =>
    (σ.perform spare step.1 step.2).bind fun r => performAll spare r.1 steps

end Store

end PushParser
