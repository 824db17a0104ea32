import PushParser.Queue

/-!
# Families of queues

A **`Family`** is a list of queues that grows by cloning, each a value of its own. Every operation
is addressed to one queue by its place in the list. This is what queues in a shared memory have to
live up to.

* `Operation`, `Reply`: what can be asked of a queue, and what it answers;
* `Queue.perform`: one operation on one queue;
* **`Family.perform`**, `Family.performAll`: one operation on a family, and one after the other.
-/

namespace PushParser

/-- What can be asked of a queue. -/
inductive Operation where
  | push (t : Token)
  | peek
  | next
  | drop
  | reset
  /-- Append a copy of the queue to the family. -/
  | clone
  deriving Inhabited

/-- What a queue answers. -/
inductive Reply where
  | done
  /-- A push failed. -/
  | full (e : QueueFull)
  /-- The token at the head, if there is one. -/
  | head (t? : Option Token)

/-- One operation on one queue. -/
def Queue.perform (q : Queue) : Operation → Queue × Reply
  | .push t =>
    match q.push t with
    | .ok q => (q, .done)
    | .error e => (q, .full e)
  | .peek => (q, .head q.peek)
  | .next => (q.next.2, .head q.next.1)
  | .drop => (q.drop, .done)
  | .reset => (q.reset, .done)
  | .clone => (q, .done)

/-- **A list of queues that grows by cloning.** -/
abbrev Family := List Queue

namespace Family

/-- The copies that an operation on `q` adds to a family. -/
def copies (q : Queue) : Operation → Family
  | .clone => [q]
  | _ => []

/-- **One operation, addressed to the `i`-th queue**, if there is one. -/
def perform (qs : Family) (i : Nat) (op : Operation) : Option (Family × Reply) :=
  match qs[i]? with
  | none => none
  | some q => some (qs.set i (q.perform op).1 ++ copies q op, (q.perform op).2)

/-- **Operations one after the other**, each with the place of the queue it is addressed to. -/
def performAll (qs : Family) : List (Nat × Operation) → Option Family
  | [] => some qs
  | step :: steps => (qs.perform step.1 step.2).bind fun r => performAll r.1 steps

end Family

end PushParser
