import PushParser.Grammar.Element

/-!
# Searches in a graph of symbols

A graph is given by the successors of each symbol, in order.

* **`findCycle`**: depth first, the first cycle met;
* **`breadthFirst`**: the symbols reached from a start, nearest first.
-/

namespace PushParser

variable (next : Symbol → List Symbol)

/-! ## Cycles -/

/-- Visit one symbol after the other by `visitOne`, until a cycle is found. -/
def visitAll (visitOne : List Symbol → Symbol → Except (List Symbol) (List Symbol))
    (finished : List Symbol) : List Symbol → Except (List Symbol) (List Symbol)
  | [] => .ok finished
  | t :: ts =>
    match visitOne finished t with
    | .error cycle => .error cycle
    | .ok finished => visitAll visitOne finished ts

/-- Visit `s` and what can be reached from it, depth first. The `path` leads to `s`, innermost
first, and `finished` holds what has been visited. Meeting the path again gives a cycle, outermost
first; otherwise the result is all that has been visited by then. -/
def visit : (fuel : Nat) → (path finished : List Symbol) → Symbol →
    Except (List Symbol) (List Symbol)
  | 0, _, finished, _ => .ok finished
  | fuel + 1, path, finished, s =>
    if s ∈ path then .error (path.takeWhile (· ≠ s) ++ [s]).reverse
    else if s ∈ finished then .ok finished
    else
      match visitAll (visit fuel (s :: path)) finished (next s) with
      | .error cycle => .error cycle
      | .ok finished => .ok (s :: finished)

/-- **The first cycle met** when visiting the symbols in order. No path has more symbols than there
are, so the fuel lasts. -/
def findCycle (symbols : List Symbol) : Option (List Symbol) :=
  match visitAll (visit next (symbols.length + 1) []) [] symbols with
  | .error cycle => some cycle
  | .ok _ => none

/-! ## Reachability -/

/-- The symbols of a list that are not in `seen`, each once. -/
def unseen (seen : List Symbol) : List Symbol → List Symbol
  | [] => []
  | t :: ts => if t ∈ seen then unseen seen ts else t :: unseen (t :: seen) ts

/-- Take the symbols of the queue in turn, and queue those successors not seen before. -/
def breadthFirstFrom : (fuel : Nat) → (queue seen : List Symbol) → List Symbol
  | 0, _, _ => []
  | _ + 1, [], _ => []
  | fuel + 1, s :: queue, seen =>
    let new := unseen seen (next s)
    s :: breadthFirstFrom fuel (queue ++ new) (seen ++ new)

/-- **The symbols reached from `start`**, nearest first, when there are at most `bound`. -/
def breadthFirst (bound : Nat) (start : Symbol) : List Symbol :=
  breadthFirstFrom next bound [start] [start]

end PushParser
