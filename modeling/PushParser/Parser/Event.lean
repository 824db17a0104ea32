import PushParser.Parser.Frame

/-!
# Rejections and events

* **`Rejection`**: a token that could not be taken, and what was expected instead;
* **`Event`**: what a parser does, in the order it does it. Reductions carry contents of any type;
* `Event.traceLine`: the line an event leaves in a trace, indented by the depth of the stack.
-/

namespace PushParser

open Text (quote)

/-- **A token that could not be taken.** -/
structure Rejection where
  token : Token
  /-- The printed form of what was expected. -/
  expected : String
  deriving Inhabited

/-- The wording of a rejection. -/
def Rejection.message (r : Rejection) : String :=
  "unexpected " ++ quote r.token.tag ++ " token " ++ r.token.value.dump ++
    if r.expected = "" then "" else " (expected " ++ r.expected ++ ")"

/-- **What a parser does.** Depths count the frames on the stack. -/
inductive Event (α : Type) where
  /-- A token was taken by the frame of `lhs`, the innermost of `depth`. -/
  | shift (depth : Nat) (lhs : Symbol) (token : Token)
  /-- A frame of `lhs` with the given slots was reduced to `result` and left `depth` others. -/
  | reduce (depth : Nat) (lhs : Symbol) (slots : List (Slot α)) (result : α)
  /-- A token was rejected. -/
  | reject (depth : Nat) (rejection : Rejection)
  /-- A listener was told of a rejected token. -/
  | told (listener : String) (token : Token)
  /-- A listener had the parser observe a token while it was rejecting another. -/
  | nested (accepted : Bool)
  deriving Inhabited

/-- Two blanks for each frame. -/
def indentation : (depth : Nat) → String
  | 0 => ""
  | depth + 1 => "  " ++ indentation depth

namespace Event

/-- Change the contents. -/
def map {α β : Type} (h : α → β) : Event α → Event β
  | .shift depth lhs t => .shift depth lhs t
  | .reduce depth lhs slots result => .reduce depth lhs (slots.map (Slot.map h)) (h result)
  | .reject depth r => .reject depth r
  | .told listener t => .told listener t
  | .nested accepted => .nested accepted

/-- The line an event leaves in a trace. -/
def traceLine : Event Value → Option String
  | .shift depth lhs t =>
    some (indentation depth ++ "shift " ++ lhs ++ " " ++ t.value.dump ++ "\n")
  | .reduce depth lhs _ result =>
    some (indentation depth ++ "reduce " ++ lhs ++ " = " ++ result.dump ++ "\n")
  | .reject depth r => some (indentation depth ++ "reject " ++ r.message ++ "\n")
  | .told _ _ | .nested _ => none

/-- The trace of a list of events. -/
def trace (events : List (Event Value)) : String := "".intercalate (events.filterMap traceLine)

end Event

end PushParser
