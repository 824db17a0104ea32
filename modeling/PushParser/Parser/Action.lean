import PushParser.Parser.Algebra

/-!
# Standard actions

An **`Action`** says what a nonterminal reduces to.

* `Value.countAll`: the number of tokens, integers counting for themselves;
* `Value.flattenAll`: the text of values, tokens standing for their strings;
* **`Action.run`**: the value of a reduction.
-/

namespace PushParser

namespace Value

mutual

/-- The number of tokens in a value, added to `sum`. An integer counts for itself, and sums wrap
around at 64 bits. -/
def countOnto (sum : Int64) : Value → Int64
  | .token _ _ => sum + 1
  | .int n => sum + n
  | .list vs => countAllOnto sum vs
  | _ => sum

/-- The counts of the items of a list, added to `sum`. -/
def countAllOnto (sum : Int64) : List Value → Int64
  | [] => sum
  | v :: vs => countAllOnto (countOnto sum v) vs

end

mutual

/-- The text of a value, appended to `text`: a token that carries a string stands for it, and a list
for the texts of its items one after the other. -/
def flattenOnto (text : String) : Value → String
  | .token _ (.str s) => text ++ s
  | .list vs => flattenAllOnto text vs
  | .null => text
  | v => text ++ v.display

/-- The texts of the items of a list, appended to `text` one after the other. -/
def flattenAllOnto (text : String) : List Value → String
  | [] => text
  | v :: vs => flattenAllOnto (flattenOnto text v) vs

end

/-- The number of tokens in values. -/
def countAll (vs : List Value) : Int64 := countAllOnto 0 vs

/-- The texts of values, one after the other. -/
def flattenAll (vs : List Value) : String := flattenAllOnto "" vs

end Value

/-- **What a nonterminal reduces to.** -/
inductive Action where
  /-- The list of the children. -/
  | children
  /-- The first child. -/
  | first
  /-- The last child. -/
  | last
  /-- Null. -/
  | null
  /-- The number of children. -/
  | length
  /-- The number of tokens in the children. -/
  | count
  /-- The text of the children. -/
  | text
  /-- The text of the children in angle brackets after the nonterminal. -/
  | wrap
  /-- Always the same value. -/
  | const (v : Value)
  deriving Inhabited

/-- The value of a reduction. -/
def Action.run : Action → Actions
  | .children, _, vs => .list vs
  | .first, _, vs => vs.head?.getD .null
  | .last, _, vs => vs.getLast?.getD .null
  | .null, _, _ => .null
  | .length, _, vs => .int (Int64.ofNat vs.length)
  | .count, _, vs => .int (Value.countAll vs)
  | .text, _, vs => .str (Value.flattenAll vs)
  | .wrap, lhs, vs => .str (lhs ++ "<" ++ Value.flattenAll vs ++ ">")
  | .const v, _, _ => v

end PushParser
