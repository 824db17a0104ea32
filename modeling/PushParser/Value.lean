import PushParser.NameMap

/-!
# Values and tokens

A **`Token`** carries a tag, which is all that a parser looks at, and a value, which it hands on
untouched. A **`Value`** is what tokens carry and what reductions yield: null, a boolean, a 64-bit
integer, a string, a list, a record of named values, or a token.

* `Value.ofFields`: a record, its names in increasing order;
* `Token.hasTag`, `Token.tags`: what a parser sees of a token.
-/

namespace PushParser

/-- **A value** carried by a token or yielded by a reduction. -/
inductive Value where
  | null
  | bool (b : Bool)
  | int (n : Int64)
  | str (s : String)
  | list (items : List Value)
  | record (fields : List (String × Value))
  | token (tag : String) (payload : Value)
  deriving Inhabited

/-- **A token**: a terminal symbol and the value that comes with it. -/
structure Token where
  tag : String
  value : Value
  deriving Inhabited

namespace Value

/-- The value is null. -/
def isNull : Value → Bool
  | .null => true
  | _ => false

/-- A record with the given fields; of two fields with one name the later counts. -/
def ofFields (fields : List (String × Value)) : Value :=
  .record (NameMap.ofList fields).entries

/-- A token as a value. -/
def ofToken (t : Token) : Value := .token t.tag t.value

end Value

namespace Token

/-- The token stands for the terminal symbol `tag`. -/
def hasTag (t : Token) (tag : String) : Bool := t.tag == tag

/-- The tags of a list of tokens. -/
def tags (ts : List Token) : List String := ts.map Token.tag

end Token

end PushParser
