import PushParser.Text.Quoted
import PushParser.Value

/-!
# The printed forms of values

A value has three printed forms.

* **`Value.display`** is the plain one: strings as they are, lists in brackets, items separated by
  blanks.
* **`Value.literal`** is the exact one: strings quoted, lists and records led by their type. Null is
  led by its type, too, but only inside a list or a record.
* **`Value.dump`** is the one used by traces and rejections. It differs from the literal form in
  three places: null is `nil` everywhere, an empty list prints nothing at all, and a blank follows
  the colon of a field.

A token prints as its tag with its value in parentheses in the plain form, and as `Token` with a
quoted tag in the other two.
-/

namespace PushParser

open Text (quote)

/-- Text between braces. -/
def braced (s : String) : String := "\x7b" ++ s ++ "\x7d"

/-- The type that leads a list. -/
def listType : String := "[]interface \x7b\x7d"

/-- The type that leads a record. -/
def recordType : String := "map[string]interface \x7b\x7d"

/-- Null inside a list or a record. -/
def typedNull : String := "interface \x7b\x7d(nil)"

namespace Value

mutual

/-- **The plain form.** -/
def display : Value → String
  | .null => "<nil>"
  | .bool b => if b then "true" else "false"
  | .int n => toString n.toInt
  | .str s => s
  | .list vs => "[" ++ " ".intercalate (displayAll vs) ++ "]"
  | .record fs => "map[" ++ " ".intercalate (displayFields fs) ++ "]"
  | .token tag v => if v.isNull then tag else tag ++ "(" ++ display v ++ ")"

/-- The plain forms of the items of a list. -/
def displayAll : List Value → List String
  | [] => []
  | v :: vs => display v :: displayAll vs

/-- The plain forms of the fields of a record. -/
def displayFields : List (String × Value) → List String
  | [] => []
  | (name, v) :: fs => (name ++ ":" ++ display v) :: displayFields fs

end

mutual

/-- **The exact form.** -/
def literal : Value → String
  | .null => "<nil>"
  | .bool b => if b then "true" else "false"
  | .int n => toString n.toInt
  | .str s => quote s
  | .list vs => listType ++ braced (", ".intercalate (literalAll vs))
  | .record fs => recordType ++ braced (", ".intercalate (literalFields fs))
  | .token tag v => "Token" ++ braced (quote tag ++ ", " ++ literal v)

/-- The exact forms of the items of a list. -/
def literalAll : List Value → List String
  | [] => []
  | v :: vs => (if v.isNull then typedNull else literal v) :: literalAll vs

/-- The exact forms of the fields of a record. -/
def literalFields : List (String × Value) → List String
  | [] => []
  | (name, v) :: fs =>
    (quote name ++ ":" ++ (if v.isNull then typedNull else literal v)) ::
      literalFields fs

end

mutual

/-- **The form used by traces and rejections.** -/
def dump : Value → String
  | .null => "nil"
  | .bool b => if b then "true" else "false"
  | .int n => toString n.toInt
  | .str s => quote s
  | .list [] => ""
  | .list (v :: vs) => listType ++ braced (", ".intercalate (dump v :: dumpAll vs))
  | .record fs => recordType ++ braced (", ".intercalate (dumpFields fs))
  | .token tag v => literal (.token tag v)

/-- The dumps of the items of a list. -/
def dumpAll : List Value → List String
  | [] => []
  | v :: vs => dump v :: dumpAll vs

/-- The dumps of the fields of a record. -/
def dumpFields : List (String × Value) → List String
  | [] => []
  | (name, v) :: fs => (quote name ++ ": " ++ dump v) :: dumpFields fs

end

end Value

namespace Token

/-- The tag, followed by the value in parentheses unless it is null. -/
def display (t : Token) : String := (Value.ofToken t).display

/-- The exact form of a token. -/
def literal (t : Token) : String := (Value.ofToken t).literal

end Token

end PushParser
