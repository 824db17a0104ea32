import PushParser.Grammar.Element
import PushParser.Value.Text

/-!
# Written definitions

A **`Form`** is what may be written as a right-hand side or as one of its elements. Not every form
makes sense: a form can be unset, nest a sequence, or be of a type that no rule admits. The checks
are made elsewhere; here is what can be written and how it prints.

* `Form.apply`: an operator applied to symbols;
* `Form.typeName`: the printed name of a form's type;
* `Form.dump`: the printed form of a form.
-/

namespace PushParser

open Text (quote)

/-- The printed name of a type of grammars and their parts. -/
def grammarType (name : String) : String := "scan." ++ name

/-- The kinds of composite forms. -/
inductive Shape where
  /-- An operator applied to operands, not checked yet. -/
  | node
  /-- A quantified symbol. -/
  | quantified (q : Quantifier)
  /-- A choice between symbols. -/
  | choice
  deriving DecidableEq, Inhabited

/-- The printed name of a kind of composite forms. -/
def Shape.typeName : Shape → String
  | .node => grammarType "Node"
  | .quantified .star => grammarType "ZeroOrMore"
  | .quantified .plus => grammarType "OneOrMore"
  | .quantified .opt => grammarType "Optional"
  | .choice => grammarType "Alternation"

/-- A value of a type that no rule admits. All that is ever said of it is how it prints. -/
structure Foreign where
  /-- The printed name of its type. -/
  typeName : String
  /-- Its printed form. -/
  dump : String
  deriving DecidableEq, Inhabited

/-- **What may be written** as a right-hand side or an element. -/
inductive Form where
  /-- Nothing is written. -/
  | unset
  /-- A plain name. -/
  | name (s : String)
  /-- An element in canonical form. -/
  | element (e : Element)
  /-- A numbered operator with its operands, `boxed` when held by reference. -/
  | operator (boxed : Bool) (code : Int) (operands : List Form)
  /-- A sequence of forms. -/
  | sequence (items : List Form)
  /-- A sequence of plain names. -/
  | names (items : List String)
  /-- A sequence of canonical elements, some of which may be unset. -/
  | rule (items : List (Option Element))
  /-- A reference to a composite form that leads nowhere. -/
  | absent (shape : Shape)
  | int (n : Int)
  | bool (b : Bool)
  | foreign (x : Foreign)
  deriving Inhabited

/-- A list with its type in front. An empty list prints nothing. -/
def dumpList (typeName : String) (items : List String) : String :=
  match items with
  | [] => ""
  | _ => typeName ++ braced (", ".intercalate items)

/-- The type that leads a list of symbols. -/
def symbolsType : String := "[]" ++ grammarType "Symbol"

/-- A numbered operator with its type in front. -/
def dumpOperator (code : Int) : String :=
  grammarType "Kind" ++ "(" ++ Operator.codeLabel code ++ ")"

/-- A symbol with its type in front. -/
def dumpSymbol (s : Symbol) : String := grammarType "Symbol" ++ "(" ++ quote s ++ ")"

namespace Element

/-- The printed name of an element's type. -/
def typeName : Element → String
  | .symbol _ => grammarType "Symbol"
  | .quantified q _ => "*" ++ (Shape.quantified q).typeName
  | .choice _ => "*" ++ Shape.choice.typeName

/-- The fields of an element. A field with an empty symbol is left out. -/
def dumpFields : Element → String
  | .symbol s => dumpSymbol s
  | .quantified q s =>
    (Shape.quantified q).typeName ++ braced (if s = "" then "" else "Operand: " ++ dumpSymbol s)
  | .choice ss =>
    Shape.choice.typeName ++
      braced ("Operands: " ++ dumpList symbolsType (ss.map dumpSymbol))

/-- The printed form of an element as a value. -/
def dump : Element → String
  | .symbol s => dumpSymbol s
  | e => "&" ++ e.dumpFields

end Element

namespace Foreign

/-- Samples of such values, each of another type. -/
def samples : List Foreign := [
  ⟨"float64", "1.5"⟩,
  ⟨"int32", "120"⟩,
  ⟨grammarType "Kind", dumpOperator 1⟩,
  ⟨"*" ++ grammarType "Symbol", "&" ++ dumpSymbol "a"⟩,
  ⟨(Shape.quantified .star).typeName, (Element.quantified .star "a").dumpFields⟩,
  ⟨Shape.choice.typeName, (Element.choice ["a"]).dumpFields⟩,
  ⟨"token.Token", Token.literal ⟨"a", .null⟩⟩,
  ⟨recordType, recordType ++ braced ""⟩,
  ⟨grammarType "Definitions", grammarType "Definitions" ++ braced ""⟩,
  ⟨symbolsType, dumpList symbolsType [dumpSymbol "a"]⟩,
  ⟨"[]int", dumpList "[]int" ["1"]⟩]

/-- The sample of a type. -/
def ofTypeName? (t : String) : Option Foreign := samples.find? (·.typeName == t)

end Foreign

namespace Form

/-- An operator applied to symbols, as it is usually written. -/
def apply (op : Operator) (ss : List Symbol) : Form := .operator true op.code (ss.map .name)

/-- **The printed name of a form's type.** -/
def typeName : Form → String
  | .unset => "<nil>"
  | .name _ => "string"
  | .element e => e.typeName
  | .operator boxed _ _ => (if boxed then "*" else "") ++ Shape.node.typeName
  | .sequence _ => listType
  | .names _ => "[]string"
  | .rule _ => grammarType "Rule"
  | .absent shape => "*" ++ shape.typeName
  | .int _ => "int"
  | .bool _ => "bool"
  | .foreign x => x.typeName

/-- The field that holds an operator's number, left out when that is zero. -/
def dumpCode (code : Int) : String :=
  if code = 0 then "" else "Kind: " ++ dumpOperator code ++ ", "

mutual

/-- **The printed form of a form.** -/
def dump : Form → String
  | .unset => "nil"
  | .name s => quote s
  | .element e => e.dump
  | .operator boxed code operands =>
    (if boxed then "&" else "") ++ Shape.node.typeName ++
      braced (dumpCode code ++ "Operands: " ++ dumpList listType (dumpAll operands))
  | .sequence items => dumpList listType (dumpAll items)
  | .names items => dumpList "[]string" (items.map quote)
  | .rule items =>
    dumpList (grammarType "Rule") (items.map fun e? => match e? with
      | none => "nil"
      | some e => e.dump)
  | .absent _ => "nil"
  | .int n => toString n
  | .bool b => if b then "true" else "false"
  | .foreign x => x.dump

/-- The printed forms of a list of forms. -/
def dumpAll : List Form → List String
  | [] => []
  | f :: fs => f.dump :: dumpAll fs

end

end Form

/-- The report of an element that nothing can match. -/
def coverageMessage (rule : String) (e : Form) : String :=
  rule ++ ": no matcher for element " ++ e.typeName ++ " " ++ e.dump

end PushParser
