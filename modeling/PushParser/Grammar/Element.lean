/-!
# Symbols, elements and rules

A **`Rule`** is a sequence of elements. An **`Element`** is a symbol, a quantified symbol or a
choice between symbols; whether a symbol is terminal is a matter of the grammar it stands in.

* `Quantifier`, `Operator`: the quantifiers `STAR`, `PLUS`, `OPT`, and with them `ALT`;
* `Element.operands`: the symbols of an element, in order;
* `Element.text`, `Rule.text`: the printed forms.
-/

namespace PushParser

/-- A terminal or nonterminal name. -/
abbrev Symbol := String

/-- The nonterminal every grammar starts from. -/
def rootName : Symbol := "root"

/-- How often a quantified symbol may occur. -/
inductive Quantifier where
  /-- Any number of times. -/
  | star
  /-- At least once. -/
  | plus
  /-- At most once. -/
  | opt
  deriving DecidableEq, Inhabited

namespace Quantifier

/-- The printed name. -/
def label : Quantifier → String
  | .star => "STAR"
  | .plus => "PLUS"
  | .opt => "OPT"

/-- The quantifier admits repetitions. -/
def repeats : Quantifier → Bool
  | .star | .plus => true
  | .opt => false

/-- One more occurrence is required, given whether it would be the `first`. -/
def demands : Quantifier → (first : Bool) → Bool
  | .plus, first => first
  | _, _ => false

/-- One more occurrence counts even if it takes no token, given whether it would be the `first`. An
option may be empty, and so may the one occurrence that `PLUS` requires. -/
def admitsEmpty : Quantifier → (first : Bool) → Bool
  | .star, _ => false
  | .plus, first => first
  | .opt, _ => true

end Quantifier

/-- The operators of a rule. -/
inductive Operator where
  | quantifier (q : Quantifier)
  | choice
  deriving DecidableEq, Inhabited

namespace Operator

/-- The printed name. -/
def label : Operator → String
  | .quantifier q => q.label
  | .choice => "ALT"

/-- The number of an operator. -/
def code : Operator → Int
  | .quantifier .star => 1
  | .quantifier .plus => 2
  | .quantifier .opt => 3
  | .choice => 4

/-- The operator with a given number. -/
def ofCode? : Int → Option Operator
  | 1 => some (.quantifier .star)
  | 2 => some (.quantifier .plus)
  | 3 => some (.quantifier .opt)
  | 4 => some .choice
  | _ => none

/-- The printed name of a numbered operator; a number without an operator prints itself. -/
def codeLabel (code : Int) : String :=
  match ofCode? code with
  | some op => op.label
  | none => "Kind(" ++ toString code ++ ")"

@[simp] theorem ofCode?_code (op : Operator) : ofCode? op.code = some op := by
  rcases op with (_ | _ | _) | _ <;> rfl

@[simp] theorem codeLabel_code (op : Operator) : codeLabel op.code = op.label := by
  simp [codeLabel]

end Operator

/-- **One position of a rule.** -/
inductive Element where
  | symbol (s : Symbol)
  | quantified (q : Quantifier) (s : Symbol)
  | choice (options : List Symbol)
  deriving DecidableEq, Inhabited

namespace Element

/-- The symbols of an element, in order. -/
def operands : Element → List Symbol
  | .symbol s => [s]
  | .quantified _ s => [s]
  | .choice ss => ss

/-- The printed form: a symbol as it is, anything else as an operator with its operands. -/
def text : Element → String
  | .symbol s => s
  | .quantified q s => q.label ++ "(" ++ s ++ ")"
  | .choice ss => "ALT(" ++ ", ".intercalate ss ++ ")"

/-- The element keeps its place while repetitions gather. -/
def repeats : Element → Bool
  | .quantified q _ => q.repeats
  | _ => false

/-- The element may be passed over whatever its operand derives. -/
def isOptional : Element → Bool
  | .quantified .star _ | .quantified .opt _ => true
  | _ => false

end Element

/-- **The right-hand side of a nonterminal.** -/
abbrev Rule := List Element

/-- The printed form of a rule: its elements in brackets. -/
def Rule.text (r : Rule) : String := "[" ++ ", ".intercalate (r.map Element.text) ++ "]"

end PushParser
