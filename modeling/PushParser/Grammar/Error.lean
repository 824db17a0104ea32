import PushParser.Grammar.Element

/-!
# Configuration errors

What can be wrong with a set of definitions, as causes. The wording is in the functions `message`
and nowhere else.

* `ElementFault`: one position of a rule is malformed;
* `RuleFault`: one rule is malformed;
* **`ConfigurationError`**: a set of definitions gives no grammar, or the grammar fails
  verification.
-/

namespace PushParser

/-- What is wrong with one position of a rule. Labels and type names are printed forms. -/
inductive ElementFault where
  | unset
  | emptySymbol
  | emptyOperand (label : String)
  | noOperands (label : String)
  | unsetOperand (label : String)
  | compositeOperand (label typeName : String)
  | nestedSequence
  | unsupported (typeName : String)
  | unknownOperator (label : String)
  deriving DecidableEq, Inhabited

/-- The wording of a fault at `position`, which counts from zero. -/
def ElementFault.message (position : Nat) : ElementFault → String
  | .unset => "element " ++ toString position ++ " is unset"
  | .emptySymbol => "element " ++ toString position ++ " is an empty symbol"
  | .emptyOperand l => l ++ " at element " ++ toString position ++ " has an empty operand"
  | .noOperands l => l ++ " at element " ++ toString position ++ " has no operands"
  | .unsetOperand l => l ++ " at element " ++ toString position ++ " has an unset operand"
  | .compositeOperand l t =>
    l ++ " at element " ++ toString position ++ " has a composite operand " ++ t ++
      "; name it as a nonterminal instead"
  | .nestedSequence =>
    "element " ++ toString position ++
      " is a nested sequence; name it as a nonterminal instead"
  | .unsupported t => "element " ++ toString position ++ " has unsupported type " ++ t
  | .unknownOperator l =>
    "element " ++ toString position ++ " has unknown operator kind " ++ l

/-- What is wrong with one rule. -/
inductive RuleFault where
  | unset
  | emptySequence
  | element (position : Nat) (fault : ElementFault)
  deriving DecidableEq, Inhabited

/-- The wording of a fault in a rule. -/
def RuleFault.message : RuleFault → String
  | .unset => "right-hand side is unset"
  | .emptySequence => "right-hand side is an empty sequence"
  | .element position fault => fault.message position

/-- **Why definitions give no grammar**, or a grammar fails verification. -/
inductive ConfigurationError where
  /-- There are no definitions. -/
  | emptyRuleSet
  /-- The root nonterminal has no definition. -/
  | noRoot
  /-- The rule of `lhs` is malformed. -/
  | inRule (lhs : Symbol) (fault : RuleFault)
  /-- Each nonterminal of the cycle can be entered from the one before it, and the first from the
  last, before a token is taken. Each comes with its production. -/
  | leftRecursion (cycle : List (Symbol × String))
  /-- Nonterminals that root does not reach: line and name of each production. -/
  | unreachable (productions : List (Nat × String))
  /-- There is no grammar to parse with. -/
  | noGrammar
  deriving DecidableEq, Inhabited

/-- A message about a rule, led by the rule's name unless that is empty. -/
def inContext (rule message : String) : String :=
  if rule = "" then message else rule ++ ": " ++ message

/-- The report of a production that root does not reach, by its line and its name. -/
def unreachableReport (line : Nat) (name : String) : String :=
  "root:" ++ toString line ++ ":1: " ++ name ++ " is unreachable"

/-- The report of all of them: the first is named and the others are counted. -/
def unreachableReports : List (Nat × String) → String
  | [] => ""
  | [(line, name)] => unreachableReport line name
  | (line, name) :: others =>
    unreachableReport line name ++ " (and " ++ toString others.length ++ " more errors)"

namespace ConfigurationError

/-- The rule an error was found in, or the empty name. -/
def rule : ConfigurationError → String
  | .inRule lhs _ => lhs
  | _ => ""

/-- The wording of an error, without the rule. -/
def reason : ConfigurationError → String
  | .emptyRuleSet => "empty rule set"
  | .noRoot => "no \"root\" rule"
  | .inRule _ fault => fault.message
  | .leftRecursion cycle =>
    "left recursion detected on\n\n" ++ "\n".intercalate (cycle.map fun p => "  " ++ p.2)
  | .unreachable productions => unreachableReports productions
  | .noGrammar => "nil grammar"

/-- **The wording of an error.** -/
def message (e : ConfigurationError) : String := inContext e.rule e.reason

end ConfigurationError

end PushParser
