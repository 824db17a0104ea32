import PushParser.Arithmetic.Names
import PushParser.Grammar.Form

/-!
# Fragments of arithmetic grammars

A **`Fragment`** is a nonterminal of an arithmetic grammar together with its rule. Adding it to a
**`Template`** adds the fragments it needs as well, unless it is there already.

* `Flavor`: whether the delta operator belongs to the grammar;
* `Fragment.symbol`, `Fragment.form`, `Fragment.needs`: what a fragment consists of;
* **`Template.add`**: adds a fragment and all it needs.
-/

namespace PushParser.Arithmetic

/-- **Extensions of the grammar.** -/
inductive Flavor where
  /-- Arithmetic and no more. -/
  | plain
  /-- A delta key followed by plus or minus acts as one additive operator. -/
  | calculator
  deriving DecidableEq, Inhabited

namespace Flavor

/-- The printed name. -/
def label : Flavor → String
  | .plain => "plain"
  | .calculator => "calculator"

/-- The flavor with a given number. -/
def ofCode? : Int → Option Flavor
  | 0 => some .plain
  | 1 => some .calculator
  | _ => none

/-- The printed name of a numbered flavor. -/
def codeLabel (code : Int) : String :=
  match ofCode? code with
  | some f => f.label
  | none => "unknown"

end Flavor

/-- **A part of an arithmetic grammar.** Digits come as tokens, so theirs has no rule. -/
inductive Fragment where
  | digit | number | signedNumber | parenExpression | factor | mulOperator | term | deltaOperator
  | addOperator | expression
  deriving DecidableEq, Inhabited

namespace Fragment

/-- The role of the symbol that a fragment defines. -/
def role : Fragment → Role
  | .digit => .digit
  | .number => .number
  | .signedNumber => .signedNumber
  | .parenExpression => .parenExpression
  | .factor => .factor
  | .mulOperator => .mulOperator
  | .term => .term
  | .deltaOperator => .deltaOperator
  | .addOperator => .addOperator
  | .expression => .expression

/-- All fragments. -/
def all : List Fragment :=
  [.digit, .number, .signedNumber, .parenExpression, .factor, .mulOperator, .term, .deltaOperator,
    .addOperator, .expression]

variable (n : Names) (flavor : Flavor)

/-- The rule of a fragment, as it is written. -/
def form : Fragment → Option Form
  | .digit => none
  | .number => some (.sequence [.name (n .digit), Form.apply (.quantifier .star) [n .digit]])
  | .signedNumber => some (.sequence [Form.apply (.quantifier .opt) [n .minus], .name (n .number)])
  | .parenExpression =>
    some (.sequence [.name (n .lparen), .name (n .expression), .name (n .rparen)])
  | .factor => some (.sequence [Form.apply .choice [n .signedNumber, n .parenExpression]])
  | .mulOperator => some (.sequence [Form.apply .choice [n .multiply, n .divide]])
  | .term =>
    some (.sequence
      [.name (n .factor), Form.apply (.quantifier .star) [n .mulOperator, n .factor]])
  | .deltaOperator => some (.sequence [.name (n .delta), Form.apply .choice [n .plus, n .minus]])
  | .addOperator =>
    match flavor with
    | .plain => some (.sequence [Form.apply .choice [n .plus, n .minus]])
    | .calculator => some (.sequence [Form.apply .choice [n .plus, n .minus, n .deltaOperator]])
  | .expression =>
    some (.sequence [.name (n .term), Form.apply (.quantifier .star) [n .addOperator, n .term]])

/-- The fragments that the rule of a fragment mentions. -/
def needs : Fragment → List Fragment
  | .digit | .mulOperator | .deltaOperator => []
  | .number => [.digit]
  | .signedNumber => [.number]
  | .parenExpression => [.expression]
  | .factor => [.signedNumber, .parenExpression]
  | .term => [.factor, .mulOperator]
  | .addOperator =>
    match flavor with
    | .plain => []
    | .calculator => [.deltaOperator]
  | .expression => [.term, .addOperator]

end Fragment

/-- **Definitions gathered from fragments.** -/
abbrev Template := NameMap Form

namespace Template

variable (n : Names) (flavor : Flavor)

/-- Add a fragment, and what it needs, going at most `fuel` fragments deep. -/
def addWithin : (fuel : Nat) → Template → Fragment → Template
  | 0, t, _ => t
  | fuel + 1, t, x =>
    match x.form n flavor with
    | none => t
    | some f =>
      if t.contains (n x.role) then t
      else (x.needs flavor).foldl (addWithin fuel) (t.insert (n x.role) f)

/-- **Add a fragment and all it needs.** Each level adds a rule, so it ends within as many levels as
there are fragments. -/
def add (t : Template) (x : Fragment) : Template :=
  addWithin n flavor (Fragment.all.length + 1) t x

/-- Add fragments in order. -/
def addAll (t : Template) (xs : List Fragment) : Template := xs.foldl (add n flavor) t

end Template

end PushParser.Arithmetic
