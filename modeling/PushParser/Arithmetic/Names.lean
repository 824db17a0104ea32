import PushParser.Grammar.Element
import PushParser.Text.Quoted

/-!
# Names for arithmetic grammars

The symbols of an arithmetic grammar are known by their **`Role`**, and a table of **`Names`**
spells them.

* `Names.verbose`, `Names.terse`, `Names.blank`: tables;
* **`Names.check`**: every name is there, none is the root's, and no two are alike.
-/

namespace PushParser.Arithmetic

open Text (quote)

/-- **What a symbol of an arithmetic grammar is for.** The first nine are terminals. -/
inductive Role where
  | digit | plus | minus | multiply | divide | lparen | rparen | enter | delta
  | number | signedNumber | parenExpression | factor | mulOperator | term | addOperator
  | deltaOperator | expression
  deriving DecidableEq, Inhabited

namespace Role

/-- All roles, in order. -/
def all : List Role :=
  [.digit, .plus, .minus, .multiply, .divide, .lparen, .rparen, .enter, .delta,
    .number, .signedNumber, .parenExpression, .factor, .mulOperator, .term, .addOperator,
    .deltaOperator, .expression]

/-- The printed name of a role. -/
def label : Role → String
  | .digit => "Digit"
  | .plus => "Plus"
  | .minus => "Minus"
  | .multiply => "Multiply"
  | .divide => "Divide"
  | .lparen => "LParen"
  | .rparen => "RParen"
  | .enter => "Enter"
  | .delta => "Delta"
  | .number => "Number"
  | .signedNumber => "SignedNumber"
  | .parenExpression => "ParenExpression"
  | .factor => "Factor"
  | .mulOperator => "MulOperator"
  | .term => "Term"
  | .addOperator => "AddOperator"
  | .deltaOperator => "DeltaOperator"
  | .expression => "Expression"

/-- The role with a printed name. -/
def ofLabel? (s : String) : Option Role := all.find? (·.label == s)

theorem mem_all (r : Role) : r ∈ all := by cases r <;> decide

end Role

/-- **A table of names.** -/
abbrev Names := Role → Symbol

namespace Names

/-- Names in full. -/
def verbose : Names
  | .digit => "digit"
  | .plus => "plus"
  | .minus => "minus"
  | .multiply => "multiply"
  | .divide => "divide"
  | .lparen => "lpar"
  | .rparen => "rpar"
  | .enter => "enter"
  | .delta => "delta"
  | .number => "number"
  | .signedNumber => "signed_number"
  | .parenExpression => "paren_expression"
  | .factor => "factor"
  | .mulOperator => "mul_operator"
  | .term => "term"
  | .addOperator => "add_operator"
  | .deltaOperator => "delta_operator"
  | .expression => "expression"

/-- Short names. -/
def terse : Names
  | .digit => "d"
  | .plus => "+"
  | .minus => "-"
  | .multiply => "*"
  | .divide => "/"
  | .lparen => "("
  | .rparen => ")"
  | .enter => "="
  | .delta => "Δ"
  | .number => "N"
  | .signedNumber => "SN"
  | .parenExpression => "P"
  | .factor => "F"
  | .mulOperator => "MO"
  | .term => "T"
  | .addOperator => "AO"
  | .deltaOperator => "DO"
  | .expression => "E"

/-- No names. -/
def blank : Names := fun _ => ""

/-- Change one name. -/
def set (n : Names) (r : Role) (s : Symbol) : Names := fun r' => if r' = r then s else n r'

/-- The names in the order of their roles. -/
def toList (n : Names) : List Symbol := Role.all.map n

end Names

/-- What is wrong with a table of names. -/
inductive NamesError where
  | empty (role : Role)
  | reserved (role : Role)
  /-- The name was given to an earlier role. -/
  | repeated (role : Role) (name : Symbol) (earlier : Role)
  deriving DecidableEq, Inhabited

/-- The wording of what is wrong. -/
def NamesError.message : NamesError → String
  | .empty r => r.label ++ ": empty symbol"
  | .reserved r => r.label ++ ": " ++ quote rootName ++ " is reserved"
  | .repeated r name earlier =>
    r.label ++ ": symbol " ++ quote name ++ " already used by " ++ earlier.label

namespace Names

/-- Check the names of some roles, given roles already checked. -/
def checkFrom (n : Names) (earlier : List Role) : List Role → Except NamesError Unit
  | [] => .ok ()
  | r :: rest =>
    if n r = "" then .error (.empty r)
    else if n r = rootName then .error (.reserved r)
    else
      match earlier.find? fun e => n e == n r with
      | some e => .error (.repeated r (n r) e)
      | none => checkFrom n (earlier ++ [r]) rest

/-- **Check a table of names**; the first fault counts. -/
def check (n : Names) : Except NamesError Unit := checkFrom n [] Role.all

end Names

end PushParser.Arithmetic
