import PushParser.Grammar.Error
import PushParser.Grammar.Form

/-!
# Drafts of rules

Checking a written definition gives a **`Draft`** for each position: a canonical element, or a
quantified group of several symbols that still has to be given a name.

* `Form.draft`: checks one element;
* `Form.items`: a right-hand side as a sequence of elements;
* **`Form.draftRule`**: checks a right-hand side, and reports its first fault.
-/

namespace PushParser

/-- **One checked position of a rule.** -/
inductive Draft where
  | element (e : Element)
  /-- A quantified sequence of at least two symbols. -/
  | group (q : Quantifier) (operands : List Symbol)
  deriving DecidableEq, Inhabited

/-- An operator applied to symbols. A quantifier over several of them makes a group. -/
def Operator.draft : Operator → List Symbol → Draft
  | .choice, ss => .element (.choice ss)
  | .quantifier q, [s] => .element (.quantified q s)
  | .quantifier q, ss => .group q ss

namespace Form

/-- Check an operand: only a symbol will do. -/
def operand (label : String) : Form → Except ElementFault Symbol
  | .name s => .ok s
  | .element (.symbol s) => .ok s
  | .unset => .error (.unsetOperand label)
  | f => .error (.compositeOperand label f.typeName)

/-- Check all operands; the first fault counts. -/
def operands (label : String) : List Form → Except ElementFault (List Symbol)
  | [] => .ok []
  | f :: fs =>
    match f.operand label with
    | .error fault => .error fault
    | .ok s =>
      match operands label fs with
      | .error fault => .error fault
      | .ok ss => .ok (s :: ss)

/-- Check a symbol that stands alone. -/
def draftSymbol (s : Symbol) : Except ElementFault Draft :=
  if s = "" then .error .emptySymbol else .ok (.element (.symbol s))

/-- Check a canonical element. -/
def draftElement : Element → Except ElementFault Draft
  | .symbol s => draftSymbol s
  | .choice [] => .error (.noOperands Operator.choice.label)
  | e => if "" ∈ e.operands then .error (.emptyOperand e.text) else .ok (.element e)

/-- Check a numbered operator: first that it has operands, then that they are symbols, then that
none is empty, and last its number. -/
def draftOperator (code : Int) (fs : List Form) : Except ElementFault Draft :=
  if fs.isEmpty then .error (.noOperands (Operator.codeLabel code))
  else
    match operands (Operator.codeLabel code) fs with
    | .error fault => .error fault
    | .ok ss =>
      if "" ∈ ss then .error (.emptyOperand (Operator.codeLabel code))
      else
        match Operator.ofCode? code with
        | none => .error (.unknownOperator (Operator.codeLabel code))
        | some op => .ok (op.draft ss)

/-- **Check one element.** -/
def draft : Form → Except ElementFault Draft
  | .unset | .absent _ => .error .unset
  | .name s => draftSymbol s
  | .element e => draftElement e
  | .operator _ code fs => draftOperator code fs
  | .sequence _ | .rule _ => .error .nestedSequence
  | f => .error (.unsupported f.typeName)

/-- A right-hand side as a sequence of elements. One element that is no sequence stands for the
sequence of itself alone. -/
def items : Form → Option (List Form)
  | .unset => none
  | .sequence fs => some fs
  | .names ss => some (ss.map .name)
  | .rule es => some (es.map fun e? => match e? with
    | none => .unset
    | some e => .element e)
  | f => some [f]

/-- Check the elements of a sequence, the first of which stands at `position`. -/
def draftFrom (position : Nat) : List Form → Except RuleFault (List Draft)
  | [] => .ok []
  | f :: fs =>
    match f.draft with
    | .error fault => .error (.element position fault)
    | .ok d =>
      match draftFrom (position + 1) fs with
      | .error fault => .error fault
      | .ok ds => .ok (d :: ds)

/-- **Check a right-hand side.** -/
def draftRule (f : Form) : Except RuleFault (List Draft) :=
  match f.items with
  | none => .error .unset
  | some fs => draftFrom 0 fs

end Form

end PushParser
