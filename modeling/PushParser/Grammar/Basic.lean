import PushParser.Grammar.Form

/-!
# Grammars

A **`Grammar`** maps nonterminals to rules and remembers which of them name groups. A symbol is
nonterminal exactly when it has a rule.

* `Grammar.rule?`, `isNonterminal`, `nonterminals`, `terminals`, `isSynthetic`: what a grammar says
  of its symbols;
* `Grammar.forms`: the rules as definitions that can be built again.
-/

namespace PushParser

/-- **A set of rules in canonical form.** -/
structure Grammar where
  rules : NameMap Rule
  /-- The nonterminals made up to name groups. -/
  synthetic : List Symbol
  deriving Inhabited

namespace Grammar

variable (g : Grammar)

/-- The rule of a nonterminal. -/
def rule? (s : Symbol) : Option Rule := g.rules.find? s

/-- The symbol has a rule. -/
def isNonterminal (s : Symbol) : Bool := g.rules.contains s

/-- All nonterminals, sorted. -/
def nonterminals : List Symbol := g.rules.keys

/-- The nonterminal names a group. -/
def isSynthetic (s : Symbol) : Bool := g.synthetic.contains s

/-- The symbols of a rule, from left to right. -/
def ruleSymbols (r : Rule) : List Symbol := r.flatMap Element.operands

/-- All symbols without a rule that some rule mentions, sorted. -/
def terminals : List Symbol :=
  let mentioned := g.rules.entries.flatMap fun e => ruleSymbols e.2
  (NameMap.ofList ((mentioned.filter fun s => !g.isNonterminal s).map fun s => (s, ()))).keys

/-- The nonterminals that the rule of `s` mentions, from left to right. -/
def mentions (s : Symbol) : List Symbol :=
  match g.rule? s with
  | none => []
  | some r => (ruleSymbols r).filter g.isNonterminal

/-- The rules, written as definitions. -/
def forms : NameMap Form := g.rules.map fun _ r => .rule (r.map some)

end Grammar

end PushParser
