import PushParser.Grammar.First

/-!
# Engines

An **`Engine`** is a grammar made ready for parsing, with or without prediction. What every token
needs and only the grammar decides is worked out once: the fuel, and with prediction the first
sets. An engine is determined by its grammar and by whether it predicts.

* `Grammar.fuel`: how many steps a token may take;
* **`Grammar.engine`**: the engine of a grammar;
* `Engine.trialOrder`: the options of a choice in the order they are tried.
-/

namespace PushParser

/-- The length of the longest rule. -/
def Grammar.longestRule (g : Grammar) : Nat :=
  g.rules.entries.foldl (fun n e => max n e.2.length) 0

/-- Fuel for one token. Without left recursion no nonterminal is entered inside itself before the
token is taken, and no frame moves more than twice at a position. -/
def Grammar.fuel (g : Grammar) : Nat := (2 * g.longestRule + 2) * (g.rules.size + 2)

/-- **A grammar made ready for parsing.** -/
structure Engine where
  grammar : Grammar
  predicts : Bool
  /-- The first sets; none are kept without prediction. -/
  firsts : FirstTable
  fuel : Nat
  firsts_eq : firsts = if predicts then grammar.firstTable else .empty
  fuel_eq : fuel = grammar.fuel

/-- **The engine of a grammar.** -/
def Grammar.engine (g : Grammar) (predicts : Bool) : Engine :=
  ⟨g, predicts, if predicts then g.firstTable else .empty, g.fuel, rfl, rfl⟩

instance : Inhabited Engine := ⟨Grammar.engine default false⟩

/-- Number symbols from `i` on. -/
def numberFrom (i : Nat) : List Symbol → List (Nat × Symbol)
  | [] => []
  | s :: ss => (i, s) :: numberFrom (i + 1) ss

namespace Engine

variable (E : Engine)

/-- The rule of a nonterminal. -/
def rule? (s : Symbol) : Option Rule := E.grammar.rule? s

/-- The options of a choice, numbered, in the order they are tried. With prediction those whose
first set holds the tag come before the others. -/
def trialOrder (tag : Symbol) (options : List Symbol) : List (Nat × Symbol) :=
  let numbered := numberFrom 0 options
  if E.predicts then
    let fits := numbered.partition fun o => E.firsts.holds tag o.2
    fits.1 ++ fits.2
  else numbered

end Engine

end PushParser
