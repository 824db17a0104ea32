import PushParser.Grammar.Basic

/-!
# Nullable nonterminals and leftmost steps

A nonterminal is nullable when every element of its rule can match nothing. The set is found by
sweeping over the rules until nothing more can be added.

* `Element.nullableIn`: an element can match nothing, given the nullable nonterminals;
* `sweep`, `nullableAmong`, **`Grammar.nullable`**: the nullable nonterminals;
* **`Grammar.leftmost`**: the nonterminals that can be entered before a token is taken.
-/

namespace PushParser

/-- An element can match nothing when the nonterminals of `empty` can. -/
def Element.nullableIn (empty : NameSet) (e : Element) : Bool :=
  e.isOptional || e.operands.any fun s => empty.contains s

/-- A rule can match nothing when the nonterminals of `empty` can. -/
def Rule.nullableIn (empty : NameSet) (r : Rule) : Bool := r.all fun e => e.nullableIn empty

/-- Add the left-hand sides whose rules can match nothing, each as soon as it is met. -/
def sweep (empty : NameSet) : List (Symbol × Rule) → NameSet
  | [] => empty
  | e :: es =>
    if empty.contains e.1 then sweep empty es
    else if Rule.nullableIn empty e.2 then sweep (NameSet.add empty e.1) es
    else sweep empty es

/-- Sweep over the rules until a sweep adds nothing, at most `fuel` times. -/
def sweeps (es : List (Symbol × Rule)) : (fuel : Nat) → (empty : NameSet) → NameSet
  | 0, empty => empty
  | fuel + 1, empty =>
    let swept := sweep empty es
    if swept.size = empty.size then empty else sweeps es fuel swept

/-- The nullable nonterminals of a list of rules. Each sweep before the last adds one, so as many
sweeps as there are rules suffice. -/
def nullableAmong (es : List (Symbol × Rule)) : NameSet := sweeps es es.length .empty

namespace Grammar

variable (g : Grammar)

/-- **The nullable nonterminals.** -/
def nullable : NameSet := nullableAmong g.rules.entries

/-- The nonterminals of a sequence that can be entered before a token is taken: those of its
elements up to the first that has to take one. -/
def leftmostIn (empty : NameSet) : Rule → List Symbol
  | [] => []
  | e :: es =>
    e.operands.filter g.isNonterminal ++
      if Element.nullableIn empty e then leftmostIn empty es else []

/-- The nonterminals that can be entered from `s`, given the nullable ones. -/
def leftmostWith (empty : NameSet) (s : Symbol) : List Symbol :=
  match g.rule? s with
  | none => []
  | some r => g.leftmostIn empty r

/-- **The nonterminals that can be entered from `s`** before a token is taken. -/
def leftmost (s : Symbol) : List Symbol := g.leftmostWith g.nullable s

end Grammar

end PushParser
