import PushParser.Grammar.Basic
import PushParser.Grammar.Error
import PushParser.Grammar.Search
import PushParser.Text.Capital
import PushParser.Text.Letter

/-!
# Grammars in EBNF

A grammar prints as EBNF, one production a line: nonterminals as identifiers that begin with a
capital letter, terminals quoted, `{ x }` for any number, `[ x ]` for at most one and `( x | y )`
for a choice. At least one `x` prints as `x { x }`.

* `identifier`, `Grammar.identifiers`: the identifiers, no two alike;
* `Grammar.productionOrder`: root first, then what it reaches, nearest first, then the rest sorted;
* **`Grammar.ebnf`**: the text;
* **`Grammar.verify`**: fails when a production is not reached from root.
-/

namespace PushParser

open Text (isLetter isDecimalDigit capital? quote)

/-! ## Identifiers -/

/-- A character of an identifier: what is neither letter, digit nor underscore becomes one. -/
def identifierChar (c : Char) : Char :=
  if isLetter c || isDecimalDigit c || c == '_' then c else '_'

/-- The identifier for a name: its first character in capital form, or `N` in front of it all. -/
def identifier (name : String) : String :=
  match name.toList.map identifierChar with
  | [] => "N"
  | c :: cs =>
    match capital? c with
    | some u => String.ofList (u :: cs)
    | none => String.ofList ('N' :: c :: cs)

/-- The least `n` from `i` on for which `base_n` is free, for at most `fuel` more attempts. -/
def freeSuffix (taken : NameSet) (base : String) : (fuel i : Nat) → Nat
  | 0, i => i
  | fuel + 1, i =>
    if taken.contains (base ++ "_" ++ toString i) then freeSuffix taken base fuel (i + 1) else i

/-- The base itself if it is free, else the base with the least free number from two on. There are
as many attempts as names taken, and the base is one of those, so one of them succeeds. -/
def freeIdentifier (taken : NameSet) (base : String) : String :=
  if taken.contains base then base ++ "_" ++ toString (freeSuffix taken base taken.size 2)
  else base

/-- Give each name an identifier that no name before it has. -/
def assignIdentifiers (taken : NameSet) : List Symbol → List (Symbol × String)
  | [] => []
  | s :: ss =>
    let name := freeIdentifier taken (identifier s)
    (s, name) :: assignIdentifiers (NameSet.add taken name) ss

namespace Grammar

variable (g : Grammar)

/-- The identifiers of the nonterminals. -/
def identifiers : NameMap String := NameMap.ofList (assignIdentifiers .empty g.nonterminals)

/-! ## Productions -/

/-- A symbol in EBNF. -/
def ebnfSymbol (names : NameMap String) (s : Symbol) : String :=
  match names.find? s with
  | some name => name
  | none => quote s

/-- An element in EBNF. -/
def ebnfElement (names : NameMap String) : Element → String
  | .symbol s => ebnfSymbol names s
  | .quantified .star s => "\x7b " ++ ebnfSymbol names s ++ " \x7d"
  | .quantified .plus s =>
    ebnfSymbol names s ++ " \x7b " ++ ebnfSymbol names s ++ " \x7d"
  | .quantified .opt s => "[ " ++ ebnfSymbol names s ++ " ]"
  | .choice ss => "( " ++ " | ".intercalate (ss.map (ebnfSymbol names)) ++ " )"

/-- A production in EBNF. -/
def ebnfProduction (names : NameMap String) (lhs : Symbol) (r : Rule) : String :=
  ebnfSymbol names lhs ++ " = " ++ " ".intercalate (r.map (ebnfElement names)) ++ " ."

/-- The production of a nonterminal, given the identifiers. -/
def productionWith (names : NameMap String) (lhs : Symbol) : String :=
  ebnfProduction names lhs ((g.rule? lhs).getD [])

/-- The production of a nonterminal. -/
def production (lhs : Symbol) : String := g.productionWith g.identifiers lhs

/-! ## Order -/

/-- The nonterminals that root reaches, nearest first. -/
def reachable : List Symbol := breadthFirst g.mentions g.rules.size rootName

/-- The nonterminals that root does not reach, sorted. -/
def unreachable : List Symbol :=
  let reached := g.reachable
  g.nonterminals.filter fun s => !reached.contains s

/-- The nonterminals in the order of their productions. -/
def productionOrder : List Symbol := g.reachable ++ g.unreachable

/-- **The grammar in EBNF.** -/
def ebnf : String :=
  let names := g.identifiers
  "\n".intercalate (g.productionOrder.map (g.productionWith names))

/-- The line of each production, counted from one, with its nonterminal. -/
def numberedFrom (line : Nat) : List Symbol → List (Nat × Symbol)
  | [] => []
  | s :: ss => (line, s) :: numberedFrom (line + 1) ss

/-- **Check that root reaches every production** of the text. -/
def verify : Except ConfigurationError Unit :=
  match numberedFrom (g.reachable.length + 1) g.unreachable with
  | [] => .ok ()
  | missing =>
    let names := g.identifiers
    .error (.unreachable (missing.map fun p => (p.1, ebnfSymbol names p.2)))

end Grammar

end PushParser
