import PushParser.Grammar.Basic

/-!
# First sets

The first set of a symbol holds terminals that can begin it. Of a nonterminal only the first
element of its rule counts, and what comes after it is not considered even where that element may
match nothing. The sets are worked out when they are asked for and kept in a table.

* `FirstTable`: the sets known so far;
* **`Grammar.firstWith`**: a set, and the table with it;
* `Grammar.firstTable`, `FirstTable.holds`: all sets at once, and a query to them;
* `Grammar.first`, `Grammar.isFirst`: queries that start from an empty table.
-/

namespace PushParser

/-- **First sets known so far.** -/
abbrev FirstTable := NameMap NameSet

/-- The terminal is in the first set of the symbol, going by the table. A symbol that is not in it
stands for itself. -/
def FirstTable.holds (table : FirstTable) (terminal s : Symbol) : Bool :=
  match table.find? s with
  | some set => NameMap.contains set terminal
  | none => s == terminal

/-- A first set, the table with it, and whether the search met a symbol that it was still working
on, in which case the set may lack terminals. -/
structure FirstAnswer where
  set : NameSet
  table : FirstTable
  cut : Bool

/-- Add the first sets of some symbols to an answer, each worked out by `query`. -/
def FirstAnswer.gather (query : FirstTable → Symbol → FirstAnswer) (a : FirstAnswer) :
    List Symbol → FirstAnswer
  | [] => a
  | t :: ts =>
    let b := query a.table t
    gather query ⟨NameSet.union a.set b.set, b.table, a.cut || b.cut⟩ ts

namespace Grammar

variable (g : Grammar)

/-- The first set of `s`. The symbols of `inUse` are being worked on; meeting one again adds
nothing. -/
def firstFrom : (fuel : Nat) → (inUse : List Symbol) → FirstTable → Symbol → FirstAnswer
  | 0, _, table, _ => ⟨.empty, table, true⟩
  | fuel + 1, inUse, table, s =>
    match table.find? s with
    | some set => ⟨set, table, false⟩
    | none =>
      match g.rule? s with
      | none =>
        let set := NameSet.add .empty s
        ⟨set, table.insert s set, false⟩
      | some r =>
        if s ∈ inUse then ⟨.empty, table, true⟩
        else
          let a := FirstAnswer.gather (firstFrom fuel (s :: inUse)) ⟨.empty, table, false⟩
            (r.head?.elim [] Element.operands)
          { a with table := a.table.insert s a.set }

/-- **The first set of a symbol**, and the table with it. Each step works on one more nonterminal,
so the fuel lasts. -/
def firstWith (table : FirstTable) (s : Symbol) : FirstAnswer :=
  g.firstFrom (g.rules.size + 2) [] table s

/-- **The table of the first sets of all nonterminals**, one worked out after the other. -/
def firstTable : FirstTable :=
  g.nonterminals.foldl (fun table s => (g.firstWith table s).table) .empty

/-- The first set of a symbol, sorted. -/
def first (s : Symbol) : List Symbol := (g.firstWith .empty s).set.keys

/-- The terminal is in the first set of the symbol. -/
def isFirst (terminal s : Symbol) : Bool := (g.firstWith .empty s).set.contains terminal

end Grammar

end PushParser
