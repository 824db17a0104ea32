import PushParser.Grammar.Basic
import PushParser.Grammar.Draft

/-!
# Naming groups

A quantified group becomes a quantified nonterminal whose rule is the sequence of the group. The
group at position `i` of `lhs` is called `lhs@i`; when that name has a rule already, it is called
`lhs@i~n` for the next `n` that is free, and the numbers `n` are never used twice.

* `freshName`: the search for a free name;
* `Expansion`: the names taken, the last number used and the rules added so far;
* **`expandRules`**: names all groups of a set of drafts.
-/

namespace PushParser

/-- The name of a group on its `n`-th attempt. -/
def numbered (base : Symbol) (n : Nat) : Symbol := base ++ "~" ++ toString n

/-- Count up from `counter` until the numbered name is free, for at most `fuel` more attempts. -/
def freshNumber (taken : List Symbol) (base : Symbol) : (fuel counter : Nat) → Nat
  | 0, counter => counter + 1
  | fuel + 1, counter =>
    if numbered base (counter + 1) ∈ taken then freshNumber taken base fuel (counter + 1)
    else counter + 1

/-- A free name and the last number used. There are more attempts than names taken, so one of them
succeeds. -/
def freshName (taken : List Symbol) (base : Symbol) (counter : Nat) : Symbol × Nat :=
  if base ∈ taken then
    let n := freshNumber taken base taken.length counter
    (numbered base n, n)
  else (base, counter)

/-- **The state of an expansion.** -/
structure Expansion where
  /-- Every name that has a rule. -/
  taken : List Symbol
  /-- The last number used in a name. -/
  counter : Nat
  /-- The rules of the groups named so far, newest first. -/
  added : List (Symbol × Rule)

namespace Expansion

/-- Name the group that stands at `position` of `lhs`. -/
def nameGroup (x : Expansion) (lhs : Symbol) (position : Nat) (operands : List Symbol) :
    Symbol × Expansion :=
  let fresh := freshName x.taken (lhs ++ "@" ++ toString position) x.counter
  (fresh.1,
    { taken := fresh.1 :: x.taken
      counter := fresh.2
      added := (fresh.1, operands.map .symbol) :: x.added })

/-- The element of a draft at `position` of `lhs`. -/
def element (x : Expansion) (lhs : Symbol) (position : Nat) : Draft → Element × Expansion
  | .element e => (e, x)
  | .group q operands =>
    let named := x.nameGroup lhs position operands
    (.quantified q named.1, named.2)

/-- The elements of drafts, the first of which stands at `position` of `lhs`. -/
def elements (x : Expansion) (lhs : Symbol) (position : Nat) : List Draft → Rule × Expansion
  | [] => ([], x)
  | d :: ds =>
    let first := x.element lhs position d
    let rest := first.2.elements lhs (position + 1) ds
    (first.1 :: rest.1, rest.2)

/-- The rules of a list of drafted rules. -/
def rules (x : Expansion) : List (Symbol × List Draft) → List (Symbol × Rule) × Expansion
  | [] => ([], x)
  | (lhs, ds) :: rest =>
    let first := x.elements lhs 0 ds
    let others := first.2.rules rest
    ((lhs, first.1) :: others.1, others.2)

end Expansion

/-- **Name all groups.** -/
def expandRules (drafts : NameMap (List Draft)) : Grammar :=
  let expanded := Expansion.rules ⟨drafts.keys, 0, []⟩ drafts.entries
  { rules := NameMap.ofList (expanded.1 ++ expanded.2.added)
    synthetic := expanded.2.added.map Prod.fst }

end PushParser
