import PushParser.Grammar.Ebnf
import PushParser.Grammar.Expand
import PushParser.Grammar.Nullable

/-!
# Building a grammar

**`Grammar.build`** turns definitions into a grammar: it checks every rule in the order of the
names, gives groups a name, and refuses left recursion, which would have a parser enter rules
forever.

* `checkEmpty`: no rule is the empty sequence;
* `Grammar.leftRecursion?`: a cycle of leftmost steps.
-/

namespace PushParser

/-- The first rule that is the empty sequence, as an error. -/
def checkEmpty : List (Symbol × List Draft) → Except ConfigurationError Unit
  | [] => .ok ()
  | (lhs, ds) :: rest =>
    if ds.isEmpty then .error (.inRule lhs .emptySequence) else checkEmpty rest

namespace Grammar

/-- The first cycle of leftmost steps, outermost nonterminal first. -/
def leftRecursion? (g : Grammar) : Option (List Symbol) :=
  let empty := g.nullable
  findCycle (g.leftmostWith empty) g.nonterminals

theorem leftRecursion?_eq (g : Grammar) : g.leftRecursion? = findCycle g.leftmost g.nonterminals :=
  rfl

/-- Refuse left recursion. -/
def checkLeftRecursion (g : Grammar) : Except ConfigurationError Unit :=
  match g.leftRecursion? with
  | none => .ok ()
  | some cycle =>
    let names := g.identifiers
    .error (.leftRecursion (cycle.map fun s => (s, g.productionWith names s)))

/-- **Build a grammar from definitions.** -/
def build (definitions : NameMap Form) : Except ConfigurationError Grammar :=
  if definitions.entries.isEmpty then .error .emptyRuleSet
  else if !definitions.contains rootName then .error .noRoot
  else
    match definitions.mapM fun lhs f => f.draftRule.mapError (.inRule lhs) with
    | .error e => .error e
    | .ok drafts =>
      match checkEmpty drafts.entries with
      | .error e => .error e
      | .ok () =>
        let g := expandRules drafts
        match g.checkLeftRecursion with
        | .error e => .error e
        | .ok () => .ok g

end Grammar

end PushParser
