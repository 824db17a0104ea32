import PushParser.Arithmetic.Fragment
import PushParser.Grammar.Build

/-!
# The arithmetic kit

A **`Kit`** fixes the names and the flavor of arithmetic grammars and builds them from fragments.

* `Kit.configure`: a kit with the given options;
* `Start`: what a grammar is about;
* **`Kit.build`**: a template and the grammar made of it, whose root is the start followed by the
  enter key.
-/

namespace PushParser.Arithmetic

/-- **Names and flavor of arithmetic grammars.** -/
structure Kit where
  names : Names
  flavor : Flavor

/-- An option of a kit. -/
inductive KitOption where
  | names (n : Names)
  | flavor (code : Int)

/-- Why there is no kit. -/
inductive KitError where
  | unknownFlavor (code : Int)
  | names (e : NamesError)
  deriving DecidableEq, Inhabited

/-- The wording of a kit error. -/
def KitError.message : KitError → String
  | .unknownFlavor code => "unknown grammar flavor " ++ toString code
  | .names e => e.message

/-- **What a grammar is about.** -/
inductive Start where
  | fragment (x : Fragment)
  /-- Any symbol, and fragments to be there with it. -/
  | custom (added : List Fragment) (symbol : Symbol)

namespace Kit

/-- Names in full and no extensions. -/
def default : Kit := ⟨.verbose, .plain⟩

/-- Apply options in order. -/
def applyOptions (k : Kit) : List KitOption → Except KitError Kit
  | [] => .ok k
  | .names n :: rest => applyOptions { k with names := n } rest
  | .flavor code :: rest =>
    match Flavor.ofCode? code with
    | none => .error (.unknownFlavor code)
    | some f => applyOptions { k with flavor := f } rest

/-- **A kit with the given options.** Only the final names are checked. -/
def configure (options : List KitOption) : Except KitError Kit :=
  match default.applyOptions options with
  | .error e => .error e
  | .ok k =>
    match k.names.check with
    | .error e => .error (.names e)
    | .ok () => .ok k

variable (k : Kit)

/-- The symbol that a fragment defines. -/
def symbol (x : Fragment) : Symbol := k.names x.role

/-- Add a fragment to a template. -/
def add (t : Template) (x : Fragment) : Template := t.add k.names k.flavor x

/-- The symbol of a start. -/
def startSymbol : Start → Symbol
  | .fragment x => k.symbol x
  | .custom _ s => s

/-- The fragments a start asks for. -/
def startFragments : Start → List Fragment
  | .fragment x => [x]
  | .custom xs _ => xs

/-- The template of a grammar: the fragments of its start, and root. -/
def template (start : Start) : Template :=
  (Template.addAll k.names k.flavor .empty (startFragments start)).insert rootName
    (.sequence [.name (k.startSymbol start), .name (k.names .enter)])

/-- The grammar of a start. It has to reach all its rules. -/
def grammar (start : Start) : Except ConfigurationError Grammar :=
  match Grammar.build (k.template start) with
  | .error e => .error e
  | .ok g =>
    match g.verify with
    | .error e => .error e
    | .ok () => .ok g

/-- **Build a grammar**, and the template it was made of. -/
def build (start : Start) : Template × Except ConfigurationError Grammar :=
  (k.template start, k.grammar start)

end Kit

end PushParser.Arithmetic
