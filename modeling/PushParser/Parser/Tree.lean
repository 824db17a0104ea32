import PushParser.Parser.Algebra

/-!
# Derivation trees

A **`Tree`** has tokens for leaves and, at each node, a nonterminal with one slot for each position
of its rule. Trees are the free algebra: whatever a parse yields can be read off its tree.

* `Tree.leaves`: the tokens, from left to right;
* `Tree.fold`: the tree read in an algebra;
* **`Derivation`**: the trees that a grammar admits for a symbol;
* **`Grammar.Derives`**: the words of tags that a symbol stands for.
-/

namespace PushParser

variable {α : Type}

/-- **A derivation tree.** -/
inductive Tree where
  | leaf (t : Token)
  | node (lhs : Symbol) (slots : List (Slot Tree))
  deriving Inhabited

namespace Tree

/-! ## Leaves -/

mutual

/-- The tokens of a tree, from left to right. -/
def leaves : Tree → List Token
  | .leaf t => [t]
  | .node _ slots => leavesOfSlots slots

/-- The tokens of a list of slots. -/
def leavesOfSlots : List (Slot Tree) → List Token
  | [] => []
  | s :: ss => leavesOfSlot s ++ leavesOfSlots ss

/-- The tokens of a slot. -/
def leavesOfSlot : Slot Tree → List Token
  | .vacant => []
  | .one t => t.leaves
  | .many ts => leavesOfTrees ts

/-- The tokens of a list of trees. -/
def leavesOfTrees : List Tree → List Token
  | [] => []
  | t :: ts => t.leaves ++ leavesOfTrees ts

end

theorem leavesOfTrees_eq (ts : List Tree) : leavesOfTrees ts = ts.flatMap leaves := by
  induction ts with
  | nil => rfl
  | cons t ts ih => rw [leavesOfTrees, ih, List.flatMap_cons]

theorem leavesOfSlots_eq (ss : List (Slot Tree)) : leavesOfSlots ss = ss.flatMap leavesOfSlot := by
  induction ss with
  | nil => rfl
  | cons s ss ih => rw [leavesOfSlots, ih, List.flatMap_cons]

/-! ## Folding -/

/-- Trees as an algebra. -/
def algebra : Algebra Tree := ⟨.leaf, .node⟩

section Fold

variable (A : Algebra α)

mutual

/-- **A tree read in an algebra**, from the leaves up. -/
def fold : Tree → α
  | .leaf t => A.token t
  | .node lhs slots => A.node lhs (foldSlots slots)

/-- The slots of a node read in an algebra. -/
def foldSlots : List (Slot Tree) → List (Slot α)
  | [] => []
  | s :: ss => foldSlot s :: foldSlots ss

/-- A slot read in an algebra. -/
def foldSlot : Slot Tree → Slot α
  | .vacant => .vacant
  | .one t => .one (fold t)
  | .many ts => .many (foldTrees ts)

/-- Trees read in an algebra. -/
def foldTrees : List Tree → List α
  | [] => []
  | t :: ts => fold t :: foldTrees ts

end

theorem foldTrees_eq (ts : List Tree) : foldTrees A ts = ts.map (fold A) := by
  induction ts with
  | nil => rfl
  | cons t ts ih => rw [foldTrees, ih, List.map_cons]

theorem foldSlot_eq (s : Slot Tree) : foldSlot A s = s.map (fold A) := by
  cases s with
  | vacant => rfl
  | one t => rfl
  | many ts => rw [foldSlot, foldTrees_eq, Slot.map]

theorem foldSlots_eq (ss : List (Slot Tree)) : foldSlots A ss = ss.map (Slot.map (fold A)) := by
  induction ss with
  | nil => rfl
  | cons s ss ih => rw [foldSlots, ih, foldSlot_eq, List.map_cons]

/-- **Folding respects the algebras.** -/
theorem hom_fold : algebra.Hom A (fold A) where
  token _ := by rw [algebra, fold]
  node lhs slots := by rw [algebra, fold, foldSlots_eq]

end Fold

end Tree

/-! ## Derivations -/

mutual

/-- **The trees of a symbol**: a token of its tag for a terminal, and for a nonterminal a node whose
slots match its rule. -/
inductive Derivation (g : Grammar) : Symbol → Tree → Prop
  | leaf {t : Token} (h : g.rule? t.tag = none) : Derivation g t.tag (.leaf t)
  | node {s : Symbol} {r : Rule} {slots : List (Slot Tree)} (h : g.rule? s = some r)
      (hs : Matches g r slots) : Derivation g s (.node s slots)

/-- The slots match the elements one by one. -/
inductive Matches (g : Grammar) : Rule → List (Slot Tree) → Prop
  | nil : Matches g [] []
  | cons {e : Element} {es : Rule} {slot : Slot Tree} {slots : List (Slot Tree)}
      (h : Fits g e slot) (hs : Matches g es slots) : Matches g (e :: es) (slot :: slots)

/-- The slot fits the element. -/
inductive Fits (g : Grammar) : Element → Slot Tree → Prop
  | symbol {s : Symbol} {t : Tree} (h : Derivation g s t) : Fits g (.symbol s) (.one t)
  | choice {s : Symbol} {ss : List Symbol} {t : Tree} (hs : s ∈ ss) (h : Derivation g s t) :
      Fits g (.choice ss) (.one t)
  | absent {s : Symbol} : Fits g (.quantified .opt s) .vacant
  | present {s : Symbol} {t : Tree} (h : Derivation g s t) :
      Fits g (.quantified .opt s) (.one t)
  | star {s : Symbol} {ts : List Tree} (h : ∀ t ∈ ts, Derivation g s t) :
      Fits g (.quantified .star s) (.many ts)
  | plus {s : Symbol} {ts : List Tree} (h : ∀ t ∈ ts, Derivation g s t) (hne : ts ≠ []) :
      Fits g (.quantified .plus s) (.many ts)

end

/-- **The words of a symbol**: the tags of the leaves of its trees. -/
def Grammar.Derives (g : Grammar) (s : Symbol) (w : List Symbol) : Prop :=
  ∃ t, Derivation g s t ∧ Token.tags t.leaves = w

end PushParser
