import PushParser.Parser.Event

/-!
# Algebras

What a parse yields is open: an **`Algebra`** says what a token stands for and what a nonterminal
makes of the slots of its rule. A parser that hands values to actions is one (`Actions.algebra`),
and trees are another.

* `Algebra.Hom`: a map that respects two algebras;
* `Frame.result`, `Frame.reduction`: what a complete frame is reduced to.
-/

namespace PushParser

variable {α β : Type}

/-- **What tokens and reductions stand for.** -/
structure Algebra (α : Type) where
  token : Token → α
  node : Symbol → List (Slot α) → α

/-- The map `h` respects the algebras. -/
structure Algebra.Hom (A : Algebra α) (B : Algebra β) (h : α → β) : Prop where
  token : ∀ t, h (A.token t) = B.token t
  node : ∀ lhs slots, h (A.node lhs slots) = B.node lhs (slots.map (Slot.map h))

/-- What is left when contents are forgotten. -/
def Algebra.unit : Algebra Unit := ⟨fun _ => (), fun _ _ => ()⟩

theorem Algebra.hom_unit (A : Algebra α) : A.Hom .unit fun _ => () := ⟨fun _ => rfl, fun _ _ => rfl⟩

namespace Frame

variable (A : Algebra α)

/-- What a complete frame is reduced to. -/
def result (f : Frame α) : α := A.node f.lhs f.slots

/-- The event of reducing a frame, which leaves `depth` others. -/
def reduction (f : Frame α) (depth : Nat) : Event α := .reduce depth f.lhs f.slots (f.result A)

end Frame

/-! ## Actions -/

/-- What a nonterminal reduces to, given the values of its children. -/
abbrev Actions := Symbol → List Value → Value

/-- A reduction without an action yields the list of the children. -/
def Actions.default : Actions := fun _ children => .list children

/-- The value of a slot: null where nothing is, a list for repetitions. -/
def Slot.value : Slot Value → Value
  | .vacant => .null
  | .one v => v
  | .many vs => .list vs

/-- **The algebra of a table of actions.** -/
def Actions.algebra (actions : Actions) : Algebra Value :=
  ⟨Value.ofToken, fun lhs slots => actions lhs (slots.map Slot.value)⟩

end PushParser
