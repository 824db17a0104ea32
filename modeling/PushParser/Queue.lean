import PushParser.Value.Text

/-!
# Bounded queues of tokens

A **`Queue`** holds at most `limit` tokens and gives them back in the order they came. The bound is
at least one and is part of the type, so a queue can never be over-full.

* `Queue.ofLimit`: an empty queue; a limit that is not positive counts as one;
* `push`, `peek`, `next`, `drop`, `reset`: the operations;
* `push_eq_ok_iff`, `push_eq_error_iff`: a push fails exactly on a full queue.
-/

namespace PushParser

/-- **A bounded first-in first-out queue of tokens.** -/
structure Queue where
  limit : Nat
  items : List Token
  limit_pos : 0 < limit
  length_le : items.length ≤ limit

/-- A push met a full queue. -/
structure QueueFull where
  limit : Nat
  token : Token

/-- The wording of a failed push. -/
def QueueFull.message (e : QueueFull) : String :=
  "lookahead full (" ++ toString e.limit ++ " tokens), cannot queue " ++ e.token.display

namespace Queue

/-- An empty queue for `n` tokens, or for one when `n` is not positive. -/
def ofLimit (n : Int) : Queue where
  limit := if n ≤ 0 then 1 else n.toNat
  items := []
  limit_pos := by split <;> omega
  length_le := Nat.zero_le _

instance : Inhabited Queue := ⟨.ofLimit 1⟩

/-- Number of queued tokens. -/
def length (q : Queue) : Nat := q.items.length

/-- Append a token, unless the queue is full. -/
def push (q : Queue) (t : Token) : Except QueueFull Queue :=
  if h : q.items.length < q.limit then
    .ok { q with
      items := q.items ++ [t]
      length_le := by rw [List.length_append]; exact h }
  else .error ⟨q.limit, t⟩

/-- The token at the head. -/
def peek (q : Queue) : Option Token := q.items.head?

/-- Remove the head, if there is one. -/
def drop (q : Queue) : Queue :=
  { q with
    items := q.items.tail
    length_le := by rw [List.length_tail]; exact Nat.le_trans (Nat.sub_le _ _) q.length_le }

/-- The token at the head and the queue without it. -/
def next (q : Queue) : Option Token × Queue := (q.peek, q.drop)

/-- Remove every token. -/
def reset (q : Queue) : Queue := { q with items := [], length_le := Nat.zero_le _ }

/-! ## Laws -/

@[ext]
theorem ext {q r : Queue} (h₁ : q.limit = r.limit) (h₂ : q.items = r.items) : q = r := by
  cases q; cases r; cases h₁; cases h₂; rfl

theorem push_eq_ok_iff {q r : Queue} {t : Token} :
    q.push t = .ok r ↔ q.length < q.limit ∧ r.limit = q.limit ∧ r.items = q.items ++ [t] := by
  unfold push length
  split
  · next h =>
    constructor
    · intro h'
      cases h'
      exact ⟨h, rfl, rfl⟩
    · rintro ⟨_, h₁, h₂⟩
      exact congrArg Except.ok (ext h₁.symm h₂.symm)
  · next h => simp [h]

theorem push_eq_error_iff {q : Queue} {t : Token} {e : QueueFull} :
    q.push t = .error e ↔ q.length = q.limit ∧ e = ⟨q.limit, t⟩ := by
  have hle := q.length_le
  unfold push length
  split
  · next h =>
    simp only [reduceCtorEq, false_iff, not_and]
    omega
  · next h =>
    simp only [Except.error.injEq]
    exact ⟨fun h' => ⟨by omega, h'.symm⟩, fun h' => h'.2.symm⟩

@[simp] theorem drop_items (q : Queue) : q.drop.items = q.items.tail := rfl

@[simp] theorem reset_items (q : Queue) : q.reset.items = [] := rfl

end Queue

end PushParser
