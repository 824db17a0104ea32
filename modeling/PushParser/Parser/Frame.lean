import PushParser.Grammar.Basic

/-!
# Frames

A **`Frame`** is one nonterminal in progress: the positions that are finished, the repetitions
gathered at the current position, and the elements from there on. What has been matched is kept
latest first, so that a match is placed in one step however many came before it. The contents may
be of any type.

* `Frame.start`: a frame before its first position;
* `Frame.put`: place a match at the current position; a repetition keeps its place;
* `Frame.skip`: leave the current position;
* `Frame.slots`: one slot for each position of the rule, in order.
-/

namespace PushParser

variable {α β : Type}

/-- What one position of a rule holds. -/
inductive Slot (α : Type) where
  /-- An option that was passed over, or a position not reached yet. -/
  | vacant
  /-- One match. -/
  | one (a : α)
  /-- The repetitions of a quantified symbol. -/
  | many (as : List α)
  deriving DecidableEq, Inhabited

namespace Slot

/-- Change the contents. -/
def map (f : α → β) : Slot α → Slot β
  | .vacant => .vacant
  | .one a => .one (f a)
  | .many as => .many (as.map f)

/-- The repetitions the other way round. -/
def reverse : Slot α → Slot α
  | .vacant => .vacant
  | .one a => .one a
  | .many as => .many as.reverse

/-- The slot of an element when it is left with the given repetitions and no match. -/
def leave (e : Element) (repeated : List α) : Slot α :=
  if e.repeats then .many repeated else .vacant

theorem reverse_leave (e : Element) (repeated : List α) :
    (leave e repeated).reverse = leave e repeated.reverse := by
  unfold leave
  split <;> rfl

theorem map_leave (f : α → β) (e : Element) (repeated : List α) :
    (leave e repeated).map f = leave e (repeated.map f) := by
  unfold leave
  split <;> rfl

theorem map_reverse (f : α → β) (s : Slot α) : s.reverse.map f = (s.map f).reverse := by
  cases s with
  | vacant | one => rfl
  | many as => simp [reverse, map]

end Slot

/-- **One nonterminal in progress.** -/
structure Frame (α : Type) where
  lhs : Symbol
  /-- The finished positions, the latest first, and in each the repetitions the latest first. -/
  filled : List (Slot α)
  /-- The repetitions at the current position, the latest first. -/
  repeated : List α
  /-- The elements from the current position on. -/
  todo : Rule
  deriving DecidableEq, Inhabited

namespace Frame

/-- The frame of a nonterminal before its first position. -/
def start (lhs : Symbol) (r : Rule) : Frame α := ⟨lhs, [], [], r⟩

/-- The current position, counted from zero. -/
def position (f : Frame α) : Nat := f.filled.length

/-- The length of the rule. -/
def length (f : Frame α) : Nat := f.filled.length + f.todo.length

/-- Every position is finished. -/
def isComplete (f : Frame α) : Bool := f.todo.isEmpty

/-- No repetition has been gathered at the current position. -/
def isBare (f : Frame α) : Bool := f.repeated.isEmpty

/-- **Place a match at the current position.** Repetitions gather and keep their place; anything
else finishes the position. -/
def put (f : Frame α) (a : α) : Frame α :=
  match f.todo with
  | [] => f
  | e :: es =>
    if e.repeats then { f with repeated := a :: f.repeated }
    else { f with filled := .one a :: f.filled, todo := es }

/-- **Leave the current position** with what it holds. -/
def skip (f : Frame α) : Frame α :=
  match f.todo with
  | [] => f
  | e :: es => ⟨f.lhs, .leave e f.repeated :: f.filled, [], es⟩

/-- The slots of the finished positions, in order. -/
def finished (f : Frame α) : List (Slot α) := f.filled.reverse.map Slot.reverse

/-- **One slot for each position of the rule**, in order. -/
def slots (f : Frame α) : List (Slot α) :=
  match f.todo with
  | [] => f.finished
  | e :: es => f.finished ++ .leave e f.repeated.reverse :: es.map (.leave · [])

/-- Change the contents. -/
def map (h : α → β) (f : Frame α) : Frame β :=
  ⟨f.lhs, f.filled.map (Slot.map h), f.repeated.map h, f.todo⟩

/-- Forget the contents. -/
def erase (f : Frame α) : Frame Unit := f.map fun _ => ()

/-- The printed form of the current element. -/
def expected (f : Frame α) : String :=
  match f.todo with
  | [] => ""
  | e :: _ => e.text

/-! ## Contents do not matter -/

section Map

variable (h : α → β)

@[simp] theorem map_start (lhs : Symbol) (r : Rule) :
    (start lhs r : Frame α).map h = start lhs r := rfl

@[simp] theorem lhs_map (f : Frame α) : (f.map h).lhs = f.lhs := rfl

@[simp] theorem todo_map (f : Frame α) : (f.map h).todo = f.todo := rfl

@[simp] theorem isBare_map (f : Frame α) : (f.map h).isBare = f.isBare := by
  simp [isBare, map]

@[simp] theorem position_map (f : Frame α) : (f.map h).position = f.position := by
  simp [position, map]

@[simp] theorem length_map (f : Frame α) : (f.map h).length = f.length := by
  simp [length, map]

@[simp] theorem map_put (f : Frame α) (a : α) : (f.put a).map h = (f.map h).put (h a) := by
  unfold put map
  split
  · next e => simp [e]
  · next e es hf =>
    simp only [hf]
    split <;> simp [Slot.map]

@[simp] theorem map_skip (f : Frame α) : f.skip.map h = (f.map h).skip := by
  unfold skip map
  split
  · next e => simp [e]
  · next e es hf => simp [hf, Slot.map_leave]

@[simp] theorem finished_map (f : Frame α) :
    (f.map h).finished = f.finished.map (Slot.map h) := by
  simp [finished, map, Function.comp_def, Slot.map_reverse]

@[simp] theorem slots_map (f : Frame α) : (f.map h).slots = f.slots.map (Slot.map h) := by
  unfold slots
  rw [todo_map, finished_map]
  split
  · rfl
  · simp [map, Slot.map_leave]

end Map

/-! ## Slots -/

@[simp] theorem length_finished (f : Frame α) : f.finished.length = f.position := by
  simp [finished, position]

@[simp] theorem length_slots (f : Frame α) : f.slots.length = f.length := by
  unfold slots length
  split
  · next h => simp [h, position]
  · next h => simp [h, position]

theorem finished_put {f : Frame α} {e : Element} {es : Rule} (h : f.todo = e :: es)
    (he : e.repeats = false) (a : α) : (f.put a).finished = f.finished ++ [.one a] := by
  simp [put, h, he, finished, Slot.reverse]

theorem finished_skip {f : Frame α} {e : Element} {es : Rule} (h : f.todo = e :: es) :
    f.skip.finished = f.finished ++ [.leave e f.repeated.reverse] := by
  simp [skip, h, finished, Slot.reverse_leave]

@[simp] theorem slots_skip (f : Frame α) : f.skip.slots = f.slots := by
  cases h : f.todo with
  | nil => simp [skip, h]
  | cons e es =>
    have hs : f.slots = f.skip.finished ++ es.map (.leave · []) := by
      rw [slots, h, finished_skip h, List.append_assoc]
      rfl
    rw [hs, slots]
    simp only [skip, h]
    cases es with
    | nil => simp
    | cons d ds => simp

@[simp] theorem length_put (f : Frame α) (a : α) : (f.put a).length = f.length := by
  unfold put length
  split
  · rfl
  · next h =>
    split
    · rfl
    · simp [h]; omega

@[simp] theorem length_skip (f : Frame α) : f.skip.length = f.length := by
  rw [← length_slots, slots_skip, length_slots]

end Frame

end PushParser
