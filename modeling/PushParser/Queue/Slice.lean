import PushParser.Value

/-!
# Slices of shared memory

Tokens lie in arrays, and a **`Slice`** is a view of some cells of one. Slices of one array share
its cells: what is written through one is read through the other. Cutting a slice copies nothing;
appending to one writes into its array as long as there is room behind it, and moves to a new array
when there is none.

* `Memory.make`: a new array;
* `Memory.get?`, `Memory.read`: what a slice shows;
* `Memory.writeAll`, **`Memory.copy`**, **`Memory.append`**: what writes;
* `Slice.tail`, `Slice.clear`: what only cuts.
-/

namespace PushParser

/-- **The arrays of tokens**, each at its address. -/
abbrev Memory := List (List Token)

/-- **A view of an array**: the cells from `start` on that it shows, and how many there are behind
`start` for it to grow into. -/
structure Slice where
  address : Nat
  start : Nat
  length : Nat
  capacity : Nat
  deriving DecidableEq, Inhabited

namespace Slice

/-- The slice without its first token. -/
def tail (s : Slice) : Slice := ⟨s.address, s.start + 1, s.length - 1, s.capacity - 1⟩

/-- The slice cut down to no token. What it showed is still in the array behind it. -/
def clear (s : Slice) : Slice := { s with length := 0 }

end Slice

namespace Memory

variable (m : Memory)

/-- A slice of a new array, whose cells hold the token without tag and value. -/
def make (length capacity : Nat) : Memory × Slice :=
  (m ++ [List.replicate capacity ⟨"", .null⟩], ⟨m.length, 0, length, capacity⟩)

/-- The array at an address. -/
def cells (address : Nat) : List Token := (m[address]?).getD []

/-- The tokens that a slice shows. -/
def read (s : Slice) : List Token := ((m.cells s.address).drop s.start).take s.length

/-- The `k`-th token that a slice shows. -/
def get? (s : Slice) (k : Nat) : Option Token :=
  if k < s.length then (m.cells s.address)[s.start + k]? else none

/-- Write one cell. -/
def write (address i : Nat) (t : Token) : Memory := m.modify address (·.set i t)

/-- Write cells one after the other. -/
def writeAll (m : Memory) (address i : Nat) : List Token → Memory
  | [] => m
  | t :: ts => writeAll (m.write address i t) address (i + 1) ts

/-- **Copy** what `source` shows to the cells that `target` shows, as far as these go. -/
def copy (target source : Slice) : Memory :=
  m.writeAll target.address target.start ((m.read source).take target.length)

/-- **Append a token.** Without room for it the slice moves to a new array, with as many cells to
`spare` as are thought good for its length. -/
def append (spare : Nat → Nat) (s : Slice) (t : Token) : Memory × Slice :=
  if s.length < s.capacity then
    (m.write s.address (s.start + s.length) t, { s with length := s.length + 1 })
  else
    let made := m.make (s.length + 1) (s.length + 1 + spare s.length)
    ((made.1.copy made.2 s).write made.2.address s.length t, made.2)

end Memory

end PushParser
