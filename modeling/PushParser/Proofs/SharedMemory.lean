import Mathlib.Data.List.Basic
import PushParser.Queue.Store

/-!
# Queues do not see that they share a memory

Two slices of one array see each other's writes, so that queues are independent has to be brought
about: no two handles of a store ever point into one array. Cutting a slice and appending to it
stay in its array or move to a new one, and a clone takes a new one; all other arrays stay as they
are. So a store does what a family of queues does that are values, each of its own.

* `Memory.Fits`, `Memory.Changes`: a slice lies in its array, and no other array changes;
* `Memory.Replaces`, **`Memory.read_append`**: a slice moves on, and what appending leads to;
* **`Memory.cells_movedTo`**: what copying to a new array leads to;
* `Handle.Holds`: the queue that a handle stands for, with a lemma for each operation;
* `Store.Represents`, **`Store.represents_perform`**: a step of the store is a step of the family;
* **`Store.represents_performAll`**: so is a run.
-/

namespace PushParser

variable {m m' : Memory} {s u : Slice} {t : Token} {a b i : Nat}

/-! ## Windows of a list -/

theorem take_drop_set (xs : List Token) (i k : Nat) (h : i + k < xs.length) (t : Token) :
    ((xs.set (i + k) t).drop i).take (k + 1) = (xs.drop i).take k ++ [t] := by
  have hk : k < (xs.drop i).length := by
    rw [List.length_drop]
    omega
  rw [List.drop_set, if_neg (by omega), Nat.add_sub_cancel_left, List.take_add_one,
    List.take_set_of_le (Nat.le_refl k), List.getElem?_set_self hk]
  rfl

namespace Memory

/-- The slice lies in its array. -/
structure Fits (m : Memory) (s : Slice) : Prop where
  address : s.address < m.length
  length : s.length ≤ s.capacity
  capacity : s.start + s.capacity ≤ (m.cells s.address).length

/-- **No array but the one at `a` changes.** New ones may come. -/
def Changes (m m' : Memory) (a : Nat) : Prop := ∀ b < m.length, b ≠ a → m'[b]? = m[b]?

/-! ## Writing -/

theorem cells_write (m : Memory) (a i : Nat) (t : Token) (b : Nat) :
    (m.write a i t).cells b = if a = b then (m.cells b).set i t else m.cells b := by
  unfold cells write
  rw [List.getElem?_modify]
  cases m[b]? with
  | none => by_cases h : a = b <;> simp [h]
  | some xs => by_cases h : a = b <;> simp [h]

@[simp] theorem length_write (m : Memory) (a i : Nat) (t : Token) :
    (m.write a i t).length = m.length := by
  simp [write]

@[simp] theorem length_cells_write (m : Memory) (a i : Nat) (t : Token) (b : Nat) :
    ((m.write a i t).cells b).length = (m.cells b).length := by
  rw [cells_write]
  split <;> simp

theorem changes_write (m : Memory) (a i : Nat) (t : Token) : m.Changes (m.write a i t) a := by
  intro b _ hb
  rw [write, List.getElem?_modify]
  simp [Ne.symm hb]

@[simp] theorem length_writeAll (m : Memory) (a i : Nat) (ts : List Token) :
    (m.writeAll a i ts).length = m.length := by
  induction ts generalizing m i with
  | nil => rfl
  | cons t ts ih => rw [writeAll, ih, length_write]

theorem changes_writeAll (m : Memory) (a i : Nat) (ts : List Token) :
    m.Changes (m.writeAll a i ts) a := by
  induction ts generalizing m i with
  | nil => exact fun _ _ _ => rfl
  | cons t ts ih =>
    intro b hb hne
    rw [writeAll, ih (m.write a i t) (i + 1) b (by simpa using hb) hne]
    exact changes_write m a i t b hb hne

theorem cells_writeAll (m : Memory) (a i : Nat) (ts : List Token)
    (h : i + ts.length ≤ (m.cells a).length) :
    (m.writeAll a i ts).cells a =
      (m.cells a).take i ++ ts ++ (m.cells a).drop (i + ts.length) := by
  induction ts generalizing m i with
  | nil => simp [writeAll]
  | cons t ts ih =>
    rw [List.length_cons] at h
    have hset : (m.write a i t).cells a = (m.cells a).set i t := by
      rw [cells_write, if_pos rfl]
    have htake : ((m.cells a).set i t).take (i + 1) = (m.cells a).take i ++ [t] := by
      simpa using take_drop_set (m.cells a) 0 i (by omega) t
    rw [writeAll, ih (m.write a i t) (i + 1) (by rw [length_cells_write]; omega), hset, htake,
      List.drop_set_of_lt (by omega)]
    simp [Nat.add_assoc, Nat.add_comm 1]

/-! ## Reading -/

theorem Changes.cells (h : m.Changes m' a) (hb : b < m.length) (hne : b ≠ a) :
    m'.cells b = m.cells b := by
  rw [Memory.cells, h b hb hne, ← Memory.cells]

theorem Changes.read (h : m.Changes m' a) (hs : m.Fits s) (hne : s.address ≠ a) :
    m'.read s = m.read s := by
  rw [Memory.read, h.cells hs.address hne, ← Memory.read]

theorem Changes.fits (h : m.Changes m' a) (hlength : m.length ≤ m'.length) (hs : m.Fits s)
    (hne : s.address ≠ a) : m'.Fits s :=
  ⟨by have := hs.address; omega, hs.length, by rw [h.cells hs.address hne]; exact hs.capacity⟩

theorem length_read (h : m.Fits s) : (m.read s).length = s.length := by
  have := h.length
  have := h.capacity
  rw [read, List.length_take, List.length_drop]
  omega

theorem get?_zero (m : Memory) (s : Slice) : m.get? s 0 = (m.read s).head? := by
  rw [get?, read, List.head?_take, List.head?_drop]
  by_cases h : s.length = 0 <;> simp [h, Nat.pos_iff_ne_zero]

/-! ## Cutting -/

theorem read_tail (m : Memory) (s : Slice) : m.read s.tail = (m.read s).tail := by
  rw [read, read, ← List.drop_one, List.drop_take, List.drop_drop]
  rfl

theorem Fits.tail (h : m.Fits s) (hs : 0 < s.length) : m.Fits s.tail := by
  have := h.length
  have := h.capacity
  refine ⟨h.address, ?_, ?_⟩ <;> simp only [Slice.tail] <;> omega

theorem read_clear (m : Memory) (s : Slice) : m.read s.clear = [] := by
  rw [read, Slice.clear]
  exact List.take_zero

theorem Fits.clear (h : m.Fits s) : m.Fits s.clear := ⟨h.address, Nat.zero_le _, h.capacity⟩

/-! ## New arrays -/

theorem length_make (m : Memory) (l c : Nat) : (m.make l c).1.length = m.length + 1 := by
  simp [make]

theorem length_cells_make (m : Memory) (l c : Nat) :
    ((m.make l c).1.cells m.length).length = c := by
  simp [make, cells]

theorem fits_make (m : Memory) {l c : Nat} (h : l ≤ c) : (m.make l c).1.Fits (m.make l c).2 := by
  refine ⟨?_, h, ?_⟩
  · rw [length_make]
    exact Nat.lt_succ_self m.length
  · rw [show (m.make l c).2 = ⟨m.length, 0, l, c⟩ from rfl, length_cells_make]
    exact Nat.le_of_eq (Nat.zero_add c)

/-- The memory after what a slice shows was copied to a new array. -/
def movedTo (m : Memory) (s : Slice) (l c : Nat) : Memory := (m.make l c).1.copy (m.make l c).2 s

theorem length_movedTo (m : Memory) (s : Slice) (l c : Nat) :
    (m.movedTo s l c).length = m.length + 1 := by
  rw [movedTo, copy, length_writeAll, length_make]

theorem getElem?_movedTo (m : Memory) (s : Slice) (l c : Nat) (hb : b < m.length) :
    (m.movedTo s l c)[b]? = m[b]? := by
  have hmake : (m.make l c).1[b]? = m[b]? := List.getElem?_append_left hb
  rw [← hmake]
  refine changes_writeAll _ m.length _ _ b ?_ (Nat.ne_of_lt hb)
  rw [length_make]
  omega

/-- **The new array begins with the copy**, if the slice of it is long enough. -/
theorem cells_movedTo (h : m.Fits s) {l c : Nat} (hl : s.length ≤ l) (hc : l ≤ c) :
    ∃ rest, (m.movedTo s l c).cells m.length = m.read s ++ rest ∧
      (m.read s ++ rest).length = c := by
  have hread : (m.make l c).1.read s = m.read s := by
    have hcells : (m.make l c).1[s.address]? = m[s.address]? := List.getElem?_append_left h.address
    rw [read, cells, hcells, ← cells, ← read]
  have hlength := length_read h
  have htake : (m.read s).take l = m.read s := List.take_of_length_le (by omega)
  have hcells := length_cells_make m l c
  have hwrite := cells_writeAll (m.make l c).1 m.length 0 (m.read s) (by omega)
  refine ⟨((m.make l c).1.cells m.length).drop s.length, ?_, ?_⟩
  · rw [movedTo, copy, hread, show (m.make l c).2 = ⟨m.length, 0, l, c⟩ from rfl]
    dsimp only
    rw [htake, hwrite, hlength, List.take_zero, List.nil_append, Nat.zero_add]
  · rw [List.length_append, List.length_drop]
    omega

/-! ## Appending -/

/-- **A slice takes the place of another**, in the array of that or in a new one. -/
structure Replaces (m : Memory) (s : Slice) (m' : Memory) (s' : Slice) : Prop where
  fits : m'.Fits s'
  changes : m.Changes m' s.address
  length : m.length ≤ m'.length
  address : s'.address = s.address ∨ m.length ≤ s'.address

theorem Fits.replaces {s' : Slice} (h : m.Fits s') (haddress : s'.address = s.address) :
    m.Replaces s m s' :=
  ⟨h, fun _ _ _ => rfl, Nat.le_refl _, Or.inl haddress⟩

section Append

variable (spare : Nat → Nat) (t : Token)

theorem append_of_room (h : s.length < s.capacity) :
    m.append spare s t =
      (m.write s.address (s.start + s.length) t, { s with length := s.length + 1 }) :=
  if_pos h

theorem append_of_no_room (h : ¬ s.length < s.capacity) :
    m.append spare s t =
      ((m.movedTo s (s.length + 1) (s.length + 1 + spare s.length)).write m.length s.length t,
        ⟨m.length, 0, s.length + 1, s.length + 1 + spare s.length⟩) :=
  if_neg h

theorem replaces_append (h : m.Fits s) :
    m.Replaces s (m.append spare s t).1 (m.append spare s t).2 := by
  have hcapacity := h.capacity
  by_cases hroom : s.length < s.capacity
  · rw [append_of_room spare t hroom]
    refine ⟨⟨?_, hroom, ?_⟩, changes_write m _ _ t, Nat.le_of_eq (length_write m _ _ t).symm,
      Or.inl rfl⟩
    · rw [length_write]
      exact h.address
    · rw [length_cells_write]
      exact hcapacity
  · obtain ⟨rest, hcells, hrest⟩ := cells_movedTo h (Nat.le_add_right s.length 1)
      (Nat.le_add_right (s.length + 1) (spare s.length))
    have hlength := length_movedTo m s (s.length + 1) (s.length + 1 + spare s.length)
    rw [append_of_no_room spare t hroom]
    refine ⟨⟨?_, Nat.le_add_right _ _, ?_⟩, fun b hb _ => ?_, ?_, Or.inr (Nat.le_refl _)⟩
    · rw [length_write, hlength]
      exact Nat.lt_succ_self _
    · rw [length_cells_write, hcells, hrest]
      exact Nat.le_of_eq (Nat.zero_add _)
    · rw [changes_write _ m.length _ t b (by omega) (Nat.ne_of_lt hb), getElem?_movedTo m s _ _ hb]
    · rw [length_write, hlength]
      exact Nat.le_succ _

/-- **Appending adds the token at the end.** -/
theorem read_append (h : m.Fits s) :
    (m.append spare s t).1.read (m.append spare s t).2 = m.read s ++ [t] := by
  have hcapacity := h.capacity
  have hlength := length_read h
  by_cases hroom : s.length < s.capacity
  · rw [append_of_room spare t hroom]
    dsimp only [read]
    rw [cells_write, if_pos rfl, take_drop_set _ _ _ (by omega)]
  · obtain ⟨rest, hcells, hrest⟩ := cells_movedTo h (Nat.le_add_right s.length 1)
      (Nat.le_add_right (s.length + 1) (spare s.length))
    have hwindow := take_drop_set (m.read s ++ rest) 0 s.length (by omega) t
    simp only [Nat.zero_add, List.drop_zero, List.take_left' hlength] at hwindow
    rw [append_of_no_room spare t hroom]
    dsimp only [read]
    rw [cells_write, if_pos rfl, hcells, List.drop_zero, hwindow]
    rfl

end Append

end Memory

/-! ## Handles -/

/-- **The queue that a handle stands for.** -/
structure Handle.Holds (m : Memory) (h : Handle) (q : Queue) : Prop where
  fits : m.Fits h.tokens
  limit : h.limit = q.limit
  read : m.read h.tokens = q.items

namespace Handle.Holds

variable {h : Handle} {q q' : Queue} (H : h.Holds m q)

include H

theorem length : h.tokens.length = q.length := by
  rw [← Memory.length_read H.fits, H.read]
  rfl

/-- Where the array of the queue does not change, it stands for the same. -/
theorem frame (hchanges : m.Changes m' a) (hlength : m.length ≤ m'.length)
    (hne : h.tokens.address ≠ a) : h.Holds m' q :=
  ⟨hchanges.fits hlength H.fits hne, H.limit, by rw [hchanges.read H.fits hne, H.read]⟩

theorem peek : h.peek m = q.peek := by
  rw [Handle.peek, Memory.get?_zero, H.read]
  rfl

theorem push_error (spare : Nat → Nat) {e : QueueFull} (hpush : q.push t = .error e) :
    h.push m spare t = .error e := by
  obtain ⟨hfull, rfl⟩ := Queue.push_eq_error_iff.1 hpush
  rw [Handle.push, if_pos (by rw [H.limit, H.length]; omega), H.limit]

theorem push_ok (spare : Nat → Nat) (hpush : q.push t = .ok q') :
    ∃ m' h', h.push m spare t = .ok (m', h') ∧ m.Replaces h.tokens m' h'.tokens ∧
      h'.Holds m' q' := by
  obtain ⟨hlt, hlimit, hitems⟩ := Queue.push_eq_ok_iff.1 hpush
  have hreplaces := Memory.replaces_append spare t H.fits
  refine ⟨_, _, if_neg (by rw [H.limit, H.length]; omega), hreplaces, hreplaces.fits, ?_, ?_⟩
  · rw [hlimit, ← H.limit]
  · rw [hitems, ← H.read]
    exact Memory.read_append spare t H.fits

theorem next : (h.next m).1 = q.peek ∧ (h.next m).2.Holds m q.drop ∧
    m.Replaces h.tokens m (h.next m).2.tokens := by
  have hpeek := H.peek
  unfold Handle.next
  cases hhead : q.peek with
  | none =>
    have hitems : q.items = [] := List.head?_eq_none_iff.1 hhead
    rw [hpeek, hhead]
    refine ⟨rfl, ⟨H.fits, H.limit, ?_⟩, H.fits.replaces rfl⟩
    rw [H.read, Queue.drop_items, hitems]
    rfl
  | some t =>
    have hpos : 0 < h.tokens.length := by
      rw [H.length]
      exact List.length_pos_of_mem (List.mem_of_mem_head? hhead)
    have hfits := H.fits.tail hpos
    rw [hpeek, hhead]
    refine ⟨rfl, ⟨hfits, H.limit, ?_⟩, hfits.replaces rfl⟩
    rw [Memory.read_tail, H.read, Queue.drop_items]

theorem reset : h.reset.Holds m q.reset ∧ m.Replaces h.tokens m h.reset.tokens :=
  ⟨⟨H.fits.clear, H.limit, Memory.read_clear m h.tokens⟩, H.fits.clear.replaces rfl⟩

/-- **A clone lies in an array of its own**, and no other changes. -/
theorem clone : (h.clone m).2.Holds (h.clone m).1 q ∧
    (h.clone m).2.tokens.address = m.length ∧ m.Changes (h.clone m).1 m.length ∧
      m.length ≤ (h.clone m).1.length := by
  have hlimit : h.tokens.length ≤ h.limit := by
    rw [H.limit, H.length]
    exact q.length_le
  have hsize : (h.clone m).1.length = m.length + 1 := Memory.length_movedTo m h.tokens _ _
  obtain ⟨rest, hcells, hrest⟩ := Memory.cells_movedTo H.fits (Nat.le_refl _) hlimit
  have hclone : (h.clone m).1.cells m.length = m.read h.tokens ++ rest := hcells
  refine ⟨⟨⟨?_, hlimit, ?_⟩, H.limit, ?_⟩, rfl, fun b hb _ => ?_, ?_⟩
  · rw [hsize]
    exact Nat.lt_succ_self m.length
  · rw [show (h.clone m).2.tokens.address = m.length from rfl, hclone, hrest]
    exact Nat.le_of_eq (Nat.zero_add _)
  · dsimp only [Memory.read]
    rw [show (h.clone m).2.tokens = ⟨m.length, 0, h.tokens.length, h.limit⟩ from rfl]
    dsimp only
    rw [hclone, List.drop_zero, List.take_left' (Memory.length_read H.fits), H.read]
  · exact Memory.getElem?_movedTo m h.tokens _ _ hb
  · rw [hsize]
    exact Nat.le_succ _

end Handle.Holds

/-! ## Stores -/

/-- **The queues that a store stands for**, no two of them in one array. -/
structure Store.Represents (σ : Store) (qs : Family) : Prop where
  length : σ.handles.length = qs.length
  holds : ∀ (i : Nat) (h : Handle) (q : Queue), σ.handles[i]? = some h → qs[i]? = some q →
    h.Holds σ.memory q
  apart : ∀ (i j : Nat) (h k : Handle), σ.handles[i]? = some h → σ.handles[j]? = some k →
    h.tokens.address = k.tokens.address → i = j

namespace Store

variable {σ σ' : Store} {qs qs' : Family} {h h' : Handle} {q q' : Queue}

theorem represents_ofLimit (n : Int) : (Store.ofLimit n).Represents [.ofLimit n] := by
  have hfits := Memory.fits_make [] (Nat.zero_le (if n ≤ 0 then 1 else n.toNat))
  have hholds : (Handle.create [] n).2.Holds (Handle.create [] n).1 (.ofLimit n) :=
    ⟨hfits, rfl, List.take_zero⟩
  refine ⟨rfl, fun i h q hh hq => ?_, fun i j h k hh hk _ => ?_⟩
  · rw [ofLimit, List.getElem?_singleton] at hh
    rw [List.getElem?_singleton] at hq
    split at hh
    · next hi =>
      rw [if_pos hi] at hq
      cases hh
      cases hq
      exact hholds
    · cases hh
  · have hi := (List.getElem?_eq_some_iff.1 hh).1
    have hj := (List.getElem?_eq_some_iff.1 hk).1
    rw [ofLimit, List.length_singleton] at hi hj
    omega

namespace Represents

variable (R : σ.Represents qs)

include R

theorem exists_handle (hq : qs[i]? = some q) :
    ∃ h, σ.handles[i]? = some h ∧ h.Holds σ.memory q := by
  obtain ⟨hi, -⟩ := List.getElem?_eq_some_iff.1 hq
  have hh : i < σ.handles.length := by
    rw [R.length]
    exact hi
  have hsome := List.getElem?_eq_getElem hh
  exact ⟨_, hsome, R.holds i _ q hsome hq⟩

theorem exists_queue (hh : σ.handles[i]? = some h) :
    ∃ q, qs[i]? = some q ∧ h.Holds σ.memory q := by
  obtain ⟨hi, -⟩ := List.getElem?_eq_some_iff.1 hh
  have hq : i < qs.length := by
    rw [← R.length]
    exact hi
  have hsome := List.getElem?_eq_getElem hq
  exact ⟨_, hsome, R.holds i h _ hh hsome⟩

/-- What lies in memory is what the queue holds. -/
theorem contents_eq (hq : qs[i]? = some q) : σ.contents i = q.items := by
  obtain ⟨h, hh, H⟩ := R.exists_handle hq
  rw [contents, hh]
  exact H.read

/-- **One queue moves on**, in its array or to a new one, and all others stay as they are. -/
theorem set (hh : σ.handles[i]? = some h) {m' : Memory}
    (hreplaces : σ.memory.Replaces h.tokens m' h'.tokens) (H : h'.Holds m' q') :
    Represents ⟨m', σ.handles.set i h'⟩ (qs.set i q') := by
  have hother : ∀ {j k}, σ.handles[j]? = some k → i ≠ j →
      k.tokens.address < σ.memory.length ∧ k.tokens.address ≠ h.tokens.address := by
    intro j k hk hij
    obtain ⟨q, -, K⟩ := R.exists_queue hk
    exact ⟨K.fits.address, fun heq => hij (R.apart j i k h hk hh heq).symm⟩
  have hnew : ∀ {j k}, σ.handles[j]? = some k → i ≠ j →
      h'.tokens.address ≠ k.tokens.address := by
    intro j k hk hij heq
    obtain ⟨hlt, hne⟩ := hother hk hij
    rcases hreplaces.address with hsame | hfresh
    · exact hne (heq.symm.trans hsame)
    · omega
  refine ⟨by simp [R.length], fun j k p hk hp => ?_, fun j l k k' hk hk' heq => ?_⟩
  · rw [List.getElem?_set] at hk hp
    by_cases hij : i = j
    · rw [if_pos hij] at hk hp
      split at hk <;> split at hp <;> cases hk <;> cases hp
      exact H
    · rw [if_neg hij] at hk hp
      exact (R.holds j k p hk hp).frame hreplaces.changes hreplaces.length (hother hk hij).2
  · rw [List.getElem?_set] at hk hk'
    by_cases hij : i = j
    · by_cases hil : i = l
      · omega
      · rw [if_pos hij] at hk
        rw [if_neg hil] at hk'
        split at hk <;> cases hk
        exact absurd heq (hnew hk' hil)
    · rw [if_neg hij] at hk
      by_cases hil : i = l
      · rw [if_pos hil] at hk'
        split at hk' <;> cases hk'
        exact absurd heq.symm (hnew hk hij)
      · rw [if_neg hil] at hk'
        exact R.apart j l k k' hk hk' heq

/-- **A queue comes** to an array of its own. -/
theorem append {m' : Memory} (hchanges : σ.memory.Changes m' σ.memory.length)
    (hlength : σ.memory.length ≤ m'.length) (haddress : h'.tokens.address = σ.memory.length)
    (H : h'.Holds m' q') : Represents ⟨m', σ.handles ++ [h']⟩ (qs ++ [q']) := by
  have hother : ∀ {j : Nat} {k : Handle}, σ.handles[j]? = some k →
      k.tokens.address < σ.memory.length := by
    intro j k hk
    obtain ⟨q, -, K⟩ := R.exists_queue hk
    exact K.fits.address
  have hlast : ∀ {j : Nat} {k : Handle}, (σ.handles ++ [h'])[j]? = some k →
      σ.handles[j]? = some k ∨ j = σ.handles.length ∧ k = h' := by
    intro j k hk
    rw [List.getElem?_append] at hk
    split at hk
    · exact Or.inl hk
    · rw [List.getElem?_singleton] at hk
      split at hk
      · exact Or.inr ⟨by omega, (Option.some.inj hk).symm⟩
      · cases hk
  refine ⟨by simp [R.length], fun j k p hk hp => ?_, fun j l k k' hk hk' heq => ?_⟩
  · rcases hlast hk with hk | ⟨rfl, rfl⟩
    · have hj := (List.getElem?_eq_some_iff.1 hk).1
      rw [List.getElem?_append_left (by rw [← R.length]; exact hj)] at hp
      exact (R.holds j k p hk hp).frame hchanges hlength (Nat.ne_of_lt (hother hk))
    · rw [R.length, List.getElem?_concat_length] at hp
      cases hp
      exact H
  · rcases hlast hk with hold | ⟨hj, rfl⟩ <;> rcases hlast hk' with hold' | ⟨hl, rfl⟩
    · exact R.apart j l k k' hold hold' heq
    · have := hother hold
      omega
    · have := hother hold'
      omega
    · rw [hj, hl]

end Represents

/-- **A step of the store is a step of the queues it stands for.** -/
theorem represents_perform (R : σ.Represents qs) (hq : qs[i]? = some q) (spare : Nat → Nat)
    (op : Operation) : ∃ σ', σ.perform spare i op = some (σ', (q.perform op).2) ∧
      σ'.Represents (qs.set i (q.perform op).1 ++ Family.copies q op) := by
  obtain ⟨h, hh, H⟩ := R.exists_handle hq
  have hsame : qs.set i q = qs := by
    obtain ⟨hi, rfl⟩ := List.getElem?_eq_some_iff.1 hq
    exact List.set_getElem_self hi
  unfold perform
  simp only [hh]
  cases op with
  | push t =>
    simp only [Family.copies, List.append_nil, Queue.perform]
    cases hpush : q.push t with
    | ok q' =>
      obtain ⟨m', h', hok, hreplaces, H'⟩ := H.push_ok spare hpush
      rw [hok]
      exact ⟨_, rfl, R.set hh hreplaces H'⟩
    | error e =>
      rw [H.push_error spare hpush]
      exact ⟨_, rfl, by rwa [hsame]⟩
  | peek => exact ⟨_, by rw [H.peek]; rfl, by simpa [Family.copies, Queue.perform, hsame] using R⟩
  | next =>
    obtain ⟨hhead, H', hreplaces⟩ := H.next
    refine ⟨_, by rw [hhead]; rfl, ?_⟩
    simp only [Family.copies, List.append_nil]
    exact R.set hh hreplaces H'
  | drop =>
    obtain ⟨-, H', hreplaces⟩ := H.next
    refine ⟨_, rfl, ?_⟩
    simp only [Family.copies, List.append_nil]
    exact R.set hh hreplaces H'
  | reset =>
    obtain ⟨H', hreplaces⟩ := H.reset
    refine ⟨_, rfl, ?_⟩
    simp only [Family.copies, List.append_nil]
    exact R.set hh hreplaces H'
  | clone =>
    obtain ⟨H', haddress, hchanges, hlength⟩ := H.clone
    refine ⟨_, rfl, ?_⟩
    simpa [Family.copies, Queue.perform, hsame] using R.append hchanges hlength haddress H'

theorem exists_queue_of_perform (R : σ.Represents qs) {spare : Nat → Nat} {op : Operation}
    {r : Store × Reply} (h : σ.perform spare i op = some r) : ∃ q, qs[i]? = some q := by
  cases hh : σ.handles[i]? with
  | none => simp [perform, hh] at h
  | some k =>
    obtain ⟨q, hq, -⟩ := R.exists_queue hh
    exact ⟨q, hq⟩

/-- **A run of the store is a run of the queues it stands for.** -/
theorem represents_performAll (R : σ.Represents qs) {spare : Nat → Nat}
    {steps : List (Nat × Operation)} (h : σ.performAll spare steps = some σ') :
    ∃ qs', qs.performAll steps = some qs' ∧ σ'.Represents qs' := by
  induction steps generalizing σ qs with
  | nil =>
    cases h
    exact ⟨qs, rfl, R⟩
  | cons step steps ih =>
    obtain ⟨r, hr, hrest⟩ := Option.bind_eq_some_iff.1 h
    obtain ⟨q, hq⟩ := exists_queue_of_perform R hr
    obtain ⟨τ, hτ, R'⟩ := represents_perform R hq spare step.2
    rw [hτ] at hr
    cases hr
    obtain ⟨qs', hqs', R''⟩ := ih R' hrest
    refine ⟨qs', ?_, R''⟩
    rw [Family.performAll, Family.perform, hq]
    exact hqs'

end Store

end PushParser
