import PushParser.Proofs.SharedMemory

/-!
# What goes through the queues of a store

Beside each queue of a store stands a **`Ledger`** of the tokens that it received and of those that
were removed from it. A clone opens a ledger of its own with what it was cloned with, and a reset
empties the ledger as it empties the queue. Whatever is asked of the store, what a queue received
is what was removed from it, followed by the tokens that lie in memory for it.

* `Ledger`, `Ledger.enter`, **`Ledger.balanced_enter`**: the entries of one operation;
* `Books`, **`Books.store_performAll`**: keeping books changes nothing about a store;
* `Books.Balanced`, `Books.balanced_performAll`: what operations on a store keep;
* **`Store.performAll_balanced`**: any number of operations on any number of clones.
-/

namespace PushParser

/-! ## Ledgers -/

/-- **What went through a queue** since it was last reset or, if it never was, since it came to
be. -/
structure Ledger where
  /-- The tokens it came to be with, then those pushed with success. -/
  received : List Token
  /-- The tokens taken from its head. -/
  removed : List Token

namespace Ledger

/-- The entry of an operation on a queue that held `held`, given the reply. A drop tells nothing,
and takes what stands at the head. -/
def enter (held : List Token) (op : Operation) (r : Reply) (l : Ledger) : Ledger :=
  match op, r with
  | .push t, .done => { l with received := l.received ++ [t] }
  | .next, .head (some t) => { l with removed := l.removed ++ [t] }
  | .drop, _ => { l with removed := l.removed ++ held.head?.toList }
  | .reset, _ => ⟨[], []⟩
  | _, _ => l

/-- A clone of a queue that held `held` opens a ledger. -/
def openings (held : List Token) : Operation → List Ledger
  | .clone => [⟨held, []⟩]
  | _ => []

/-- **What a queue received is what was removed from it, followed by what it holds.** -/
def Balanced (l : Ledger) (held : List Token) : Prop := l.received = l.removed ++ held

/-- **One operation keeps the balance.** -/
theorem balanced_enter {l : Ledger} {q : Queue} (h : l.Balanced q.items) (op : Operation) :
    (l.enter q.items op (q.perform op).2).Balanced (q.perform op).1.items := by
  have hreceived : l.received = l.removed ++ q.items := h
  -- what leaves the head of the queue is what the ledger has removed
  have hhead : q.peek.toList ++ q.drop.items = q.items := by
    rw [Queue.peek, Queue.drop_items]
    cases q.items <;> rfl
  unfold Balanced
  cases op with
  | push t =>
    cases hpush : q.push t with
    | ok r =>
      obtain ⟨-, -, hitems⟩ := Queue.push_eq_ok_iff.1 hpush
      simp [Queue.perform, hpush, enter, hreceived, hitems]
    | error e => simpa [Queue.perform, hpush, enter] using hreceived
  | peek | clone => exact hreceived
  | next =>
    simp only [Queue.perform, Queue.next]
    cases hpeek : q.peek with
    | none | some t => simpa [enter, hpeek, hreceived] using hhead.symm
  | drop => simpa [Queue.perform, enter, hreceived, Queue.peek] using hhead.symm
  | reset => rfl

/-- A clone holds what its ledger was opened with. -/
theorem balanced_openings {q p : Queue} {op : Operation} {l : Ledger}
    (hl : l ∈ openings q.items op) (hp : p ∈ Family.copies q op) : l.Balanced p.items := by
  cases op with
  | clone =>
    rw [List.mem_singleton.1 hl, List.mem_singleton.1 hp]
    rfl
  | push | peek | next | drop | reset => cases hl

theorem length_openings (q : Queue) (op : Operation) :
    (openings q.items op).length = (Family.copies q op).length := by
  cases op <;> rfl

end Ledger

theorem Queue.limit_copies {q p : Queue} {op : Operation} (hp : p ∈ Family.copies q op) :
    p.limit = q.limit := by
  cases op with
  | clone => rw [List.mem_singleton.1 hp]
  | push | peek | next | drop | reset => cases hp

theorem Queue.limit_perform (q : Queue) (op : Operation) : (q.perform op).1.limit = q.limit := by
  cases op with
  | push t =>
    cases hpush : q.push t with
    | ok r => simp [Queue.perform, hpush, (Queue.push_eq_ok_iff.1 hpush).2.1]
    | error e => simp [Queue.perform, hpush]
  | peek | next | drop | reset | clone => rfl

/-! ## Books -/

/-- **A store with a ledger for each queue.** -/
structure Books where
  store : Store
  ledgers : List Ledger

namespace Books

/-- One queue, and nothing has gone through it. -/
def ofLimit (n : Int) : Books := ⟨.ofLimit n, [⟨[], []⟩]⟩

/-- One operation, entered in the ledger of its queue. -/
def perform (spare : Nat → Nat) (b : Books) (i : Nat) (op : Operation) : Option Books :=
  (b.store.perform spare i op).map fun r =>
    ⟨r.1, b.ledgers.modify i (.enter (b.store.contents i) op r.2) ++
      Ledger.openings (b.store.contents i) op⟩

/-- Operations one after the other. -/
def performAll (spare : Nat → Nat) (b : Books) : List (Nat × Operation) → Option Books
  | [] => some b
  | step :: steps => (b.perform spare step.1 step.2).bind fun c => performAll spare c steps

/-- **Keeping books changes nothing about a store.** -/
theorem store_performAll (spare : Nat → Nat) (b : Books) (steps : List (Nat × Operation)) :
    (b.performAll spare steps).map store = b.store.performAll spare steps := by
  induction steps generalizing b with
  | nil => rfl
  | cons step steps ih =>
    rw [performAll, Store.performAll, perform]
    cases b.store.perform spare step.1 step.2 with
    | none => rfl
    | some r => exact ih _

/-- The books balance: there are queues of one limit that the store stands for, and a ledger in
balance for each. -/
structure Balanced (n : Int) (b : Books) (qs : Family) : Prop where
  represents : b.store.Represents qs
  length : b.ledgers.length = qs.length
  ledger : ∀ (i : Nat) (l : Ledger) (q : Queue), b.ledgers[i]? = some l → qs[i]? = some q →
    l.Balanced q.items
  limit : ∀ q ∈ qs, q.limit = (Queue.ofLimit n).limit

variable {b c : Books} {n : Int} {qs : Family} {spare : Nat → Nat}

theorem balanced_ofLimit (n : Int) : (ofLimit n).Balanced n [.ofLimit n] := by
  refine ⟨Store.represents_ofLimit n, rfl, fun i l q hl hq => ?_, fun q hq => ?_⟩
  · obtain rfl := List.mem_singleton.1 (List.mem_of_getElem? hl)
    obtain rfl := List.mem_singleton.1 (List.mem_of_getElem? hq)
    rfl
  · rw [List.mem_singleton.1 hq]

/-- **One operation keeps the books in balance.** -/
theorem Balanced.perform (h : b.Balanced n qs) {i : Nat} {op : Operation}
    (hc : b.perform spare i op = some c) : ∃ rs, c.Balanced n rs := by
  obtain ⟨r, hr, rfl⟩ := Option.map_eq_some_iff.1 hc
  obtain ⟨q, hq⟩ := Store.exists_queue_of_perform h.represents hr
  obtain ⟨τ, hτ, R⟩ := Store.represents_perform h.represents hq spare op
  rw [hτ] at hr
  obtain rfl := Option.some.inj hr
  rw [h.represents.contents_eq hq]
  have hlength : (b.ledgers.modify i (.enter q.items op (q.perform op).2) ++
      Ledger.openings q.items op).length =
        (qs.set i (q.perform op).1 ++ Family.copies q op).length := by
    rw [List.length_append, List.length_append, List.length_modify, List.length_set, h.length,
      Ledger.length_openings]
  refine ⟨_, R, hlength, fun j l p hl hp => ?_, fun p hp => ?_⟩
  · rw [List.getElem?_append] at hl hp
    simp only [List.length_modify, List.length_set, h.length] at hl hp
    split at hl
    · next hj =>
      rw [if_pos hj] at hp
      rw [List.getElem?_modify] at hl
      rw [List.getElem?_set] at hp
      obtain ⟨k, hk, rfl⟩ := Option.map_eq_some_iff.1 hl
      by_cases hij : i = j
      · subst hij
        rw [if_pos rfl, if_pos hj] at hp
        cases hp
        rw [if_pos rfl]
        exact Ledger.balanced_enter (h.ledger i k q hk hq) op
      · rw [if_neg hij] at hp ⊢
        exact h.ledger j k p hk hp
    · next hj =>
      rw [if_neg hj] at hp
      exact Ledger.balanced_openings (List.mem_of_getElem? hl) (List.mem_of_getElem? hp)
  · rcases List.mem_append.1 hp with hp | hp
    · rcases List.mem_or_eq_of_mem_set hp with hp | rfl
      · exact h.limit p hp
      · rw [Queue.limit_perform, h.limit q (List.mem_of_getElem? hq)]
    · rw [Queue.limit_copies hp, h.limit q (List.mem_of_getElem? hq)]

theorem balanced_performAll (h : b.Balanced n qs) {steps : List (Nat × Operation)}
    (hc : b.performAll spare steps = some c) : ∃ rs, c.Balanced n rs := by
  induction steps generalizing b qs with
  | nil =>
    cases hc
    exact ⟨qs, h⟩
  | cons step steps ih =>
    obtain ⟨d, hd, hrest⟩ := Option.bind_eq_some_iff.1 hc
    obtain ⟨rs, hrs⟩ := h.perform hd
    exact ih hrs hrest

end Books

/-! ## Stores -/

namespace Store

variable {σ τ : Store} {spare : Nat → Nat} {i j : Nat} {h : Handle}

theorem getElem?_handles_perform {op : Operation} {r : Reply}
    (hτ : σ.perform spare i op = some (τ, r)) (hj : j < σ.handles.length) (hij : j ≠ i) :
    τ.handles[j]? = σ.handles[j]? := by
  unfold perform at hτ
  split at hτ
  · cases hτ
  · cases op with
    | push t =>
      dsimp only at hτ
      split at hτ <;> cases hτ
      · exact List.getElem?_set_ne (Ne.symm hij)
      · rfl
    | peek =>
      cases hτ
      rfl
    | next | drop | reset =>
      cases hτ
      exact List.getElem?_set_ne (Ne.symm hij)
    | clone =>
      cases hτ
      exact List.getElem?_append_left hj

/-- **Queues are independent.** A queue that is asked answers, and of all others the handles stay as
they are and the tokens that lie in memory for them. -/
theorem perform_independent {qs : Family} (R : σ.Represents qs) (hh : σ.handles[i]? = some h)
    (op : Operation) : ∃ τ r, σ.perform spare i op = some (τ, r) ∧
      ∀ j < σ.handles.length, j ≠ i →
        τ.handles[j]? = σ.handles[j]? ∧ τ.contents j = σ.contents j := by
  obtain ⟨q, hq, -⟩ := R.exists_queue hh
  obtain ⟨τ, hτ, R'⟩ := represents_perform R hq spare op
  refine ⟨τ, _, hτ, fun j hj hij => ⟨getElem?_handles_perform hτ hj hij, ?_⟩⟩
  obtain ⟨p, hp, -⟩ := R.exists_queue (List.getElem?_eq_getElem hj)
  have hp' : (qs.set i (q.perform op).1 ++ Family.copies q op)[j]? = some p := by
    rw [List.getElem?_append_left (by rw [List.length_set, ← R.length]; exact hj),
      List.getElem?_set_ne (Ne.symm hij), hp]
  rw [R'.contents_eq hp', R.contents_eq hp]

/-- **A clone holds what the queue holds**, and that keeps it. -/
theorem perform_clone {qs : Family} (R : σ.Represents qs) (hh : σ.handles[i]? = some h) :
    ∃ τ k, σ.perform spare i .clone = some (τ, .done) ∧ τ.handles = σ.handles ++ [k] ∧
      k.limit = h.limit ∧ τ.contents σ.handles.length = σ.contents i ∧
      τ.contents i = σ.contents i := by
  obtain ⟨q, hq, -⟩ := R.exists_queue hh
  obtain ⟨τ, hτ, R'⟩ := represents_perform R hq spare .clone
  have hclone : σ.perform spare i .clone =
      some (⟨(h.clone σ.memory).1, σ.handles ++ [(h.clone σ.memory).2]⟩, .done) := by
    rw [perform, hh]
  rw [hclone] at hτ
  cases hτ
  have hset : qs.set i (q.perform .clone).1 = qs := by
    obtain ⟨hi, rfl⟩ := List.getElem?_eq_some_iff.1 hq
    exact List.set_getElem_self hi
  rw [hset] at R'
  refine ⟨_, _, hclone, rfl, rfl, ?_, ?_⟩
  · have hlast : (qs ++ Family.copies q .clone)[σ.handles.length]? = some q := by
      rw [R.length]
      exact List.getElem?_concat_length
    rw [R'.contents_eq hlast, R.contents_eq hq]
  · have hfirst : (qs ++ Family.copies q .clone)[i]? = some q := by
      rw [List.getElem?_append_left (List.getElem?_eq_some_iff.1 hq).1, hq]
    rw [R'.contents_eq hfirst, R.contents_eq hq]

/-- **A push fails exactly on a full queue**, and then changes nothing. -/
theorem perform_push {qs : Family} (R : σ.Represents qs) (hh : σ.handles[i]? = some h) (t : Token) :
    ∃ τ r, σ.perform spare i (.push t) = some (τ, r) ∧
      ((∃ e, r = .full e) ↔ (σ.contents i).length = h.limit) ∧
      ((∃ e, r = .full e) → τ = σ) := by
  obtain ⟨q, hq, H⟩ := R.exists_queue hh
  rw [R.contents_eq hq, H.limit, perform, hh]
  dsimp only
  cases hpush : q.push t with
  | ok q' =>
    obtain ⟨m', h', hok, -, -⟩ := H.push_ok spare hpush
    have hlt : q.items.length < q.limit := (Queue.push_eq_ok_iff.1 hpush).1
    rw [hok]
    refine ⟨_, _, rfl, ?_, ?_⟩
    · simp only [reduceCtorEq, exists_false, false_iff]
      omega
    · simp
  | error e =>
    have hfull : q.items.length = q.limit := (Queue.push_eq_error_iff.1 hpush).1
    rw [H.push_error spare hpush]
    exact ⟨_, _, rfl, ⟨fun _ => hfull, fun _ => ⟨e, rfl⟩⟩, fun _ => rfl⟩

/-- **Queues are independent and lose nothing.** After any operations on any number of clones, the
tokens that a queue was cloned with and those pushed on it since, or those pushed since its last
reset, are the tokens removed from it followed by those that lie in memory for it; and these are no
more than the limit that the first queue was made with. Whatever is asked of a queue next, it
answers and no other changes, although all of them share one memory. How many cells a slice gets to
spare when it moves does not matter. -/
theorem performAll_balanced {n : Int} {steps : List (Nat × Operation)}
    (hrun : Store.performAll spare (.ofLimit n) steps = some σ) :
    (∃ b : Books, Books.performAll spare (.ofLimit n) steps = some b ∧ b.store = σ ∧
      b.ledgers.length = σ.handles.length ∧
      ∀ i l h, b.ledgers[i]? = some l → σ.handles[i]? = some h →
        l.received = l.removed ++ σ.contents i ∧ (σ.contents i).length = h.tokens.length ∧
          h.tokens.length ≤ h.limit ∧ h.limit = max 1 n.toNat) ∧
    ∀ i h, σ.handles[i]? = some h →
      (∀ op, ∃ τ r, σ.perform spare i op = some (τ, r) ∧
        ∀ j < σ.handles.length, j ≠ i →
          τ.handles[j]? = σ.handles[j]? ∧ τ.contents j = σ.contents j) ∧
      (∃ τ k, σ.perform spare i .clone = some (τ, .done) ∧ τ.handles = σ.handles ++ [k] ∧
        k.limit = h.limit ∧ τ.contents σ.handles.length = σ.contents i ∧
        τ.contents i = σ.contents i) ∧
      ∀ t, ∃ τ r, σ.perform spare i (.push t) = some (τ, r) ∧
        ((∃ e, r = .full e) ↔ (σ.contents i).length = h.limit) ∧
        ((∃ e, r = .full e) → τ = σ) := by
  have hlimit : (Queue.ofLimit n).limit = max 1 n.toNat := by
    simp only [Queue.ofLimit]
    split <;> omega
  have hbooks := Books.store_performAll spare (.ofLimit n) steps
  rw [show (Books.ofLimit n).store = .ofLimit n from rfl, hrun] at hbooks
  obtain ⟨b, hb, rfl⟩ := Option.map_eq_some_iff.1 hbooks
  obtain ⟨qs, hqs⟩ := Books.balanced_performAll (Books.balanced_ofLimit n) hb
  have R := hqs.represents
  refine ⟨⟨b, hb, rfl, hqs.length.trans R.length.symm, fun i l h hl hh => ?_⟩, fun i h hh =>
    ⟨perform_independent R hh, perform_clone R hh, perform_push R hh⟩⟩
  obtain ⟨q, hq, H⟩ := R.exists_queue hh
  rw [R.contents_eq hq, H.limit, H.length]
  refine ⟨hqs.ledger i l q hl hq, rfl, q.length_le, ?_⟩
  rw [hqs.limit q (List.mem_of_getElem? hq), hlimit]

/-- A queue for two tokens refuses a third. Its clone gives up a token and takes that one, for which
it has to move, and then the queue itself is reset and takes it too, over what it held before. -/
def cloningSteps : List (Nat × Operation) :=
  [(0, .push ⟨"a", .null⟩), (0, .push ⟨"b", .null⟩), (0, .push ⟨"c", .null⟩), (0, .clone),
    (1, .next), (1, .push ⟨"c", .null⟩), (0, .reset), (0, .push ⟨"c", .null⟩)]

theorem performAll_balanced_cloning :
    ∃ σ, Store.performAll id (.ofLimit 2) cloningSteps = some σ ∧
      Token.tags (σ.contents 0) = ["c"] ∧ Token.tags (σ.contents 1) = ["b", "c"] ∧
      σ.memory.map Token.tags = [["c", "b"], ["a", "b"], ["b", "c", ""]] ∧
      ∃ b : Books, b.store = σ ∧
        b.ledgers.map (fun l => (Token.tags l.received, Token.tags l.removed)) =
          [(["c"], []), (["a", "b", "c"], ["a"])] ∧
        ∀ i l h, b.ledgers[i]? = some l → σ.handles[i]? = some h →
          l.received = l.removed ++ σ.contents i := by
  have hrun : ∃ σ, Store.performAll id (.ofLimit 2) cloningSteps = some σ := ⟨_, rfl⟩
  obtain ⟨σ, hσ⟩ := hrun
  obtain ⟨⟨b, hb, hstore, -, hbalanced⟩, -⟩ := performAll_balanced hσ
  have htags : Token.tags (σ.contents 0) = ["c"] ∧ Token.tags (σ.contents 1) = ["b", "c"] ∧
      σ.memory.map Token.tags = [["c", "b"], ["a", "b"], ["b", "c", ""]] := by
    cases hσ
    exact ⟨rfl, rfl, rfl⟩
  refine ⟨σ, hσ, htags.1, htags.2.1, htags.2.2, b, hstore, ?_,
    fun i l h hl hh => (hbalanced i l h hl hh).1⟩
  cases hb
  rfl

end Store

end PushParser
