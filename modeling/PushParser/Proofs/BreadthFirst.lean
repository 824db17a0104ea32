import Mathlib.Data.List.Nodup
import Mathlib.Data.List.Perm.Subperm
import PushParser.Grammar.Search

/-!
# What a breadth-first search lists

A search lists what can be reached from its start, each symbol once and nearest first. What carries
this is that the symbols seen are at all times those listed followed by those queued, so the end of
the list only ever grows.

* `ReachedIn`: a symbol is reached in a number of steps;
* **`Explored`**: what is known of the symbols `listed` and `queued` so far, with `Explored.initial`
  and **`Explored.visit`** for one symbol taken from the queue;
* **`explored_breadthFirst`**: the whole search, if there is fuel for every symbol;
* **`Explored.mem_iff`**, **`Explored.nearest_first`**: what it lists, and in which order;
* `breadthFirst_congr`: only the order in which successors first occur counts.
-/

namespace PushParser

/-- **Reached in `n` steps** from `start`. -/
inductive ReachedIn (step : Symbol → Symbol → Prop) (start : Symbol) : Nat → Symbol → Prop
  | start : ReachedIn step start 0 start
  | step {n : Nat} {s t : Symbol} (h : ReachedIn step start n s) (hst : step s t) :
      ReachedIn step start (n + 1) t

variable {next next' : Symbol → List Symbol} {start : Symbol}

/-! ## What was not seen before -/

theorem mem_unseen {seen ts : List Symbol} {t : Symbol} :
    t ∈ unseen seen ts ↔ t ∈ ts ∧ t ∉ seen := by
  induction ts generalizing seen with
  | nil => simp [unseen]
  | cons u ts ih =>
    rw [unseen]
    by_cases hu : u ∈ seen
    · rw [if_pos hu, ih]
      grind
    · rw [if_neg hu, List.mem_cons, ih]
      grind

theorem nodup_unseen (seen ts : List Symbol) : (unseen seen ts).Nodup := by
  induction ts generalizing seen with
  | nil => simp [unseen]
  | cons u ts ih =>
    rw [unseen]
    split
    · exact ih seen
    · refine List.nodup_cons.2 ⟨fun hu => ?_, ih (u :: seen)⟩
      exact (mem_unseen.1 hu).2 List.mem_cons_self

/-! ## One symbol after the other -/

/-- **What is known while searching**, of the symbols listed and of those queued behind them. -/
structure Explored (next : Symbol → List Symbol) (start : Symbol) (listed queued : List Symbol) :
    Prop where
  first : (listed ++ queued).head? = some start
  nodup : (listed ++ queued).Nodup
  /-- What was seen is reached. -/
  reached : ∀ t ∈ listed ++ queued, ∃ n, ReachedIn (fun s t => t ∈ next s) start n t
  /-- What was seen was found from a symbol listed before it. -/
  found : ∀ a t b, listed ++ queued = a ++ t :: b → t = start ∨ ∃ s ∈ listed, s ∈ a ∧ t ∈ next s
  /-- What was seen when the successors of `s` had been queued was found from `s` or before. -/
  wave : ∀ a s b, listed = a ++ s :: b → ∃ c d, listed ++ queued = c ++ d ∧ next s ⊆ c ∧
    ∀ t ∈ c, t = start ∨ ∃ p ∈ a ++ [s], t ∈ next p

theorem split_append {xs ys a b : List Symbol} {t : Symbol} (h : xs ++ ys = a ++ t :: b) :
    (∃ c, xs = a ++ t :: c) ∨ xs ⊆ a ∧ t ∈ ys := by
  rcases List.append_eq_append_iff.1 h with ⟨c, rfl, rfl⟩ | ⟨c, rfl, hc⟩
  · exact Or.inr ⟨List.subset_append_left _ _, by simp⟩
  · cases c with
    | nil => exact Or.inr ⟨by simp, by rw [← List.nil_append ys, ← hc]; simp⟩
    | cons u c =>
      obtain ⟨rfl, -⟩ := List.cons.inj hc
      exact Or.inl ⟨c, rfl⟩

namespace Explored

variable {listed queued : List Symbol}

theorem initial (next : Symbol → List Symbol) (start : Symbol) :
    Explored next start [] [start] where
  first := rfl
  nodup := by simp
  reached t ht := by
    obtain rfl : t = start := by simpa using ht
    exact ⟨0, .start⟩
  found a t b h := by
    left
    cases a with
    | nil => exact (List.cons.inj h).1.symm
    | cons => simp at h
  wave a s b h := by simp at h

/-- **One symbol taken from the queue**, and its successors queued. -/
theorem visit {s : Symbol} (h : Explored next start listed (s :: queued)) :
    Explored next start (listed ++ [s])
      (queued ++ unseen (listed ++ s :: queued) (next s)) := by
  have hseen : (listed ++ [s]) ++ (queued ++ unseen (listed ++ s :: queued) (next s)) =
      (listed ++ s :: queued) ++ unseen (listed ++ s :: queued) (next s) := by simp
  have hs : s ∈ listed ++ s :: queued := by simp
  refine ⟨?_, ?_, ?_, ?_, ?_⟩ <;> rw [hseen]
  · rw [List.head?_append, h.first, Option.some_or]
  · exact h.nodup.append (nodup_unseen _ _) fun t ht hnew => (mem_unseen.1 hnew).2 ht
  · intro t ht
    rcases List.mem_append.1 ht with ht | ht
    · exact h.reached t ht
    · obtain ⟨n, hn⟩ := h.reached s hs
      exact ⟨n + 1, hn.step (mem_unseen.1 ht).1⟩
  · intro a t b hsplit
    rcases split_append hsplit with ⟨c, hc⟩ | ⟨hsubset, ht⟩
    · rcases h.found a t c hc with rfl | ⟨p, hp, hpa, hpt⟩
      · exact Or.inl rfl
      · exact Or.inr ⟨p, List.mem_append_left _ hp, hpa, hpt⟩
    · exact Or.inr ⟨s, by simp, hsubset hs, (mem_unseen.1 ht).1⟩
  · intro a u b hsplit
    rcases split_append hsplit with ⟨c, hc⟩ | ⟨hsubset, hu⟩
    · -- an earlier wave stays where it is
      obtain ⟨v, w, hvw, hnext, hfound⟩ := h.wave a u c hc
      exact ⟨v, w ++ unseen (listed ++ s :: queued) (next s), by rw [hvw, List.append_assoc],
        hnext, hfound⟩
    · -- the wave of `s` is all that has been seen
      obtain rfl : u = s := List.mem_singleton.1 hu
      refine ⟨_, [], (List.append_nil _).symm, fun t ht => ?_, fun t ht => ?_⟩
      · rw [List.mem_append, mem_unseen]
        by_cases hin : t ∈ listed ++ u :: queued
        · exact Or.inl hin
        · exact Or.inr ⟨ht, hin⟩
      · rcases List.mem_append.1 ht with ht | ht
        · obtain ⟨c, d, hcd⟩ := List.append_of_mem ht
          rcases h.found c t d hcd with rfl | ⟨p, hp, -, hpt⟩
          · exact Or.inl rfl
          · exact Or.inr ⟨p, List.mem_append_left _ (hsubset hp), hpt⟩
        · exact Or.inr ⟨u, by simp, (mem_unseen.1 ht).1⟩

/-! ## When the queue is empty -/

section Done

variable {order : List Symbol} (h : Explored next start order [])

include h

/-- **What is listed is what can be reached.** -/
theorem mem_iff {t : Symbol} :
    t ∈ order ↔ ∃ n, ReachedIn (fun s t => t ∈ next s) start n t := by
  constructor
  · intro ht
    exact h.reached t (by simpa using ht)
  · rintro ⟨n, hn⟩
    induction hn with
    | start =>
      have hfirst := h.first
      rw [List.append_nil] at hfirst
      exact List.mem_of_mem_head? hfirst
    | step _ hst ih =>
      obtain ⟨a, b, rfl⟩ := List.append_of_mem ih
      obtain ⟨c, d, hcd, hnext, -⟩ := h.wave a _ b rfl
      rw [List.append_nil] at hcd
      rw [hcd]
      exact List.mem_append_left _ (hnext hst)

theorem exists_before {a b : List Symbol} {t : Symbol} (hsplit : order = a ++ t :: b) :
    t = start ∨ ∃ s ∈ a, t ∈ next s := by
  rcases h.found a t b (by rw [List.append_nil, hsplit]) with rfl | ⟨s, -, hs, hst⟩
  · exact Or.inl rfl
  · exact Or.inr ⟨s, hs, hst⟩

/-- **Nearest first.** What is listed before a symbol is reached in no more steps. -/
theorem nearest_first {n : Nat} {u : Symbol}
    (hu : ReachedIn (fun s t => t ∈ next s) start n u) {a b : List Symbol}
    (hsplit : order = a ++ u :: b) :
    ∀ t ∈ a, ∃ m ≤ n, ReachedIn (fun s t => t ∈ next s) start m t := by
  have hnodup := h.nodup
  rw [List.append_nil] at hnodup
  induction hu generalizing a b with
  | start =>
    intro t ht
    have hfirst := h.first
    rw [List.append_nil, hsplit] at hfirst
    cases a with
    | nil => cases ht
    | cons v a =>
      obtain rfl : v = start := by simpa using hfirst
      rw [hsplit] at hnodup
      simp at hnodup
  | @step n s u hs hsu ih =>
    intro t ht
    obtain ⟨c, d, hcd⟩ := List.append_of_mem (h.mem_iff.2 ⟨n, hs⟩)
    obtain ⟨v, w, hvw, hnext, hfound⟩ := h.wave c s d hcd
    rw [List.append_nil] at hvw
    -- `u` belongs to the wave of `s`, and so does all that is listed before `u`
    have htv : t ∈ v := by
      rw [hvw] at hsplit hnodup
      rcases List.append_eq_append_iff.1 hsplit with ⟨x, rfl, hx⟩ | ⟨x, rfl, -⟩
      · have huw : u ∈ w := by simp [hx]
        exact absurd huw (List.disjoint_of_nodup_append hnodup (hnext hsu))
      · exact List.mem_append_left _ ht
    rcases hfound t htv with rfl | ⟨p, hp, hpt⟩
    · exact ⟨0, by omega, .start⟩
    · rcases List.mem_append.1 hp with hp | hp
      · obtain ⟨m, hm, hpm⟩ := ih hcd p hp
        exact ⟨m + 1, by omega, hpm.step hpt⟩
      · obtain rfl := List.mem_singleton.1 hp
        exact ⟨n + 1, by omega, hs.step hpt⟩

end Done

end Explored

/-! ## The whole search -/

/-- From what is known so far the search goes on to the end, if there is fuel for each symbol of
`all` that is not listed yet. -/
theorem explored_breadthFirstFrom {all : List Symbol} (hnext : ∀ s ∈ all, next s ⊆ all)
    {fuel : Nat} {listed queued : List Symbol} (h : Explored next start listed queued)
    (hall : listed ++ queued ⊆ all) (hfuel : all.length ≤ listed.length + fuel) :
    Explored next start (listed ++ breadthFirstFrom next fuel queued (listed ++ queued)) [] := by
  induction fuel generalizing listed queued with
  | zero =>
    have hlength := (h.nodup.subperm hall).length_le
    rw [List.length_append] at hlength
    obtain rfl : queued = [] := List.length_eq_zero_iff.1 (by omega)
    simpa [breadthFirstFrom] using h
  | succ fuel ih =>
    cases queued with
    | nil => simpa [breadthFirstFrom] using h
    | cons s queued =>
      have hvisit := h.visit
      have hseen : (listed ++ [s]) ++ (queued ++ unseen (listed ++ s :: queued) (next s)) =
          (listed ++ s :: queued) ++ unseen (listed ++ s :: queued) (next s) := by simp
      have hgrown : (listed ++ s :: queued) ++ unseen (listed ++ s :: queued) (next s) ⊆ all := by
        refine List.append_subset.2 ⟨hall, fun t ht => ?_⟩
        exact hnext s (hall (by simp)) (mem_unseen.1 ht).1
      have hlength : all.length ≤ (listed ++ [s]).length + fuel := by
        rw [List.length_append, List.length_singleton]
        omega
      have hrest := ih hvisit (by rwa [hseen]) hlength
      rw [hseen, List.append_assoc, List.singleton_append] at hrest
      rw [breadthFirstFrom]
      exact hrest

/-- **A search with fuel for every symbol lists what can be reached, nearest first.** -/
theorem explored_breadthFirst {all : List Symbol} (hnext : ∀ s ∈ all, next s ⊆ all)
    (hstart : start ∈ all) {bound : Nat} (hbound : all.length ≤ bound) :
    Explored next start (breadthFirst next bound start) [] := by
  have hfuel : all.length ≤ ([] : List Symbol).length + bound := by simpa using hbound
  exact explored_breadthFirstFrom hnext (.initial next start) (by simpa using hstart) hfuel

/-- **Only the order in which successors first occur counts.** -/
theorem breadthFirst_congr (h : ∀ seen s, unseen seen (next s) = unseen seen (next' s))
    (bound : Nat) (start : Symbol) :
    breadthFirst next bound start = breadthFirst next' bound start := by
  have hfrom : ∀ fuel queue seen,
      breadthFirstFrom next fuel queue seen = breadthFirstFrom next' fuel queue seen := by
    intro fuel
    induction fuel with
    | zero => exact fun _ _ => rfl
    | succ fuel ih =>
      intro queue seen
      cases queue with
      | nil => rfl
      | cons s queue => rw [breadthFirstFrom, breadthFirstFrom, h, ih]
  exact hfrom bound [start] [start]

end PushParser
