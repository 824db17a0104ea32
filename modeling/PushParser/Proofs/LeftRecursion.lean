import Mathlib.Data.List.Chain
import Mathlib.Data.List.Perm.Subperm
import Mathlib.Order.WellFounded
import PushParser.Grammar.Build
import PushParser.Grammar.Nullable

/-!
# Leftmost steps come to an end

A search that meets no cycle has put the symbols it visited in an order in which successors come
before: they are **`Sorted`**. Where the check for left recursion found nothing, leftmost steps
therefore come to an end, and the nonterminals along them are all different.

* `visitAll_sorted`, `visit_sorted`: what a search without a cycle returns. The fuel lasts because a
  path has no symbol twice;
* **`acc_of_findCycle`**: without a cycle every symbol has finitely many steps below it;
* **`Grammar.nodup_of_steps`**: no nonterminal comes twice along leftmost steps.
-/

namespace PushParser

/-! ## Searches without a cycle -/

section Search

variable {next : Symbol → List Symbol}

/-- The successors of each symbol come after it in the list. -/
inductive Sorted (next : Symbol → List Symbol) : List Symbol → Prop
  | nil : Sorted next []
  | cons {s : Symbol} {l : List Symbol} (hs : next s ⊆ l) (hl : Sorted next l) :
      Sorted next (s :: l)

theorem Sorted.acc {l : List Symbol} (h : Sorted next l) {s : Symbol} (hs : s ∈ l) :
    Acc (fun t s => t ∈ next s) s := by
  induction h generalizing s with
  | nil => cases hs
  | @cons s' l hs' _ ih =>
    rcases List.mem_cons.1 hs with rfl | hs
    · exact .intro _ fun t ht => ih (hs' ht)
    · exact ih hs

/-- What visiting leads to: more symbols, sorted, those of `targets` among them. -/
def Visited (next : Symbol → List Symbol) (finished targets : List Symbol) :
    Except (List Symbol) (List Symbol) → Prop
  | .ok l => Sorted next l ∧ finished ⊆ l ∧ targets ⊆ l
  | .error _ => True

theorem visitAll_sorted {visitOne : List Symbol → Symbol → Except (List Symbol) (List Symbol)}
    {symbols : List Symbol}
    (hone : ∀ finished, ∀ t ∈ symbols, Sorted next finished →
      Visited next finished [t] (visitOne finished t))
    {finished targets : List Symbol} (hf : Sorted next finished) (ht : targets ⊆ symbols) :
    Visited next finished targets (visitAll visitOne finished targets) := by
  induction targets generalizing finished with
  | nil => exact ⟨hf, List.Subset.refl _, List.nil_subset _⟩
  | cons t ts ih =>
    have h₁ := hone finished t (ht List.mem_cons_self) hf
    rw [visitAll]
    cases hv : visitOne finished t with
    | error => trivial
    | ok l =>
      rw [hv] at h₁
      obtain ⟨hl, hsub, hmem⟩ := h₁
      have h₂ := ih hl fun s hs => ht (List.mem_cons_of_mem _ hs)
      dsimp only
      cases hrest : visitAll visitOne l ts with
      | error => trivial
      | ok l' =>
        rw [hrest] at h₂
        obtain ⟨hl', hsub', hmem'⟩ := h₂
        refine ⟨hl', fun s hs => hsub' (hsub hs), fun s hs => ?_⟩
        rcases List.mem_cons.1 hs with rfl | hs
        · exact hsub' (hmem List.mem_cons_self)
        · exact hmem' hs

/-- **A visit that meets no cycle sorts what it visits.** The path holds different symbols, so there
is fuel for one more. -/
theorem visit_sorted {symbols : List Symbol} (hnext : ∀ s ∈ symbols, next s ⊆ symbols) {fuel : Nat}
    {path finished : List Symbol} {s : Symbol} (hpath : path.Nodup) (hsub : path ⊆ symbols)
    (hfuel : symbols.length < path.length + fuel) (hs : s ∈ symbols)
    (hf : Sorted next finished) : Visited next finished [s] (visit next fuel path finished s) := by
  induction fuel generalizing path finished s with
  | zero =>
    have hle := (hpath.subperm hsub).length_le
    omega
  | succ fuel ih =>
    rw [visit]
    split
    · trivial
    · next hnew =>
      split
      · next hin =>
        refine ⟨hf, List.Subset.refl _, fun t ht => ?_⟩
        rw [List.mem_singleton.1 ht]
        exact hin
      · have hpath' : (s :: path).Nodup := List.nodup_cons.2 ⟨hnew, hpath⟩
        have hsub' : s :: path ⊆ symbols := List.cons_subset.2 ⟨hs, hsub⟩
        have hfuel' : symbols.length < (s :: path).length + fuel := by
          rw [List.length_cons]
          omega
        have hall := visitAll_sorted
          (fun l t ht hl => ih hpath' hsub' hfuel' ht hl) hf (hnext s hs)
        cases hv : visitAll (visit next fuel (s :: path)) finished (next s) with
        | error => trivial
        | ok l =>
          rw [hv] at hall
          obtain ⟨hl, hfl, hsl⟩ := hall
          refine ⟨.cons hsl hl, fun t ht => List.mem_cons_of_mem _ (hfl ht), fun t ht => ?_⟩
          rw [List.mem_singleton.1 ht]
          exact List.mem_cons_self

/-- **Without a cycle nothing goes on forever.** -/
theorem acc_of_findCycle {symbols : List Symbol} (hnext : ∀ s ∈ symbols, next s ⊆ symbols)
    (h : findCycle next symbols = none) {s : Symbol} (hs : s ∈ symbols) :
    Acc (fun t s => t ∈ next s) s := by
  have hone : ∀ l, ∀ t ∈ symbols, Sorted next l →
      Visited next l [t] (visit next (symbols.length + 1) [] l t) :=
    fun l t ht hl => visit_sorted hnext .nil (List.nil_subset _) (by simp) ht hl
  have hall := visitAll_sorted hone .nil (List.Subset.refl symbols)
  rw [findCycle] at h
  split at h
  · cases h
  · next l hv =>
    rw [hv] at hall
    exact hall.1.acc (hall.2.2 hs)

end Search

/-! ## Leftmost steps -/

namespace Grammar

variable {g : Grammar}

theorem mem_nonterminals_iff {s : Symbol} : s ∈ g.nonterminals ↔ g.isNonterminal s = true :=
  NameMap.contains_iff.symm

theorem leftmostIn_subset (empty : NameSet) (r : Rule) :
    g.leftmostIn empty r ⊆ g.nonterminals := by
  induction r with
  | nil => exact List.nil_subset _
  | cons e es ih =>
    intro s hs
    rw [leftmostIn, List.mem_append] at hs
    rcases hs with hs | hs
    · exact mem_nonterminals_iff.2 (List.mem_filter.1 hs).2
    · split at hs
      · exact ih hs
      · cases hs

theorem leftmost_of_rule {s : Symbol} {r : Rule} (hs : g.rule? s = some r) :
    g.leftmost s = g.leftmostIn g.nullable r := by
  rw [leftmost, leftmostWith, hs]

theorem leftmost_subset (s : Symbol) : g.leftmost s ⊆ g.nonterminals := by
  cases hs : g.rule? s with
  | none =>
    rw [leftmost, leftmostWith, hs]
    exact List.nil_subset _
  | some r =>
    rw [leftmost_of_rule hs]
    exact leftmostIn_subset _ r

/-- **Leftmost steps come to an end** in a grammar that passed the check. -/
theorem wellFounded_leftmost (h : g.leftRecursion? = none) :
    WellFounded fun t s => t ∈ g.leftmost s := by
  refine ⟨fun s => .intro s fun t ht => ?_⟩
  rw [leftRecursion?_eq] at h
  exact acc_of_findCycle (fun s _ => leftmost_subset s) h (leftmost_subset s ht)

/-- **No nonterminal comes twice along leftmost steps.** -/
theorem nodup_of_steps (h : g.leftRecursion? = none) {path : List Symbol}
    (hpath : path.IsChain fun t s => t ∈ g.leftmost s) : path.Nodup := by
  have hwf := (wellFounded_leftmost h).transGen
  have hchain : path.IsChain (Relation.TransGen fun t s => t ∈ g.leftmost s) :=
    hpath.imp fun _ _ hst => .single hst
  refine (List.isChain_iff_pairwise.1 hchain).imp fun {t s} hts heq => ?_
  exact hwf.irrefl.irrefl s (heq ▸ hts)

end Grammar

end PushParser
