import PushParser.Grammar.Ebnf
import PushParser.Proofs.BreadthFirst
import PushParser.Proofs.Building
import PushParser.Proofs.LeftRecursion
import PushParser.Proofs.Nullable

/-!
# The order of productions

The productions of a grammar are listed as a search from root finds their nonterminals, and those it
does not find follow sorted.

* `Grammar.Mentions`, `Grammar.Reaches`: the rule of a nonterminal mentions another, and root
  reaches one by such steps;
* **`Grammar.explored_reachable`**: `Grammar.reachable` is a whole search;
* **`Grammar.Lists`**, **`Grammar.lists_productionOrder`**: what is to be said of the order.
-/

namespace PushParser

namespace Grammar

variable {definitions : NameMap Form} {g : Grammar} {s t : Symbol}

/-! ## What root reaches -/

/-- **The rule of `s` mentions the nonterminal `t`** as an operand of one of its elements. -/
def Mentions (g : Grammar) (s t : Symbol) : Prop :=
  ∃ r e, g.rule? s = some r ∧ e ∈ r ∧ t ∈ e.operands ∧ t ∈ g.nonterminals

/-- **Root reaches the nonterminal** by way of rules that mention others. -/
def Reaches (g : Grammar) (s : Symbol) : Prop := ∃ n, ReachedIn g.Mentions rootName n s

theorem mem_mentions_iff : t ∈ g.mentions s ↔ g.Mentions s t := by
  unfold mentions Mentions
  cases g.rule? s with
  | none => simp
  | some r => simp [ruleSymbols, List.mem_filter, mem_nonterminals_iff, ← and_assoc]

theorem mentions_eq (g : Grammar) : (fun s t => t ∈ g.mentions s) = g.Mentions := by
  funext s t
  exact propext mem_mentions_iff

/-- **Every nonterminal has its turn**: a grammar with a root has fuel for all of them. -/
theorem explored_reachable (hroot : rootName ∈ g.nonterminals) :
    Explored g.mentions rootName g.reachable [] := by
  refine explored_breadthFirst (fun s _ t ht => ?_) hroot g.rules.length_keys.le
  obtain ⟨r, e, -, -, -, ht⟩ := mem_mentions_iff.1 ht
  exact ht

theorem exists_rule (h : s ∈ g.nonterminals) : ∃ r, g.rule? s = some r := NameMap.mem_keys_iff.1 h

theorem root_mem_nonterminals (hg : build definitions = .ok g) : rootName ∈ g.nonterminals :=
  NameMap.mem_keys_iff.2 (exists_rule_root hg)

theorem mem_reachable_iff (hroot : rootName ∈ g.nonterminals) : s ∈ g.reachable ↔ g.Reaches s := by
  rw [(explored_reachable hroot).mem_iff, mentions_eq]
  rfl

theorem Reaches.mem_nonterminals (hroot : rootName ∈ g.nonterminals) (h : g.Reaches s) :
    s ∈ g.nonterminals := by
  obtain ⟨n, hn⟩ := h
  cases hn with
  | start => exact hroot
  | step _ hst =>
    obtain ⟨r, e, -, -, -, ht⟩ := hst
    exact ht

theorem mem_unreachable_iff (hroot : rootName ∈ g.nonterminals) :
    s ∈ g.unreachable ↔ s ∈ g.nonterminals ∧ ¬ g.Reaches s := by
  simp [unreachable, List.mem_filter, mem_reachable_iff hroot]

theorem mem_productionOrder_iff (hroot : rootName ∈ g.nonterminals) :
    s ∈ g.productionOrder ↔ s ∈ g.nonterminals := by
  rw [productionOrder, List.mem_append, mem_reachable_iff hroot, mem_unreachable_iff hroot]
  by_cases hs : g.Reaches s
  · simp [hs, hs.mem_nonterminals hroot]
  · simp [hs]

/-! ## The order -/

/-- **What is to be said of the order of productions.** -/
structure Lists (g : Grammar) (order : List Symbol) : Prop where
  /-- Every nonterminal once. -/
  nodup : order.Nodup
  mem_iff : ∀ s, s ∈ order ↔ s ∈ g.nonterminals
  first : order.head? = some rootName
  /-- What root reaches, then the rest sorted. -/
  parts : ∃ reached rest, order = reached ++ rest ∧ (∀ s, s ∈ reached ↔ g.Reaches s) ∧
    (∀ s, s ∈ rest ↔ s ∈ g.nonterminals ∧ ¬ g.Reaches s) ∧ rest.Pairwise (· < ·)
  /-- What root reaches is listed after a nonterminal whose rule mentions it. -/
  mentioned : ∀ a t b, order = a ++ t :: b → g.Reaches t → t = rootName ∨ ∃ s ∈ a, g.Mentions s t
  /-- Whatever is listed before `t` is no further from root than `t` is. -/
  nearest : ∀ a t b, order = a ++ t :: b → ∀ n, ReachedIn g.Mentions rootName n t →
    ∀ s ∈ a, ∃ m ≤ n, ReachedIn g.Mentions rootName m s

theorem split_productionOrder (hroot : rootName ∈ g.nonterminals) {a b : List Symbol}
    (h : g.productionOrder = a ++ t :: b) (ht : g.Reaches t) : ∃ c, g.reachable = a ++ t :: c := by
  rcases split_append h with hsplit | ⟨-, hrest⟩
  · exact hsplit
  · exact absurd ht ((mem_unreachable_iff hroot).1 hrest).2

/-- **The productions are in order.** -/
theorem lists_productionOrder (hroot : rootName ∈ g.nonterminals) : g.Lists g.productionOrder := by
  have hexplored := explored_reachable hroot
  refine ⟨?_, fun s => mem_productionOrder_iff hroot, ?_, ?_, ?_, ?_⟩
  · refine List.Nodup.append ?_ (g.rules.nodup_keys.filter _) fun s hs hrest => ?_
    · simpa using hexplored.nodup
    · exact ((mem_unreachable_iff hroot).1 hrest).2 ((mem_reachable_iff hroot).1 hs)
  · have hfirst := hexplored.first
    rw [List.append_nil] at hfirst
    rw [productionOrder, List.head?_append, hfirst, Option.some_or]
  · exact ⟨g.reachable, g.unreachable, rfl, fun s => mem_reachable_iff hroot,
      fun s => mem_unreachable_iff hroot, g.rules.ordered.filter _⟩
  · intro a t b hsplit ht
    obtain ⟨c, hc⟩ := split_productionOrder hroot hsplit ht
    rcases hexplored.exists_before hc with rfl | ⟨s, hs, hst⟩
    · exact Or.inl rfl
    · exact Or.inr ⟨s, hs, mem_mentions_iff.1 hst⟩
  · intro a t b hsplit n hn
    obtain ⟨c, hc⟩ := split_productionOrder hroot hsplit ⟨n, hn⟩
    rw [← mentions_eq] at hn ⊢
    exact hexplored.nearest_first hn hc

end Grammar

end PushParser
