import PushParser.Proofs.Cycles
import PushParser.Proofs.FirstSets
import PushParser.Proofs.Renaming
import PushParser.Proofs.Termination

/-!
# Grammars in other names

Two grammars that have the same rules in other names (**`Grammar.Renames`**) stand for the same
words, take the same leftmost steps and have the same first sets, all in these names. The order of
names plays no part: where the rules of a grammar are gone through in it, only what is found
matters.

* `Grammar.Renames.yields`, `leftmostStep`, `heads_iff`: words, leftmost steps and first sets;
* **`Grammar.Renames.acyclic`**: left recursion does not go away in other names;
* **`Grammar.Renames.deterministic`**: nor does it come about that one token does not decide;
* **`Grammar.Renames.verify`**: what root reaches it also reaches in other names;
* **`Grammar.Renames.engine`**: so do the engines of the grammars have the same rules in other
  names, and try options in the same order.
-/

namespace PushParser

/-- **The grammar `g'` is `g` in other names**: `ρ` keeps symbols apart and root where it is, takes
rules to rules and groups to groups, and every nonterminal of `g'` is the name of one of `g`. -/
structure Grammar.Renames (ρ : Symbol → Symbol) (g g' : Grammar) : Prop where
  injective : Function.Injective ρ
  root : ρ rootName = rootName
  rule : ∀ s, g'.rule? (ρ s) = (g.rule? s).map (Rule.rename ρ)
  nonterminal : ∀ s' ∈ g'.nonterminals, ∃ s ∈ g.nonterminals, ρ s = s'
  synthetic : ∀ s, ρ s ∈ g'.synthetic ↔ s ∈ g.synthetic

namespace Grammar

variable {ρ : Symbol → Symbol} {g g' : Grammar}

section Words

variable (R : g.Renames ρ g')

include R

theorem Renames.isNonterminal (s : Symbol) : g'.isNonterminal (ρ s) = g.isNonterminal s := by
  have hrule : (g'.rule? (ρ s)).isSome = (g.rule? s).isSome := by
    rw [R.rule, Option.isSome_map]
  exact hrule

theorem Renames.rule_eq_none {s : Symbol} (h : g.rule? s = none) : g'.rule? (ρ s) = none := by
  rw [R.rule, h, Option.map_none]

theorem Renames.rule_eq_some {s : Symbol} {r : Rule} (h : g.rule? s = some r) :
    g'.rule? (ρ s) = some (Rule.rename ρ r) := by
  rw [R.rule, h, Option.map_some]

omit R in
theorem mem_operands_rename {e : Element} {s : Symbol} (h : s ∈ e.operands) :
    ρ s ∈ (e.rename ρ).operands := by
  rw [Element.operands_rename]
  exact List.mem_map_of_mem h

theorem Renames.position {s : Symbol} {before es : Rule} {e : Element}
    (h : g.rule? s = some (before ++ e :: es)) :
    g'.rule? (ρ s) = some (Rule.rename ρ before ++ e.rename ρ :: Rule.rename ρ es) := by
  rw [R.rule_eq_some h, Rule.rename, List.map_append, List.map_cons]
  rfl

/-! ## Words and leftmost steps -/

theorem Renames.yields {r : Rule} {w : List Symbol} (h : g.Yields r w) :
    g'.Yields (Rule.rename ρ r) (w.map ρ) := by
  induction h with
  | nil => exact .nil
  | terminal hs _ ih => exact .terminal (R.rule_eq_none hs) ih
  | rule hs _ ih =>
    refine .rule (R.rule_eq_some hs) ?_
    rwa [Rule.rename, List.map_append] at ih
  | choice hs _ ih => exact .choice (List.mem_map_of_mem hs) ih
  | @once q s es w _ ih =>
    have hagain : Rule.rename ρ (Element.quantified q s).again =
        (Element.quantified q (ρ s)).again := by
      unfold Element.again
      dsimp only
      split <;> rfl
    refine .once ?_
    rwa [Rule.rename, List.map_cons, List.map_append, ← Rule.rename, ← Rule.rename, hagain] at ih
  | never hq _ ih => exact .never hq ih

theorem Renames.leftmostStep {s t : Symbol} (h : g.LeftmostStep s t) :
    g'.LeftmostStep (ρ s) (ρ t) := by
  obtain ⟨hrule, before, e, es, hs, hbefore, ht⟩ := h
  refine ⟨(R.isNonterminal t).trans hrule, Rule.rename ρ before, e.rename ρ, Rule.rename ρ es,
    R.position hs, ?_, mem_operands_rename ht⟩
  intro d' hd'
  obtain ⟨d, hd, rfl⟩ := List.mem_map.1 hd'
  exact R.yields (hbefore d hd)

theorem Renames.acyclic (h : ¬ ∃ s, Relation.TransGen g'.LeftmostStep s s) :
    ¬ ∃ s, Relation.TransGen g.LeftmostStep s s := by
  rintro ⟨s, hs⟩
  exact h ⟨ρ s, hs.lift ρ fun _ _ => R.leftmostStep⟩

/-! ## Sizes -/

theorem Renames.perm_nonterminals : g'.nonterminals.Perm (g.nonterminals.map ρ) := by
  have hmem : ∀ s', s' ∈ g'.nonterminals ↔ s' ∈ g.nonterminals.map ρ := by
    intro s'
    rw [List.mem_map]
    constructor
    · exact R.nonterminal s'
    · rintro ⟨s, hs, rfl⟩
      rw [mem_nonterminals_iff, R.isNonterminal]
      exact mem_nonterminals_iff.1 hs
  exact (List.perm_ext_iff_of_nodup g'.rules.nodup_keys
    (g.rules.nodup_keys.map R.injective)).2 hmem

theorem Renames.size : g'.rules.size = g.rules.size := by
  have hlength := R.perm_nonterminals.length_eq
  rw [List.length_map] at hlength
  rwa [← g'.rules.length_keys, ← g.rules.length_keys]

omit R in
theorem longestRule_le {n : Nat} (h : ∀ s r, g.rule? s = some r → r.length ≤ n) :
    g.longestRule ≤ n := by
  have hfold : ∀ (es : List (Symbol × Rule)) (m : Nat), m ≤ n → (∀ e ∈ es, e.2.length ≤ n) →
      es.foldl (fun m e => max m e.2.length) m ≤ n := by
    intro es
    induction es with
    | nil => exact fun m hm _ => hm
    | cons e es ih =>
      intro m hm hes
      obtain ⟨he, hes⟩ := List.forall_mem_cons.1 hes
      exact ih _ (Nat.max_le.2 ⟨hm, he⟩) hes
  exact hfold _ 0 (Nat.zero_le n) fun e he => h e.1 e.2 (NameMap.find?_eq_some_iff.2 he)

theorem Renames.longestRule : g'.longestRule = g.longestRule := by
  refine Nat.le_antisymm (longestRule_le fun s' r' hs' => ?_) (longestRule_le fun s r hs => ?_)
  · obtain ⟨s, -, rfl⟩ := R.nonterminal s' (NameMap.mem_keys_iff.2 ⟨r', hs'⟩)
    rw [R.rule, Option.map_eq_some_iff] at hs'
    obtain ⟨r, hs, rfl⟩ := hs'
    rw [Rule.rename, List.length_map]
    exact length_le_longestRule g hs
  · have hlength := length_le_longestRule g' (R.rule_eq_some hs)
    rwa [Rule.rename, List.length_map] at hlength

/-! ## First sets -/

theorem Renames.heads {s x : Symbol} (h : g.Heads s x) : g'.Heads (ρ s) (ρ x) := by
  induction h with
  | terminal hs => exact .terminal (R.rule_eq_none hs)
  | rule hs ht _ ih => exact .rule (R.rule_eq_some hs) (mem_operands_rename ht) ih

theorem Renames.exists_heads {s x' : Symbol} (h : g'.Heads (ρ s) x') :
    ∃ x, g.Heads s x ∧ ρ x = x' := by
  generalize hs' : ρ s = s' at h
  induction h generalizing s with
  | terminal hrule =>
    subst hs'
    rw [R.rule, Option.map_eq_none_iff] at hrule
    exact ⟨s, .terminal hrule, rfl⟩
  | @rule s' t' x' e' es' hrule ht' _ ih =>
    subst hs'
    rw [R.rule, Option.map_eq_some_iff] at hrule
    obtain ⟨r, hs, hr⟩ := hrule
    cases r with
    | nil => cases hr
    | cons e es =>
      rw [Rule.rename, List.map_cons, List.cons.injEq] at hr
      rw [← hr.1, Element.operands_rename] at ht'
      obtain ⟨t, ht, rfl⟩ := List.mem_map.1 ht'
      obtain ⟨x, hx, rfl⟩ := ih rfl
      exact ⟨x, .rule hs ht hx, rfl⟩

theorem Renames.heads_iff {s x : Symbol} : g'.Heads (ρ s) (ρ x) ↔ g.Heads s x := by
  constructor
  · intro h
    obtain ⟨y, hy, hxy⟩ := R.exists_heads h
    rwa [← R.injective hxy]
  · exact R.heads

/-! ## What one token decides -/

theorem Renames.begins {r : Rule} {t : Symbol} (h : g.Begins r t) :
    g'.Begins (Rule.rename ρ r) (ρ t) := by
  induction h with
  | terminal hs => exact .terminal (R.rule_eq_none hs)
  | rule hs _ ih => exact .rule (R.rule_eq_some hs) ih
  | choice hs _ ih => exact .choice (List.mem_map_of_mem hs) ih
  | quantified _ ih => exact .quantified ih
  | next he _ ih => exact .next (R.yields he) ih

theorem Renames.follows {s t : Symbol} (h : g.Follows s t) : g'.Follows (ρ s) (ρ t) := by
  induction h with
  | rest hr hs h => exact .rest (R.position hr) (mem_operands_rename hs) (R.begins h)
  | parent hr hs hes _ ih =>
    exact .parent (R.position hr) (mem_operands_rename hs) (R.yields hes) ih
  | again hr he hs h =>
    exact .again (R.position hr) (by rwa [Element.repeats_rename]) (mem_operands_rename hs)
      (R.begins h)

theorem Renames.deterministic (h : g'.Deterministic) : g.Deterministic where
  solid {lhs r e s} hr he hne hs hempty := by
    have hne' : ∀ x, e.rename ρ ≠ .symbol x := by
      intro x hx
      cases e with
      | symbol y => exact hne y rfl
      | choice | quantified => cases hx
    exact h.solid (R.rule_eq_some hr) (List.mem_map_of_mem he) hne' (mem_operands_rename hs)
      (derives_iff_yields.2 (R.yields (derives_iff_yields.1 hempty)))
  apart hr he hs hs' hne hb hb' :=
    h.apart (R.rule_eq_some hr) (List.mem_map_of_mem he) (List.mem_map_of_mem hs)
      (List.mem_map_of_mem hs') (R.injective.ne hne) (R.begins hb) (R.begins hb')
  ahead hr hb hf := by
    refine h.ahead (R.position hr) (R.begins hb) ?_
    rcases hf with hf | ⟨hes, hf⟩
    · exact .inl (R.begins hf)
    · exact .inr ⟨R.yields hes, R.follows hf⟩

end Words

/-! ## Engines -/

theorem numberFrom_map (ρ : Symbol → Symbol) (i : Nat) (ss : List Symbol) :
    numberFrom i (ss.map ρ) = (numberFrom i ss).map fun o => (o.1, ρ o.2) := by
  induction ss generalizing i with
  | nil => rfl
  | cons s ss ih => rw [List.map_cons, numberFrom, ih, numberFrom, List.map_cons]

/-- **The engines of grammars without left recursion** that have the same rules in other names have
the same rules in these names, and try options in the same order. -/
theorem Renames.engine (R : g.Renames ρ g') (hg : g.leftRecursion? = none)
    (hg' : g'.leftRecursion? = none) (predicts : Bool) :
    (g.engine predicts).Renames ρ (g'.engine predicts) where
  injective := R.injective
  root := R.root
  rule := R.rule
  order tag options := by
    simp only [Engine.trialOrder, numberFrom_map]
    cases predicts with
    | false => rfl
    | true =>
      have hholds : ∀ s, g'.firstTable.holds (ρ tag) (ρ s) = g.firstTable.holds tag s := by
        intro s
        rw [Bool.eq_iff_iff, holds_firstTable_iff hg', holds_firstTable_iff hg, R.heads_iff]
      simp only [Grammar.engine, if_true, List.partition_eq_filter_filter, List.filter_map,
        List.map_append, Function.comp_def, hholds]
  fuel := by
    change g'.fuel = g.fuel
    rw [fuel, fuel, R.longestRule, R.size]

/-! ## What root reaches -/

section Reach

variable {next next' : Symbol → List Symbol}

theorem unseen_map (hρ : Function.Injective ρ) (seen ss : List Symbol) :
    unseen (seen.map ρ) (ss.map ρ) = (unseen seen ss).map ρ := by
  induction ss generalizing seen with
  | nil => rfl
  | cons s ss ih =>
    simp only [List.map_cons, unseen, List.mem_map_of_injective hρ, ih]
    rw [← List.map_cons, ih]
    split <;> rfl

theorem breadthFirstFrom_map (hρ : Function.Injective ρ)
    (hnext : ∀ s, next' (ρ s) = (next s).map ρ) (fuel : Nat) (queue seen : List Symbol) :
    breadthFirstFrom next' fuel (queue.map ρ) (seen.map ρ) =
      (breadthFirstFrom next fuel queue seen).map ρ := by
  induction fuel generalizing queue seen with
  | zero => rfl
  | succ fuel ih =>
    cases queue with
    | nil => rfl
    | cons s queue =>
      rw [List.map_cons, breadthFirstFrom, breadthFirstFrom, hnext, unseen_map hρ,
        ← List.map_append, ← List.map_append, ih, List.map_cons]

end Reach

theorem verify_eq_ok_iff : g.verify = .ok () ↔ g.nonterminals ⊆ g.reachable := by
  have hnil : numberedFrom (g.reachable.length + 1) g.unreachable = [] ↔ g.unreachable = [] := by
    cases g.unreachable <;> simp [numberedFrom]
  have hunreachable : g.unreachable = [] ↔ g.nonterminals ⊆ g.reachable := by
    simp [unreachable, List.filter_eq_nil_iff, List.subset_def]
  rw [← hunreachable, ← hnil, verify]
  split
  · next h => simp [h]
  · next h => exact ⟨fun hok => (nomatch hok), fun hempty => absurd hempty h⟩

/-- **What root reaches it also reaches in other names.** -/
theorem Renames.verify (R : g.Renames ρ g') (h : g.verify = .ok ()) : g'.verify = .ok () := by
  have hmentions : ∀ s, g'.mentions (ρ s) = (g.mentions s).map ρ := by
    intro s
    rw [mentions, mentions, R.rule]
    cases g.rule? s with
    | none => rfl
    | some r =>
      simp only [Option.map_some, ruleSymbols, Rule.rename, List.flatMap_map,
        Element.operands_rename]
      rw [← List.map_flatMap, List.filter_map]
      congr 2
      funext t
      exact R.isNonterminal t
  have hreachable : g'.reachable = g.reachable.map ρ := by
    have hbfs := breadthFirstFrom_map R.injective hmentions g.rules.size [rootName] [rootName]
    rw [List.map_cons, List.map_nil, R.root] at hbfs
    rw [reachable, breadthFirst, R.size]
    exact hbfs
  rw [verify_eq_ok_iff] at h ⊢
  intro s' hs'
  obtain ⟨s, hs, rfl⟩ := R.nonterminal s' hs'
  rw [hreachable]
  exact List.mem_map_of_mem (h hs)

end Grammar

end PushParser
