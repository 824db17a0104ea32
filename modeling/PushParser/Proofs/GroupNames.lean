import Mathlib.Data.List.Forall2
import Mathlib.Data.List.Nodup
import PushParser.Proofs.Building
import PushParser.Proofs.Nullable

/-!
# The names of groups

Naming the groups of a set of drafts adds one rule for each group, under a name that has no rule
yet. **`Expands`** says what becomes of the drafts: every rule keeps its name and its positions, and
a group stands there as a quantified nonterminal whose rule is the sequence of the group.

* `freshName_not_mem`: a name is found that is not taken;
* `Expansion.Fresh`: the names taken are all different, which naming one more group keeps;
* `Draft.Becomes`: what a draft may become;
* **`expands_expandRules`**: this is what naming all groups does.
-/

namespace PushParser

/-! ## Free names -/

theorem toString_injective : Function.Injective fun n : Nat => toString n := by
  have hread : ∀ n : Nat, Nat.ofDigitChars 10 (toString n).toList 0 = n := by
    intro n
    rw [Nat.toString_eq_repr, Nat.toList_repr, Nat.ofDigitChars_ten_toDigits]
  intro m n (h : toString m = toString n)
  rw [← hread m, h, hread n]

theorem numbered_injective (base : Symbol) : Function.Injective (numbered base) := by
  intro m n h
  rw [numbered, numbered, String.append_right_inj] at h
  exact toString_injective h

theorem exists_not_mem_of_injective {f : Nat → Symbol} (hf : Function.Injective f)
    (taken : List Symbol) : ∃ i ≤ taken.length, f i ∉ taken := by
  by_contra hnone
  push Not at hnone
  have hsubset : (List.range (taken.length + 1)).map f ⊆ taken := by
    intro s hs
    obtain ⟨i, hi, rfl⟩ := List.mem_map.1 hs
    exact hnone i (Nat.le_of_lt_succ (List.mem_range.1 hi))
  have hle := ((List.nodup_range.map hf).subperm hsubset).length_le
  rw [List.length_map, List.length_range] at hle
  omega

theorem numbered_mem_of_freshNumber_mem {taken : List Symbol} {base : Symbol} {fuel counter : Nat}
    (h : numbered base (freshNumber taken base fuel counter) ∈ taken) :
    ∀ i ≤ fuel, numbered base (counter + 1 + i) ∈ taken := by
  induction fuel generalizing counter with
  | zero =>
    intro i hi
    obtain rfl := Nat.le_zero.1 hi
    exact h
  | succ fuel ih =>
    rw [freshNumber] at h
    split at h
    · next hmem =>
      intro i hi
      cases i with
      | zero => exact hmem
      | succ i =>
        have hnext := ih h i (Nat.le_of_succ_le_succ hi)
        rwa [show counter + 1 + (i + 1) = counter + 1 + 1 + i by omega]
    · next hfree => exact absurd h hfree

/-- There are more attempts than names taken, so one of them succeeds. -/
theorem numbered_freshNumber_not_mem (taken : List Symbol) (base : Symbol) (counter : Nat) :
    numbered base (freshNumber taken base taken.length counter) ∉ taken := by
  intro h
  have hinjective : Function.Injective fun i => numbered base (counter + 1 + i) := by
    intro i j hij
    have := numbered_injective base hij
    omega
  obtain ⟨i, hi, hfree⟩ := exists_not_mem_of_injective hinjective taken
  exact hfree (numbered_mem_of_freshNumber_mem h i hi)

/-- **A name is found that is not taken.** -/
theorem freshName_not_mem (taken : List Symbol) (base : Symbol) (counter : Nat) :
    (freshName taken base counter).1 ∉ taken := by
  unfold freshName
  split
  · exact numbered_freshNumber_not_mem taken base counter
  · assumption

/-! ## Naming groups -/

/-- What a draft becomes, when the groups named have the rules of `added`. -/
inductive Draft.Becomes (added : List (Symbol × Rule)) : Draft → Element → Prop
  | element (e : Element) : Becomes added (.element e) e
  | group {q : Quantifier} {operands : List Symbol} {n : Symbol}
      (h : (n, operands.map .symbol) ∈ added) :
      Becomes added (.group q operands) (.quantified q n)

theorem Draft.Becomes.mono {added more : List (Symbol × Rule)} (h : added ⊆ more) {d : Draft}
    {e : Element} (hd : d.Becomes added e) : d.Becomes more e := by
  cases hd with
  | element => exact .element e
  | group hn => exact .group (h hn)

/-- What a rule becomes, position by position. -/
abbrev RuleBecomes (added : List (Symbol × Rule)) (d : Symbol × List Draft) (r : Symbol × Rule) :
    Prop :=
  r.1 = d.1 ∧ List.Forall₂ (Draft.Becomes added) d.2 r.2

/-- The group is one of the drafts. -/
def HasGroup (drafts : List (Symbol × List Draft)) (operands : List Symbol) : Prop :=
  ∃ d ∈ drafts, ∃ q, Draft.group q operands ∈ d.2

namespace Expansion

variable {keys : List Symbol} {x : Expansion}

/-- **The names taken** are those of the rules added and the `keys` before them, all different. -/
structure Fresh (keys : List Symbol) (x : Expansion) : Prop where
  taken : x.taken = x.added.map Prod.fst ++ keys
  nodup : x.taken.Nodup

theorem Fresh.nameGroup (h : x.Fresh keys) (lhs : Symbol) (position : Nat)
    (operands : List Symbol) : (x.nameGroup lhs position operands).2.Fresh keys where
  taken := congrArg (_ :: ·) h.taken
  nodup := List.nodup_cons.2 ⟨freshName_not_mem _ _ _, h.nodup⟩

theorem Fresh.element (h : x.Fresh keys) (lhs : Symbol) (position : Nat) (d : Draft) :
    (x.element lhs position d).2.Fresh keys := by
  cases d with
  | element => exact h
  | group q operands => exact h.nameGroup lhs position operands

theorem Fresh.elements (h : x.Fresh keys) (lhs : Symbol) (position : Nat) (ds : List Draft) :
    (x.elements lhs position ds).2.Fresh keys := by
  induction ds generalizing x position with
  | nil => exact h
  | cons d ds ih => exact ih (h.element lhs position d) (position + 1)

theorem Fresh.rules (h : x.Fresh keys) (es : List (Symbol × List Draft)) :
    (x.rules es).2.Fresh keys := by
  induction es generalizing x with
  | nil => exact h
  | cons e es ih => exact ih (h.elements e.1 0 e.2)

/-! ## The rules added -/

theorem added_subset_element (x : Expansion) (lhs : Symbol) (position : Nat) (d : Draft) :
    x.added ⊆ (x.element lhs position d).2.added := by
  cases d with
  | element => exact List.Subset.refl _
  | group => exact List.subset_cons_self _ _

theorem becomes_element (x : Expansion) (lhs : Symbol) (position : Nat) (d : Draft) :
    d.Becomes (x.element lhs position d).2.added (x.element lhs position d).1 := by
  cases d with
  | element e => exact .element e
  | group => exact .group List.mem_cons_self

theorem becomes_elements (x : Expansion) (lhs : Symbol) (position : Nat) (ds : List Draft) :
    x.added ⊆ (x.elements lhs position ds).2.added ∧
      List.Forall₂ (Draft.Becomes (x.elements lhs position ds).2.added) ds
        (x.elements lhs position ds).1 := by
  induction ds generalizing x position with
  | nil => exact ⟨List.Subset.refl _, .nil⟩
  | cons d ds ih =>
    obtain ⟨hsubset, hds⟩ := ih (x.element lhs position d).2 (position + 1)
    have hd := (x.becomes_element lhs position d).mono hsubset
    exact ⟨List.Subset.trans (x.added_subset_element lhs position d) hsubset, .cons hd hds⟩

theorem becomes_rules (x : Expansion) (es : List (Symbol × List Draft)) :
    x.added ⊆ (x.rules es).2.added ∧
      List.Forall₂ (RuleBecomes (x.rules es).2.added) es (x.rules es).1 := by
  induction es generalizing x with
  | nil => exact ⟨List.Subset.refl _, .nil⟩
  | cons e es ih =>
    obtain ⟨hsubset, hes⟩ := ih (x.elements e.1 0 e.2).2
    obtain ⟨hbefore, he⟩ := x.becomes_elements e.1 0 e.2
    exact ⟨List.Subset.trans hbefore hsubset, .cons ⟨rfl, he.imp fun _ _ h => h.mono hsubset⟩ hes⟩

theorem mem_added_elements {lhs : Symbol} {position : Nat} {ds : List Draft} {n : Symbol} {r : Rule}
    (h : (n, r) ∈ (x.elements lhs position ds).2.added) :
    (n, r) ∈ x.added ∨ ∃ q operands, Draft.group q operands ∈ ds ∧ r = operands.map .symbol := by
  induction ds generalizing x position with
  | nil => exact .inl h
  | cons d ds ih =>
    rcases ih h with h | ⟨q, operands, hmem, hr⟩
    · cases d with
      | element => exact .inl h
      | group q operands =>
        rcases List.mem_cons.1 h with h | h
        · cases h
          exact .inr ⟨q, operands, List.mem_cons_self, rfl⟩
        · exact .inl h
    · exact .inr ⟨q, operands, List.mem_cons_of_mem _ hmem, hr⟩

theorem mem_added_rules {es : List (Symbol × List Draft)} {n : Symbol} {r : Rule}
    (h : (n, r) ∈ (x.rules es).2.added) :
    (n, r) ∈ x.added ∨ ∃ operands, HasGroup es operands ∧ r = operands.map .symbol := by
  induction es generalizing x with
  | nil => exact .inl h
  | cons e es ih =>
    rcases ih h with h | ⟨operands, ⟨d, hd, hq⟩, hr⟩
    · rcases mem_added_elements h with h | ⟨q, operands, hmem, hr⟩
      · exact .inl h
      · exact .inr ⟨operands, ⟨e, List.mem_cons_self, q, hmem⟩, hr⟩
    · exact .inr ⟨operands, ⟨d, List.mem_cons_of_mem _ hd, hq⟩, hr⟩

end Expansion

/-! ## Grammars -/

namespace NameMap

variable {β : Type}

theorem find?_foldl_insert {es : List (String × β)} (hes : (es.map Prod.fst).Nodup)
    {m : NameMap β} {k : String} {v : β} :
    (es.foldl (fun m e => m.insert e.1 e.2) m).find? k = some v ↔
      (k, v) ∈ es ∨ k ∉ es.map Prod.fst ∧ m.find? k = some v := by
  induction es generalizing m with
  | nil => simp
  | cons e es ih =>
    rw [List.map_cons, List.nodup_cons] at hes
    rw [List.foldl_cons, ih hes.2, find?_insert, List.map_cons, List.mem_cons, List.mem_cons]
    by_cases hk : k = e.1
    · subst hk
      have hnot : ∀ w, (e.1, w) ∉ es := fun w hw => hes.1 (List.mem_map.2 ⟨_, hw, rfl⟩)
      simp [hnot, hes.1, Prod.ext_iff, eq_comm]
    · simp [hk, Prod.ext_iff]

theorem find?_ofList_iff {es : List (String × β)} (hes : (es.map Prod.fst).Nodup) {k : String}
    {v : β} : (ofList es).find? k = some v ↔ (k, v) ∈ es := by
  rw [ofList, find?_foldl_insert hes, find?_empty]
  simp

end NameMap

theorem exists_rel_of_mem {β γ : Type} {R : β → γ → Prop} {bs : List β} {cs : List γ}
    (h : List.Forall₂ R bs cs) {b : β} (hb : b ∈ bs) : ∃ c ∈ cs, R b c := by
  induction h with
  | nil => cases hb
  | @cons b' c bs cs hr _ ih =>
    rcases List.mem_cons.1 hb with rfl | hb
    · exact ⟨c, List.mem_cons_self, hr⟩
    · obtain ⟨c', hc', hr'⟩ := ih hb
      exact ⟨c', List.mem_cons_of_mem _ hc', hr'⟩

/-- **What naming the groups makes of drafts**: the rules `added` and those of the drafts. -/
structure Expands (drafts : NameMap (List Draft)) (added : List (Symbol × Rule)) (g : Grammar) :
    Prop where
  synthetic : g.synthetic = added.map Prod.fst
  /-- The names given to groups are different from each other and from all others. -/
  nodup : (g.synthetic ++ drafts.keys).Nodup
  nonterminal : ∀ {s}, s ∈ g.nonterminals ↔ s ∈ drafts.keys ∨ s ∈ g.synthetic
  /-- Every rule keeps its name and its positions. -/
  rule : ∀ {s ds}, drafts.find? s = some ds →
    ∃ r, g.rule? s = some r ∧ List.Forall₂ (Draft.Becomes added) ds r
  /-- The rules added are those of groups. -/
  group : ∀ {n r}, (n, r) ∈ added →
    g.rule? n = some r ∧ ∃ operands, HasGroup drafts.entries operands ∧ r = operands.map .symbol

theorem nodup_rules (drafts : NameMap (List Draft)) :
    let expanded := Expansion.rules ⟨drafts.keys, 0, []⟩ drafts.entries
    ((expanded.1 ++ expanded.2.added).map Prod.fst).Nodup := by
  intro expanded
  have hfresh : expanded.2.Fresh drafts.keys :=
    Expansion.Fresh.rules ⟨rfl, drafts.nodup_keys⟩ drafts.entries
  have hnodup := hfresh.nodup
  rw [hfresh.taken] at hnodup
  rw [List.map_append, Expansion.map_fst_rules]
  exact (List.perm_append_comm.nodup_iff).1 hnodup

/-- **Naming all groups.** -/
theorem expands_expandRules (drafts : NameMap (List Draft)) :
    ∃ added, Expands drafts added (expandRules drafts) := by
  let start : Expansion := ⟨drafts.keys, 0, []⟩
  obtain ⟨-, hrules⟩ := start.becomes_rules drafts.entries
  have hkeys : (start.rules drafts.entries).1.map Prod.fst = drafts.keys :=
    start.map_fst_rules drafts.entries
  have hall := nodup_rules drafts
  have hnodup : ((start.rules drafts.entries).2.added.map Prod.fst ++ drafts.keys).Nodup := by
    rw [← hkeys]
    exact List.perm_append_comm.nodup_iff.1 (List.map_append ▸ hall)
  refine ⟨(start.rules drafts.entries).2.added, rfl, hnodup, ?_, fun {s ds} hds => ?_,
    fun {n r} hn => ⟨?_, ?_⟩⟩
  · intro s
    rw [Grammar.nonterminals]
    refine NameMap.mem_keys_ofList.trans ?_
    rw [List.map_append, List.mem_append, hkeys]
    rfl
  · obtain ⟨⟨s', r⟩, hr, rfl, hbecomes⟩ :=
      exists_rel_of_mem hrules (NameMap.find?_eq_some_iff.1 hds)
    exact ⟨r, (NameMap.find?_ofList_iff hall).2 (List.mem_append_left _ hr), hbecomes⟩
  · exact (NameMap.find?_ofList_iff hall).2 (List.mem_append_right _ hn)
  · rcases Expansion.mem_added_rules hn with h | h
    · cases h
    · exact h

end PushParser
