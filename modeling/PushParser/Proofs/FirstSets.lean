import PushParser.Parser.Engine
import PushParser.Proofs.Nullable
import PushParser.Proofs.LeftRecursion

/-!
# First sets are exact

What a first set holds can be said without a table: a symbol without a rule begins itself, and a
nonterminal is begun by what begins an operand of the first element of its rule (**`Heads`**).
First elements are leftmost steps, so without left recursion no search meets a symbol that it is
still working on, and all sets of the table are exact whatever it held before.

* `FirstTable.Exact`, `FirstAnswer.Exact`: the sets known so far, and an answer, hold what they
  should;
* `gather_exact`, **`Grammar.firstFrom_exact`**: answers are exact;
* **`Grammar.mem_first_iff`**, **`Grammar.holds_firstTable_iff`**: so are a set by itself and the
  table of all nonterminals.
-/

namespace PushParser

variable {g : Grammar}

/-- **What begins a symbol**, going by the first elements of rules only. -/
inductive Grammar.Heads (g : Grammar) : Symbol → Symbol → Prop
  | terminal {s : Symbol} (h : g.rule? s = none) : Heads g s s
  | rule {s t x : Symbol} {e : Element} {es : Rule} (h : g.rule? s = some (e :: es))
      (ht : t ∈ e.operands) (hx : Heads g t x) : Heads g s x

theorem Grammar.heads_terminal_iff {s x : Symbol} (h : g.rule? s = none) :
    g.Heads s x ↔ x = s := by
  constructor
  · intro hx
    cases hx with
    | terminal => rfl
    | rule hs => cases h.symm.trans hs
  · rintro rfl
    exact .terminal h

theorem Grammar.heads_rule_iff {s x : Symbol} {r : Rule} (h : g.rule? s = some r) :
    g.Heads s x ↔ ∃ t ∈ r.head?.elim [] Element.operands, g.Heads t x := by
  constructor
  · intro hx
    cases hx with
    | terminal hs => cases h.symm.trans hs
    | @rule _ t _ e es hs ht hx =>
      cases h.symm.trans hs
      exact ⟨t, ht, hx⟩
  · rintro ⟨t, ht, hx⟩
    cases r with
    | nil => cases ht
    | cons e es => exact .rule h ht hx

/-- The sets of the table hold what begins their symbols. -/
def FirstTable.Exact (g : Grammar) (table : FirstTable) : Prop :=
  ∀ s set, NameMap.find? table s = some set → ∀ x, x ∈ NameMap.keys set ↔ g.Heads s x

/-- **An answer to a query** of what has the property `P`: its set holds just that, its table is
exact and holds what was known before, and no search met a symbol that it was working on. -/
structure FirstAnswer.Exact (g : Grammar) (known : FirstTable) (P : Symbol → Prop)
    (a : FirstAnswer) : Prop where
  mem : ∀ x, x ∈ NameMap.keys a.set ↔ P x
  table : a.table.Exact g
  grows : NameMap.keys known ⊆ NameMap.keys a.table
  uncut : a.cut = false

theorem FirstTable.Exact.insert {table : FirstTable} (h : table.Exact g) {s : Symbol}
    {set : NameSet} (hset : ∀ x, x ∈ NameMap.keys set ↔ g.Heads s x) :
    FirstTable.Exact g (NameMap.insert table s set) := by
  intro u set' hu
  rw [NameMap.find?_insert] at hu
  split at hu
  · next hus =>
    cases hu
    rw [hus]
    exact hset
  · exact h u set' hu

theorem FirstAnswer.Exact.record {known : FirstTable} {s : Symbol} {a : FirstAnswer}
    (ha : a.Exact g known (g.Heads s)) :
    FirstAnswer.Exact g known (g.Heads s) { a with table := NameMap.insert a.table s a.set } ∧
      s ∈ NameMap.keys (NameMap.insert a.table s a.set) :=
  ⟨⟨ha.mem, ha.table.insert ha.mem, fun _ hu => NameMap.mem_keys_insert.2 (.inr (ha.grows hu)),
    ha.uncut⟩, NameMap.mem_keys_insert.2 (.inl rfl)⟩

theorem gather_exact {query : FirstTable → Symbol → FirstAnswer} {known : FirstTable}
    {P : Symbol → Prop} {ts : List Symbol}
    (hquery : ∀ table : FirstTable, table.Exact g → ∀ t ∈ ts,
      (query table t).Exact g table (g.Heads t))
    {a : FirstAnswer} (ha : a.Exact g known P) :
    (a.gather query ts).Exact g known fun x => P x ∨ ∃ t ∈ ts, g.Heads t x := by
  induction ts generalizing a P with
  | nil => simpa [FirstAnswer.gather] using ha
  | cons t ts ih =>
    have hb := hquery a.table ha.table t List.mem_cons_self
    have hab : FirstAnswer.Exact g known (fun x => P x ∨ g.Heads t x)
        ⟨NameSet.union a.set (query a.table t).set, (query a.table t).table,
          a.cut || (query a.table t).cut⟩ := by
      refine ⟨fun x => ?_, hb.table, List.Subset.trans ha.grows hb.grows, ?_⟩
      · rw [NameSet.mem_keys_union, ha.mem, hb.mem]
      · rw [ha.uncut, hb.uncut, Bool.or_self]
    have hall := ih (fun table htable u hu => hquery table htable u (List.mem_cons_of_mem _ hu)) hab
    rw [FirstAnswer.gather]
    refine ⟨fun x => ?_, hall.table, hall.grows, hall.uncut⟩
    rw [hall.mem, or_assoc, List.exists_mem_cons_iff]

namespace Grammar

theorem mem_leftmost_of_head {s t : Symbol} {r : Rule} (hs : g.rule? s = some r)
    (ht : t ∈ r.head?.elim [] Element.operands) (hrule : g.isNonterminal t = true) :
    t ∈ g.leftmost s := by
  rw [leftmost_of_rule hs]
  cases r with
  | nil => cases ht
  | cons e es =>
    rw [leftmostIn, List.mem_append]
    exact .inl (List.mem_filter.2 ⟨ht, hrule⟩)

/-- **Answers are exact** in a grammar without left recursion. The symbols in use lead to `s` by
leftmost steps, so `s` is not one of them, and there is fuel for one more. -/
theorem firstFrom_exact (hg : g.leftRecursion? = none) {fuel : Nat} {inUse : List Symbol}
    {table : FirstTable} {s : Symbol} (htable : table.Exact g) (hsub : inUse ⊆ g.nonterminals)
    (hchain : inUse.IsChain fun t s => t ∈ g.leftmost s)
    (hs : g.isNonterminal s = true → (s :: inUse).IsChain fun t s => t ∈ g.leftmost s)
    (hfuel : g.rules.size < inUse.length + fuel) :
    (g.firstFrom fuel inUse table s).Exact g table (g.Heads s) ∧
      s ∈ NameMap.keys (g.firstFrom fuel inUse table s).table := by
  have hsize : g.nonterminals.length = g.rules.size := g.rules.length_keys
  induction fuel generalizing inUse table s with
  | zero =>
    have hle := ((nodup_of_steps hg hchain).subperm hsub).length_le
    omega
  | succ fuel ih =>
    rw [firstFrom]
    split
    · next set hset =>
      exact ⟨⟨htable s set hset, htable, List.Subset.refl _, rfl⟩,
        NameMap.mem_keys_iff.2 ⟨set, hset⟩⟩
    · split
      · next hrule =>
        have hmem : ∀ x, x ∈ NameMap.keys (NameSet.add .empty s) ↔ g.Heads s x := by
          intro x
          rw [heads_terminal_iff hrule, NameSet.add, NameMap.mem_keys_insert]
          exact or_iff_left List.not_mem_nil
        have hself : FirstAnswer.Exact g table (g.Heads s) ⟨NameSet.add .empty s, table, false⟩ :=
          ⟨hmem, htable, List.Subset.refl _, rfl⟩
        exact hself.record
      · next r hrule =>
        have hnonterminal : g.isNonterminal s = true := by
          rw [isNonterminal, NameMap.contains, show g.rules.find? s = some r from hrule]
          rfl
        have hchain' := hs hnonterminal
        have hnew := (List.nodup_cons.1 (nodup_of_steps hg hchain')).1
        rw [if_neg hnew]
        have hquery : ∀ table : FirstTable, table.Exact g →
            ∀ t ∈ r.head?.elim [] Element.operands,
              (g.firstFrom fuel (s :: inUse) table t).Exact g table (g.Heads t) := by
          intro table htable t ht
          refine (ih htable (List.cons_subset.2 ⟨mem_nonterminals_iff.2 hnonterminal, hsub⟩)
            hchain' (fun hrule' => ?_) ?_).1
          · exact List.isChain_cons_cons.2 ⟨mem_leftmost_of_head hrule ht hrule', hchain'⟩
          · rw [List.length_cons]
            omega
        have hnothing : FirstAnswer.Exact g table (fun _ => False) ⟨.empty, table, false⟩ :=
          ⟨fun x => iff_false_intro List.not_mem_nil, htable, List.Subset.refl _, rfl⟩
        have hall := gather_exact hquery hnothing
        simp only [false_or, ← heads_rule_iff hrule] at hall
        exact hall.record

theorem exact_empty : FirstTable.Exact g .empty := fun _ _ hs => (nomatch hs)

theorem firstWith_exact (hg : g.leftRecursion? = none) {table : FirstTable}
    (htable : table.Exact g) (s : Symbol) :
    (g.firstWith table s).Exact g table (g.Heads s) ∧
      s ∈ NameMap.keys (g.firstWith table s).table := by
  refine firstFrom_exact hg htable (List.nil_subset _) .nil (fun _ => .singleton s) ?_
  rw [List.length_nil]
  omega

theorem foldl_firstWith_exact (hg : g.leftRecursion? = none) {table : FirstTable}
    (htable : table.Exact g) (ss : List Symbol) :
    FirstTable.Exact g (ss.foldl (fun table s => (g.firstWith table s).table) table) ∧
      ∀ s, s ∈ ss ∨ s ∈ NameMap.keys table →
        s ∈ NameMap.keys (ss.foldl (fun table s => (g.firstWith table s).table) table) := by
  induction ss generalizing table with
  | nil => exact ⟨htable, fun s hs => hs.resolve_left List.not_mem_nil⟩
  | cons u ss ih =>
    obtain ⟨hu, hkey⟩ := firstWith_exact hg htable u
    obtain ⟨hexact, hkeys⟩ := ih hu.table
    refine ⟨hexact, fun s hs => hkeys s ?_⟩
    rcases hs with hs | hs
    · rcases List.mem_cons.1 hs with rfl | hs
      · exact .inr hkey
      · exact .inl hs
    · exact .inr (hu.grows hs)

/-- **A first set is exact.** -/
theorem mem_first_iff (hg : g.leftRecursion? = none) {x s : Symbol} :
    x ∈ g.first s ↔ g.Heads s x :=
  (firstWith_exact hg exact_empty s).1.mem x

/-- **The table of first sets is exact**: it holds what begins a symbol and nothing else. -/
theorem holds_firstTable_iff (hg : g.leftRecursion? = none) {x s : Symbol} :
    g.firstTable.holds x s = true ↔ g.Heads s x := by
  obtain ⟨hexact, hkeys⟩ := foldl_firstWith_exact hg exact_empty g.nonterminals
  rw [FirstTable.holds]
  split
  · next set hset => exact NameMap.contains_iff.trans (hexact s set hset x)
  · next hnone =>
    -- every nonterminal is in the table
    have hrule : g.rule? s = none := by
      cases hs : g.rule? s with
      | none => rfl
      | some r =>
        obtain ⟨set, hset⟩ := NameMap.mem_keys_iff.1
          (hkeys s (.inl (NameMap.mem_keys_iff.2 ⟨r, hs⟩)))
        cases hnone.symm.trans hset
    rw [heads_terminal_iff hrule, beq_iff_eq, eq_comm]

end Grammar

end PushParser
