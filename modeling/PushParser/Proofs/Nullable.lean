import Mathlib.Data.List.Perm.Subperm
import PushParser.Grammar.Nullable
import PushParser.Proofs.Language

/-!
# All nullable nonterminals are found

Sweeping over the rules adds nonterminals until a sweep adds none. What is found then is
**`Closed`**: it holds every nonterminal whose rule can match nothing, given what was found. So it
holds every nonterminal that stands for the empty word.

* `keys_subset_sweep`, `mem_sweep`: what one sweep keeps and adds;
* **`closed_nullableAmong`**: as many sweeps as there are rules suffice;
* **`Grammar.nullableIn_of_closed`**, `Grammar.nullableIn_of_yields`: a sequence that stands for the
  empty word is found to.
-/

namespace PushParser

/-- Every left-hand side whose rule can match nothing is among the names. -/
def Closed (es : List (Symbol × Rule)) (empty : NameSet) : Prop :=
  ∀ e ∈ es, Rule.nullableIn empty e.2 = true → e.1 ∈ empty.keys

/-! ## Sets of names -/

theorem NameMap.nodup_keys {β : Type} (m : NameMap β) : m.keys.Nodup := by
  refine List.Pairwise.imp (fun {a b} (h : a < b) => ?_) m.ordered
  rintro rfl
  exact String.lt_irrefl a h

theorem NameMap.length_keys {β : Type} (m : NameMap β) : m.keys.length = m.size := by
  rw [keys, List.length_map, length_entries]

theorem NameMap.size_le_of_subset {β : Type} {m : NameMap β} {l : List String} (h : m.keys ⊆ l) :
    m.size ≤ l.length := by
  rw [← m.length_keys]
  exact (m.nodup_keys.subperm h).length_le

theorem NameMap.subset_of_length_le {β : Type} {m : NameMap β} {l : List String} (h : m.keys ⊆ l)
    (hl : l.length ≤ m.size) : l ⊆ m.keys := by
  rw [← m.length_keys] at hl
  exact ((m.nodup_keys.subperm h).perm_of_length_le hl).symm.subset

/-! ## Sweeps -/

section Sweeps

variable {empty more : NameSet} {es : List (Symbol × Rule)}

theorem Element.nullableIn_mono (h : empty.keys ⊆ more.keys) {e : Element}
    (he : e.nullableIn empty = true) : e.nullableIn more = true := by
  rw [nullableIn, Bool.or_eq_true, List.any_eq_true] at he ⊢
  refine he.imp_right fun ⟨s, hs, hc⟩ => ⟨s, hs, ?_⟩
  exact NameMap.contains_iff.2 (h (NameMap.contains_iff.1 hc))

theorem Rule.nullableIn_mono (h : empty.keys ⊆ more.keys) {r : Rule}
    (hr : Rule.nullableIn empty r = true) : Rule.nullableIn more r = true := by
  rw [nullableIn, List.all_eq_true] at hr ⊢
  exact fun e he => Element.nullableIn_mono h (hr e he)

theorem keys_subset_sweep (empty : NameSet) (es : List (Symbol × Rule)) :
    empty.keys ⊆ (sweep empty es).keys := by
  induction es generalizing empty with
  | nil => exact List.Subset.refl _
  | cons e es ih =>
    rw [sweep]
    split
    · exact ih empty
    · split
      · intro s hs
        exact ih _ (NameMap.mem_keys_insert.2 (Or.inr hs))
      · exact ih empty

theorem sweep_subset {l : List Symbol} (hes : es.map Prod.fst ⊆ l) (h : empty.keys ⊆ l) :
    (sweep empty es).keys ⊆ l := by
  induction es generalizing empty with
  | nil => exact h
  | cons e es ih =>
    have he : e.1 ∈ l := hes List.mem_cons_self
    have hes' : es.map Prod.fst ⊆ l := fun s hs => hes (List.mem_cons_of_mem _ hs)
    rw [sweep]
    split
    · exact ih hes' h
    · split
      · refine ih hes' fun s hs => ?_
        rcases NameMap.mem_keys_insert.1 hs with rfl | hs
        · exact he
        · exact h hs
      · exact ih hes' h

theorem mem_sweep {e : Symbol × Rule} (he : e ∈ es) (hr : Rule.nullableIn empty e.2 = true) :
    e.1 ∈ (sweep empty es).keys := by
  induction es generalizing empty with
  | nil => cases he
  | cons e' es ih =>
    rw [sweep]
    rcases List.mem_cons.1 he with rfl | he
    · rw [if_pos hr]
      split
      · next hc => exact keys_subset_sweep empty es (NameMap.contains_iff.1 hc)
      · exact keys_subset_sweep _ es (NameMap.mem_keys_insert.2 (Or.inl rfl))
    · split
      · exact ih he hr
      · split
        · exact ih he (Rule.nullableIn_mono (fun s hs => NameMap.mem_keys_insert.2 (Or.inr hs)) hr)
        · exact ih he hr

/-- **The fuel of the sweeps lasts** while the names found and the sweeps left are no fewer than the
rules. -/
theorem closed_sweeps {fuel : Nat} (h : empty.keys ⊆ es.map Prod.fst)
    (hfuel : es.length ≤ empty.size + fuel) : Closed es (sweeps es fuel empty) := by
  induction fuel generalizing empty with
  | zero =>
    have hall := NameMap.subset_of_length_le h (by rw [List.length_map]; exact hfuel)
    exact fun e he _ => hall (List.mem_map_of_mem he)
  | succ fuel ih =>
    have hgrow := keys_subset_sweep empty es
    rw [sweeps]
    split
    · next hsize =>
      -- nothing was added, so the names found are those of the sweep
      have hsame : (sweep empty es).keys ⊆ empty.keys := by
        refine NameMap.subset_of_length_le hgrow (Nat.le_of_eq ?_)
        rw [NameMap.length_keys, hsize]
      exact fun e he hr => hsame (mem_sweep he hr)
    · next hsize =>
      have hle : empty.size ≤ (sweep empty es).size := by
        rw [← NameMap.length_keys (sweep empty es)]
        exact NameMap.size_le_of_subset hgrow
      exact ih (sweep_subset (List.Subset.refl _) h) (by omega)

/-- **As many sweeps as there are rules find all.** -/
theorem closed_nullableAmong (es : List (Symbol × Rule)) : Closed es (nullableAmong es) := by
  refine closed_sweeps (fun s hs => ?_) (by omega)
  cases hs

end Sweeps

/-! ## The empty word -/

namespace Grammar

variable {g : Grammar}

theorem contains_of_closed {empty : NameSet} (hempty : Closed g.rules.entries empty) {s : Symbol}
    {r : Rule} (hs : g.rule? s = some r) (hr : Rule.nullableIn empty r = true) :
    empty.contains s = true := by
  have hmem : (s, r) ∈ g.rules.entries := NameMap.find?_eq_some_iff.1 hs
  exact NameMap.contains_iff.2 (hempty _ hmem hr)

theorem nullableIn_cons {empty : NameSet} {e : Element} {es : Rule} :
    Rule.nullableIn empty (e :: es) = true ↔
      e.nullableIn empty = true ∧ Rule.nullableIn empty es = true := by
  rw [Rule.nullableIn, List.all_cons, Bool.and_eq_true]
  rfl

theorem nullableIn_append {empty : NameSet} {r es : Rule} :
    Rule.nullableIn empty (r ++ es) = true ↔
      Rule.nullableIn empty r = true ∧ Rule.nullableIn empty es = true := by
  rw [Rule.nullableIn, List.all_append, Bool.and_eq_true]
  rfl

theorem nullableIn_of_operand {empty : NameSet} {e : Element} {s : Symbol} (hs : s ∈ e.operands)
    (h : empty.contains s = true) : e.nullableIn empty = true := by
  rw [Element.nullableIn, Bool.or_eq_true, List.any_eq_true]
  exact Or.inr ⟨s, hs, h⟩

theorem contains_of_nullableIn {empty : NameSet} {s : Symbol}
    (h : (Element.symbol s).nullableIn empty = true) : empty.contains s = true := by
  simpa [Element.nullableIn, Element.isOptional, Element.operands] using h

theorem nullableIn_of_closed {empty : NameSet} (hempty : Closed g.rules.entries empty) {r : Rule}
    (h : g.Yields r []) : Rule.nullableIn empty r = true := by
  generalize hw : ([] : List Symbol) = w at h
  induction h with
  | nil => rfl
  | terminal => cases hw
  | rule hs _ ih =>
    obtain ⟨hr, hes⟩ := nullableIn_append.1 (ih hw)
    exact nullableIn_cons.2
      ⟨nullableIn_of_operand List.mem_cons_self (contains_of_closed hempty hs hr), hes⟩
  | choice hs _ ih =>
    obtain ⟨hc, hes⟩ := nullableIn_cons.1 (ih hw)
    exact nullableIn_cons.2 ⟨nullableIn_of_operand hs (contains_of_nullableIn hc), hes⟩
  | once _ ih =>
    obtain ⟨hc, hrest⟩ := nullableIn_cons.1 (ih hw)
    exact nullableIn_cons.2 ⟨nullableIn_of_operand List.mem_cons_self (contains_of_nullableIn hc),
      (nullableIn_append.1 hrest).2⟩
  | @never q s es w hq _ ih =>
    refine nullableIn_cons.2 ⟨?_, ih hw⟩
    cases q with
    | plus => cases hq
    | star | opt => rfl

/-- **A sequence that stands for the empty word is found to match nothing.** -/
theorem nullableIn_of_yields {r : Rule} (h : g.Yields r []) :
    Rule.nullableIn g.nullable r = true :=
  nullableIn_of_closed (closed_nullableAmong g.rules.entries) h

theorem contains_nullable_of_yields {s : Symbol} (h : g.Yields [.symbol s] []) :
    g.nullable.contains s = true :=
  contains_of_nullableIn (nullableIn_cons.1 (nullableIn_of_yields h)).1

end Grammar

end PushParser
