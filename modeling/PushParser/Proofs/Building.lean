import PushParser.Grammar.Build

/-!
# Grammars that were built

**`Grammar.exists_drafts_of_build`** says once what a grammar that was built went through; what
holds of every grammar that a parser can be made for is read off it.

* `NameMap.keys_mapM`, `NameMap.mem_keys_ofList`: the names of a map that was put together;
* **`Grammar.exists_rule_root`**: root has a rule;
* **`Grammar.leftRecursion?_of_build`**: there is no left recursion.
-/

namespace PushParser

/-! ## Names of maps -/

namespace NameMap

variable {β γ ε : Type}

theorem keys_mapM {f : String → β → Except ε γ} {m : NameMap β} {n : NameMap γ}
    (h : m.mapM f = .ok n) : n.keys = m.keys := by
  unfold mapM at h
  split at h
  · cases h
  · next es hes =>
    cases h
    exact map_fst_traverse hes

theorem mem_keys_foldl_insert {es : List (String × β)} {m : NameMap β} {x : String} :
    x ∈ (es.foldl (fun m e => m.insert e.1 e.2) m).keys ↔ x ∈ es.map Prod.fst ∨ x ∈ m.keys := by
  induction es generalizing m with
  | nil => simp
  | cons e es ih =>
    rw [List.foldl_cons, ih, mem_keys_insert, List.map_cons, List.mem_cons]
    exact or_left_comm.trans or_assoc.symm

theorem mem_keys_ofList {es : List (String × β)} {x : String} :
    x ∈ (ofList es).keys ↔ x ∈ es.map Prod.fst := by
  have hempty : x ∉ (empty : NameMap β).keys := List.not_mem_nil
  rw [ofList, mem_keys_foldl_insert, or_iff_left hempty]

theorem isEmpty_entries_of_contains {m : NameMap β} {k : String} (h : m.contains k = true) :
    m.entries.isEmpty = false := by
  cases hentries : m.entries with
  | nil =>
    have hmem := contains_iff.1 h
    rw [keys, hentries] at hmem
    cases hmem
  | cons => rfl

end NameMap

theorem Expansion.map_fst_rules (x : Expansion) (es : List (Symbol × List Draft)) :
    (x.rules es).1.map Prod.fst = es.map Prod.fst := by
  induction es generalizing x with
  | nil => rfl
  | cons e es ih =>
    rw [rules, List.map_cons, List.map_cons, ih]

namespace Grammar

variable {g : Grammar} {definitions : NameMap Form}

/-- **What a grammar that was built went through.** -/
theorem exists_drafts_of_build (h : build definitions = .ok g) :
    ∃ drafts, definitions.contains rootName = true ∧
      definitions.mapM (fun lhs f => f.draftRule.mapError (ConfigurationError.inRule lhs)) =
        .ok drafts ∧
      checkEmpty drafts.entries = .ok () ∧ g = expandRules drafts ∧
      g.checkLeftRecursion = .ok () := by
  unfold build at h
  split at h
  · cases h
  · split at h
    · cases h
    · next hroot =>
      rw [Bool.not_eq_true, Bool.not_eq_false'] at hroot
      split at h
      · cases h
      · next drafts hdrafts =>
        split at h
        · cases h
        · next hempty =>
          dsimp only at h
          split at h
          · cases h
          · next hcheck =>
            cases h
            exact ⟨drafts, hroot, hdrafts, hempty, rfl, hcheck⟩

theorem exists_rule_root (h : build definitions = .ok g) : ∃ r, g.rule? rootName = some r := by
  obtain ⟨drafts, hroot, hdrafts, -, rfl, -⟩ := exists_drafts_of_build h
  have hkeys : rootName ∈ drafts.keys := by
    rw [NameMap.keys_mapM hdrafts]
    exact NameMap.contains_iff.1 hroot
  refine NameMap.mem_keys_iff.1 (NameMap.mem_keys_ofList.2 ?_)
  rw [List.map_append, Expansion.map_fst_rules]
  exact List.mem_append_left _ hkeys

theorem leftRecursion?_of_build (h : build definitions = .ok g) : g.leftRecursion? = none := by
  obtain ⟨-, -, -, -, -, hcheck⟩ := exists_drafts_of_build h
  rw [checkLeftRecursion] at hcheck
  split at hcheck
  · next hnone => exact hnone
  · cases hcheck

end Grammar

end PushParser
