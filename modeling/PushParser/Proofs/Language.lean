import PushParser.Parser.Tree

/-!
# The words of a sequence

**`Grammar.Yields`** says which words a sequence of elements stands for. It works on the leftmost
element only: a nonterminal is replaced by its rule, and a quantified symbol by one occurrence and
what may come after it, or by nothing. So it proceeds as a parser does, from left to right.

* `Element.again`: what an element still admits once an operand has been matched;
* `Grammar.Yields.append`, `Grammar.Yields.split`: the words of two sequences in a row;
* **`Grammar.yields_iff_matches`**, **`Grammar.derives_iff_yields`**: these are the words of the
  derivation trees.
-/

namespace PushParser

/-- What an element still admits once one of its operands has been matched: more repetitions. -/
def Element.again : Element → Rule
  | .quantified q s => if q.repeats then [.quantified .star s] else []
  | _ => []

namespace Grammar

/-- **The words of a sequence of elements.** -/
inductive Yields (g : Grammar) : Rule → List Symbol → Prop
  | nil : Yields g [] []
  | terminal {s : Symbol} {es : Rule} {w : List Symbol} (hs : g.rule? s = none)
      (h : Yields g es w) : Yields g (.symbol s :: es) (s :: w)
  | rule {s : Symbol} {r es : Rule} {w : List Symbol} (hs : g.rule? s = some r)
      (h : Yields g (r ++ es) w) : Yields g (.symbol s :: es) w
  | choice {s : Symbol} {ss : List Symbol} {es : Rule} {w : List Symbol} (hs : s ∈ ss)
      (h : Yields g (.symbol s :: es) w) : Yields g (.choice ss :: es) w
  /-- One occurrence, and then perhaps more. -/
  | once {q : Quantifier} {s : Symbol} {es : Rule} {w : List Symbol}
      (h : Yields g (.symbol s :: ((Element.quantified q s).again ++ es)) w) :
      Yields g (.quantified q s :: es) w
  /-- No occurrence. -/
  | never {q : Quantifier} {s : Symbol} {es : Rule} {w : List Symbol}
      (hq : q.demands true = false) (h : Yields g es w) : Yields g (.quantified q s :: es) w

variable {g : Grammar}

@[simp] theorem yields_nil_iff {w : List Symbol} : g.Yields [] w ↔ w = [] := by
  constructor
  · intro h
    cases h
    rfl
  · rintro rfl
    exact .nil

theorem yields_terminal_iff {s : Symbol} {es : Rule} {w : List Symbol} (hs : g.rule? s = none) :
    g.Yields (.symbol s :: es) w ↔ ∃ v, w = s :: v ∧ g.Yields es v := by
  constructor
  · intro h
    cases h with
    | terminal _ h => exact ⟨_, rfl, h⟩
    | rule hr _ => exact absurd (hs.symm.trans hr) (by simp)
  · rintro ⟨v, rfl, h⟩
    exact .terminal hs h

theorem yields_rule_iff {s : Symbol} {r es : Rule} {w : List Symbol} (hs : g.rule? s = some r) :
    g.Yields (.symbol s :: es) w ↔ g.Yields (r ++ es) w := by
  constructor
  · intro h
    cases h with
    | terminal hn => exact absurd (hn.symm.trans hs) (by simp)
    | rule hs' h =>
      cases hs.symm.trans hs'
      exact h
  · exact .rule hs

theorem yields_symbol_iff {s : Symbol} {r : Rule} {w : List Symbol} (hs : g.rule? s = some r) :
    g.Yields [.symbol s] w ↔ g.Yields r w := by
  rw [yields_rule_iff hs, List.append_nil]

/-! ## Sequences in a row -/

theorem Yields.append {r es : Rule} {u v : List Symbol} (hr : g.Yields r u) (hes : g.Yields es v) :
    g.Yields (r ++ es) (u ++ v) := by
  induction hr with
  | nil => exact hes
  | terminal hs _ ih => exact .terminal hs ih
  | rule hs _ ih =>
    rw [List.append_assoc] at ih
    exact .rule hs ih
  | choice hs _ ih => exact .choice hs ih
  | once _ ih =>
    rw [List.cons_append, List.append_assoc] at ih
    exact .once ih
  | never hq _ ih => exact .never hq ih

theorem Yields.split {r es : Rule} {w : List Symbol} (h : g.Yields (r ++ es) w) :
    ∃ u v, w = u ++ v ∧ g.Yields r u ∧ g.Yields es v := by
  -- the induction is on the word's derivation, which replaces the head of `r` by longer sequences
  generalize hform : r ++ es = form at h
  induction h generalizing r with
  | nil =>
    obtain ⟨rfl, rfl⟩ := List.append_eq_nil_iff.1 hform
    exact ⟨[], [], rfl, .nil, .nil⟩
  | @terminal s fs w hs h ih =>
    rcases List.append_eq_cons_iff.1 hform with ⟨rfl, rfl⟩ | ⟨r, rfl, rfl⟩
    · exact ⟨[], _, rfl, .nil, .terminal hs h⟩
    · obtain ⟨u, v, rfl, hu, hv⟩ := ih rfl
      exact ⟨s :: u, v, rfl, .terminal hs hu, hv⟩
  | @rule s r' fs w hs h ih =>
    rcases List.append_eq_cons_iff.1 hform with ⟨rfl, rfl⟩ | ⟨r, rfl, rfl⟩
    · exact ⟨[], _, rfl, .nil, .rule hs h⟩
    · obtain ⟨u, v, rfl, hu, hv⟩ := ih (List.append_assoc _ _ _)
      exact ⟨u, v, rfl, .rule hs hu, hv⟩
  | @choice s ss fs w hs h ih =>
    rcases List.append_eq_cons_iff.1 hform with ⟨rfl, rfl⟩ | ⟨r, rfl, rfl⟩
    · exact ⟨[], _, rfl, .nil, .choice hs h⟩
    · obtain ⟨u, v, rfl, hu, hv⟩ := ih (List.cons_append ..)
      exact ⟨u, v, rfl, .choice hs hu, hv⟩
  | @once q s fs w h ih =>
    rcases List.append_eq_cons_iff.1 hform with ⟨rfl, rfl⟩ | ⟨r, rfl, rfl⟩
    · exact ⟨[], _, rfl, .nil, .once h⟩
    · obtain ⟨u, v, rfl, hu, hv⟩ := ih (by rw [List.cons_append, List.append_assoc])
      exact ⟨u, v, rfl, .once hu, hv⟩
  | @never q s fs w hq h ih =>
    rcases List.append_eq_cons_iff.1 hform with ⟨rfl, rfl⟩ | ⟨r, rfl, rfl⟩
    · exact ⟨[], _, rfl, .nil, .never hq h⟩
    · obtain ⟨u, v, rfl, hu, hv⟩ := ih rfl
      exact ⟨u, v, rfl, .never hq hu, hv⟩

theorem yields_append_nil_iff {r es : Rule} :
    g.Yields (r ++ es) [] ↔ g.Yields r [] ∧ g.Yields es [] := by
  constructor
  · intro h
    obtain ⟨u, v, huv, hu, hv⟩ := h.split
    obtain ⟨rfl, rfl⟩ := List.append_eq_nil_iff.1 huv.symm
    exact ⟨hu, hv⟩
  · rintro ⟨hr, hes⟩
    exact hr.append hes

/-! ## Derivation trees -/

theorem Yields.quantified {q : Quantifier} {s : Symbol} {u v : List Symbol}
    (hu : g.Yields [.symbol s] u) (hv : g.Yields (Element.quantified q s).again v) :
    g.Yields [.quantified q s] (u ++ v) := by
  refine .once ?_
  rw [List.append_nil]
  exact hu.append hv

theorem tags_append (ts ts' : List Token) :
    Token.tags (ts ++ ts') = Token.tags ts ++ Token.tags ts' := List.map_append

mutual

theorem Yields.of_derivation {s : Symbol} {t : Tree} (h : Derivation g s t) :
    g.Yields [.symbol s] (Token.tags t.leaves) := by
  cases h with
  | leaf h =>
    rw [Tree.leaves]
    exact .terminal h .nil
  | node h hs =>
    rw [Tree.leaves]
    refine .rule h ?_
    rw [List.append_nil]
    exact Yields.of_matches hs

theorem Yields.of_matches {r : Rule} {slots : List (Slot Tree)} (h : Matches g r slots) :
    g.Yields r (Token.tags (Tree.leavesOfSlots slots)) := by
  cases h with
  | nil => exact .nil
  | cons h hs =>
    rw [Tree.leavesOfSlots, tags_append]
    exact (Yields.of_fits h).append (Yields.of_matches hs)

theorem Yields.of_fits {e : Element} {slot : Slot Tree} (h : Fits g e slot) :
    g.Yields [e] (Token.tags (Tree.leavesOfSlot slot)) := by
  cases h with
  | symbol h =>
    rw [Tree.leavesOfSlot]
    exact Yields.of_derivation h
  | choice hs h =>
    rw [Tree.leavesOfSlot]
    exact .choice hs (Yields.of_derivation h)
  | absent => exact .never rfl .nil
  | present h =>
    rw [Tree.leavesOfSlot]
    exact .once (Yields.of_derivation h)
  | star h =>
    rw [Tree.leavesOfSlot]
    exact Yields.of_derivations h
  | @plus s ts h hne =>
    rw [Tree.leavesOfSlot]
    cases ts with
    | nil => exact absurd rfl hne
    | cons t ts =>
      rw [Tree.leavesOfTrees, tags_append]
      exact .quantified (Yields.of_derivation (h t List.mem_cons_self))
        (Yields.of_derivations fun t' ht' => h t' (List.mem_cons_of_mem _ ht'))

theorem Yields.of_derivations {s : Symbol} {ts : List Tree} (h : ∀ t ∈ ts, Derivation g s t) :
    g.Yields [.quantified .star s] (Token.tags (Tree.leavesOfTrees ts)) := by
  cases ts with
  | nil => exact .never rfl .nil
  | cons t ts =>
    rw [Tree.leavesOfTrees, tags_append]
    exact .quantified (Yields.of_derivation (h t List.mem_cons_self))
      (Yields.of_derivations fun t' ht' => h t' (List.mem_cons_of_mem _ ht'))

end

end Grammar

theorem Matches.split {g : Grammar} {r es : Rule} {slots : List (Slot Tree)}
    (h : Matches g (r ++ es) slots) :
    ∃ ss ss', slots = ss ++ ss' ∧ Matches g r ss ∧ Matches g es ss' := by
  induction r generalizing slots with
  | nil => exact ⟨[], slots, rfl, .nil, h⟩
  | cons e r ih =>
    cases h with
    | @cons _ _ slot _ h hs =>
      obtain ⟨ss, ss', rfl, hss, hss'⟩ := ih hs
      exact ⟨slot :: ss, ss', rfl, .cons h hss, hss'⟩

namespace Grammar

variable {g : Grammar}

theorem exists_matches_of_again {q : Quantifier} {s : Symbol} {es : Rule} {t : Tree}
    {slots : List (Slot Tree)} (ht : Derivation g s t)
    (hs : Matches g ((Element.quantified q s).again ++ es) slots) :
    ∃ slots', Matches g (.quantified q s :: es) slots' ∧
      Tree.leavesOfSlots slots' = t.leaves ++ Tree.leavesOfSlots slots := by
  have repeats : q.repeats = true → Matches g (.quantified .star s :: es) slots →
      ∃ ts ss, slots = .many ts :: ss ∧ (∀ t' ∈ t :: ts, Derivation g s t') ∧ Matches g es ss := by
    rintro - (_ | ⟨_ | _ | _ | _ | hts | _, hss⟩)
    refine ⟨_, _, rfl, fun t' ht' => ?_, hss⟩
    rcases List.mem_cons.1 ht' with rfl | ht'
    · exact ht
    · exact hts t' ht'
  cases q with
  | opt =>
    refine ⟨.one t :: slots, .cons (.present ht) hs, ?_⟩
    rw [Tree.leavesOfSlots, Tree.leavesOfSlot]
  | star =>
    obtain ⟨ts, ss, rfl, hts, hss⟩ := repeats rfl hs
    refine ⟨.many (t :: ts) :: ss, .cons (.star hts) hss, ?_⟩
    simp only [Tree.leavesOfSlots, Tree.leavesOfSlot, Tree.leavesOfTrees, List.append_assoc]
  | plus =>
    obtain ⟨ts, ss, rfl, hts, hss⟩ := repeats rfl hs
    refine ⟨.many (t :: ts) :: ss, .cons (.plus hts (List.cons_ne_nil _ _)) hss, ?_⟩
    simp only [Tree.leavesOfSlots, Tree.leavesOfSlot, Tree.leavesOfTrees, List.append_assoc]

theorem Yields.exists_matches {r : Rule} {w : List Symbol} (h : g.Yields r w) :
    ∃ slots, Matches g r slots ∧ Token.tags (Tree.leavesOfSlots slots) = w := by
  induction h with
  | nil => exact ⟨[], .nil, rfl⟩
  | @terminal s es w hs _ ih =>
    obtain ⟨slots, hm, rfl⟩ := ih
    have hleaf : Derivation g s (.leaf ⟨s, .null⟩) := @Derivation.leaf g ⟨s, .null⟩ hs
    refine ⟨.one (.leaf ⟨s, .null⟩) :: slots, .cons (.symbol hleaf) hm, ?_⟩
    rw [Tree.leavesOfSlots, Tree.leavesOfSlot, Tree.leaves]
    rfl
  | @rule s r es w hs _ ih =>
    obtain ⟨slots, hm, rfl⟩ := ih
    obtain ⟨ss, ss', rfl, hr, hes⟩ := hm.split
    refine ⟨.one (.node s ss) :: ss', .cons (.symbol (.node hs hr)) hes, ?_⟩
    rw [Tree.leavesOfSlots, Tree.leavesOfSlot, Tree.leaves]
    simp only [Tree.leavesOfSlots_eq, List.flatMap_append]
  | choice hs _ ih =>
    obtain ⟨slots, hm, rfl⟩ := ih
    cases hm with
    | cons h hes =>
      cases h with
      | symbol ht => exact ⟨_, .cons (.choice hs ht) hes, rfl⟩
  | once _ ih =>
    obtain ⟨slots, hm, rfl⟩ := ih
    cases hm with
    | cons h hes =>
      cases h with
      | symbol ht =>
        obtain ⟨slots', hm', hleaves⟩ := exists_matches_of_again ht hes
        refine ⟨slots', hm', ?_⟩
        rw [hleaves, Tree.leavesOfSlots, Tree.leavesOfSlot]
  | @never q s es w hq _ ih =>
    obtain ⟨slots, hm, rfl⟩ := ih
    cases q with
    | plus => cases hq
    | star => exact ⟨.many [] :: slots, .cons (.star (List.forall_mem_nil _)) hm, rfl⟩
    | opt => exact ⟨.vacant :: slots, .cons .absent hm, rfl⟩

/-- **The words of a sequence are those of the slots that match it.** -/
theorem yields_iff_matches {r : Rule} {w : List Symbol} :
    g.Yields r w ↔ ∃ slots, Matches g r slots ∧ Token.tags (Tree.leavesOfSlots slots) = w := by
  refine ⟨Yields.exists_matches, ?_⟩
  rintro ⟨slots, hm, rfl⟩
  exact .of_matches hm

/-- **The words of a symbol are those of its derivation trees.** -/
theorem derives_iff_yields {s : Symbol} {w : List Symbol} :
    g.Derives s w ↔ g.Yields [.symbol s] w := by
  constructor
  · rintro ⟨t, ht, rfl⟩
    exact .of_derivation ht
  · intro hw
    obtain ⟨slots, hm, rfl⟩ := hw.exists_matches
    cases hm with
    | cons h hes =>
      cases hes
      cases h with
      | @symbol _ t ht =>
        refine ⟨t, ht, ?_⟩
        rw [Tree.leavesOfSlots, Tree.leavesOfSlots, Tree.leavesOfSlot, List.append_nil]

end Grammar

end PushParser
