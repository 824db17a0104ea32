import PushParser.Proofs.Acceptance

/-!
# Building a grammar again

The rules of a grammar can be written as definitions again. Those of a grammar that was built are in
canonical form, so they pass every check as they are, no group is left to be named, and their
leftmost steps are the same: the rules are a fixed point of building.

* `Form.draftRule_rule`: a canonical rule is its own draft;
* `expandRules_elements`: without groups there is nothing to name;
* **`Grammar.prepared_forms`**: the rules reach the check for left recursion as they were;
* **`Grammar.rebuilt`**: what building them again leads to.
-/

namespace PushParser

/-! ## Canonical rules pass their checks -/

namespace Form

theorem draft_element {e : Element} (h : e.Canonical) :
    (Form.element e).draft = .ok (.element e) := by
  obtain ⟨hne, hempty⟩ := h
  cases e with
  | symbol s =>
    have hs : s ≠ "" := fun hs => hempty (hs ▸ List.mem_singleton_self s)
    exact if_neg hs
  | quantified q s => exact if_neg hempty
  | choice ss =>
    cases ss with
    | nil => exact absurd rfl hne
    | cons s ss => exact if_neg hempty

theorem draftFrom_elements {r : Rule} (h : ∀ e ∈ r, e.Canonical) (position : Nat) :
    draftFrom position (r.map .element) = .ok (r.map .element) := by
  induction r generalizing position with
  | nil => rfl
  | cons e es ih =>
    obtain ⟨he, hes⟩ := List.forall_mem_cons.1 h
    rw [List.map_cons, draftFrom, draft_element he, ih hes]
    rfl

/-- **A canonical rule is its own draft.** -/
theorem draftRule_rule {r : Rule} (h : ∀ e ∈ r, e.Canonical) :
    (Form.rule (r.map some)).draftRule = .ok (r.map .element) := by
  have hitems : (Form.rule (r.map some)).items = some (r.map .element) := by simp [items]
  rw [draftRule, hitems]
  exact draftFrom_elements h 0

end Form

namespace NameMap

theorem mapM_map_eq_ok {β γ δ ε : Type} {u : String → β → γ} {f : String → γ → Except ε δ}
    {w : String → β → δ} {m : NameMap β}
    (h : ∀ k v, m.find? k = some v → f k (u k v) = .ok (w k v)) :
    (m.map u).mapM f = .ok (m.map w) := by
  have hok : ∀ k c, (m.map u).find? k = some c → ∃ d, f k c = .ok d := by
    intro k c hc
    rw [find?_map, Option.map_eq_some_iff] at hc
    obtain ⟨v, hv, rfl⟩ := hc
    exact ⟨w k v, h k v hv⟩
  obtain ⟨n, hn⟩ := exists_mapM hok
  rw [hn]
  refine congrArg Except.ok (ext_find? fun k => Option.ext fun d => ?_)
  rw [find?_mapM hn, find?_map, find?_map]
  cases hv : m.find? k with
  | none => simp
  | some v => simp [h k v hv]

end NameMap

/-! ## Nothing is left to be named -/

namespace Expansion

theorem elements_elements (x : Expansion) (lhs : Symbol) (position : Nat) (r : Rule) :
    x.elements lhs position (r.map .element) = (r, x) := by
  induction r generalizing position with
  | nil => rfl
  | cons e es ih =>
    rw [List.map_cons, elements, element]
    dsimp only
    rw [ih]

theorem rules_elements (x : Expansion) (es : List (Symbol × Rule)) :
    x.rules (es.map fun e => (e.1, e.2.map .element)) = (es, x) := by
  induction es with
  | nil => rfl
  | cons e es ih =>
    rw [List.map_cons, rules, elements_elements]
    dsimp only
    rw [ih]

end Expansion

/-- **Without groups there is nothing to name.** -/
theorem expandRules_elements (rules : NameMap Rule) :
    expandRules (rules.map fun _ r => r.map .element) = ⟨rules, []⟩ := by
  have hrules := Expansion.rules_elements ⟨rules.keys, 0, []⟩ rules.entries
  rw [expandRules, NameMap.keys_map, NameMap.entries_map, hrules]
  dsimp only
  rw [List.append_nil, NameMap.ofList_of_perm (List.Perm.refl _)]
  rfl

/-! ## Questions to the rules -/

namespace Grammar

section Rules

variable {g g' : Grammar} (h : g'.rules = g.rules)

include h

theorem rule?_of_rules : g'.rule? = g.rule? := by
  funext s
  rw [rule?, rule?, h]

theorem isNonterminal_of_rules : g'.isNonterminal = g.isNonterminal := by
  funext s
  rw [isNonterminal, isNonterminal, h]

theorem leftmostIn_of_rules (empty : NameSet) (r : Rule) :
    g'.leftmostIn empty r = g.leftmostIn empty r := by
  induction r with
  | nil => rfl
  | cons e es ih => rw [leftmostIn, leftmostIn, ih, isNonterminal_of_rules h]

theorem leftRecursion?_of_rules : g'.leftRecursion? = g.leftRecursion? := by
  have hleftmost : g'.leftmost = g.leftmost := by
    funext s
    simp only [leftmost, leftmostWith, nullable, rule?_of_rules h, leftmostIn_of_rules h, h]
  rw [leftRecursion?_eq, leftRecursion?_eq, hleftmost, nonterminals, nonterminals, h]

theorem firstFrom_of_rules (fuel : Nat) : g'.firstFrom fuel = g.firstFrom fuel := by
  induction fuel with
  | zero => rfl
  | succ fuel ih =>
    funext inUse table s
    rw [firstFrom, firstFrom, ih, rule?_of_rules h]

theorem firstWith_of_rules : g'.firstWith = g.firstWith := by
  funext table s
  rw [firstWith, firstWith, firstFrom_of_rules h, h]

end Rules

/-! ## What building again leads to -/

variable {definitions : NameMap Form} {g : Grammar}

/-- **The rules of a grammar that was built reach the check for left recursion as they were.** -/
theorem prepared_forms (h : build definitions = .ok g) : Prepared g.forms ⟨g.rules, []⟩ := by
  have hcanonical := canonicalFor_of_prepared (prepared_of_build h)
  obtain ⟨root, hroot⟩ := exists_rule_root h
  refine ⟨_, ?_, ?_, ?_, (expandRules_elements g.rules).symm⟩
  · rw [NameMap.contains_iff, forms, NameMap.keys_map]
    exact NameMap.mem_keys_iff.2 ⟨root, hroot⟩
  · refine NameMap.mapM_map_eq_ok fun lhs r hr => ?_
    rw [Form.draftRule_rule (hcanonical.rule hr).2]
    rfl
  · refine checkEmpty_eq_ok_iff.2 fun d hd hnil => ?_
    rw [NameMap.entries_map] at hd
    obtain ⟨⟨lhs, r⟩, hr, rfl⟩ := List.mem_map.1 hd
    exact (hcanonical.rule (NameMap.find?_eq_some_iff.2 hr)).1 (List.map_eq_nil_iff.1 hnil)

/-- **The rules of a grammar that was built are a fixed point.** Building them again succeeds and
leads to the same rules. So the nonterminals, the terminals, the first sets, the text and what
verifying it says stay as they were. No group is named any more, and building once more changes
nothing at all. -/
theorem rebuilt (h : build definitions = .ok g) :
    ∃ g', build g.forms = .ok g' ∧ g'.rules = g.rules ∧
      g'.nonterminals = g.nonterminals ∧ g'.terminals = g.terminals ∧
      (∀ s, g'.first s = g.first s) ∧ (∀ t s, g'.isFirst t s = g.isFirst t s) ∧
      g'.ebnf = g.ebnf ∧ g'.verify = g.verify ∧
      g'.synthetic = [] ∧ (∀ s, g'.isSynthetic s = false) ∧ build g'.forms = .ok g' := by
  have hrules : (⟨g.rules, []⟩ : Grammar).rules = g.rules := rfl
  have hcheck := leftRecursion?_of_rules hrules
  rw [leftRecursion?_of_build h, leftRecursion?_eq_none_iff] at hcheck
  have hbuild := (build_of_prepared_iff (prepared_forms h)).2 hcheck
  refine ⟨_, hbuild, rfl, rfl, ?_, fun s => ?_, fun t s => ?_, ?_, ?_, rfl, fun _ => rfl, hbuild⟩
  · rfl
  · rw [first, first, firstWith_of_rules hrules]
  · rw [isFirst, isFirst, firstWith_of_rules hrules]
  · rfl
  · rfl

/-! ## A group whose first name is taken -/

/-- Definitions in which `root@0` has a rule already, and the group at the first position of root
has to be given a number. -/
def takenForms : NameMap Form := .ofList [
  ("root", .sequence [Form.apply (.quantifier .star) ["a", "b"], .name "root@0"]),
  ("root@0", .element (.quantified .opt "c"))]

/-- The grammar that these definitions come to. -/
def takenGrammar : Grammar where
  rules := .ofList [
    ("root", [.quantified .star "root@0~1", .symbol "root@0"]),
    ("root@0", [.quantified .opt "c"]),
    ("root@0~1", [.symbol "a", .symbol "b"])]
  synthetic := ["root@0~1"]

theorem build_takenForms : build takenForms = .ok takenGrammar :=
  Eq.refl (Except.ok takenGrammar)

theorem rebuilt_taken : build takenForms = .ok takenGrammar ∧
    takenGrammar.isSynthetic "root@0~1" = true ∧
    ∃ g', build takenGrammar.forms = .ok g' ∧ g'.rules = takenGrammar.rules ∧
      g'.ebnf = takenGrammar.ebnf ∧ g'.isSynthetic "root@0~1" = false := by
  obtain ⟨g', hbuild, hrules, -, -, -, -, hebnf, -, -, hsynthetic, -⟩ := rebuilt build_takenForms
  exact ⟨build_takenForms, rfl, g', hbuild, hrules, hebnf, hsynthetic _⟩

end Grammar

end PushParser
