import PushParser.Proofs.Lookahead
import PushParser.Proofs.Nullable

/-!
# Tables that show a grammar deterministic

Whether a grammar is deterministic can be read off two tables, of what can begin a nonterminal and
of what can follow it. The tables need not be exact: it is enough that they are closed under the
rules and keep apart what has to be. That is **`Grammar.Certified`**, which can be decided.

* `Grammar.Certified.mem_begun`, `Grammar.Certified.mem_followedBy`: closed tables hold what begins
  and what follows;
* **`Grammar.Certified.deterministic`**: so they show a grammar deterministic.
-/

namespace PushParser

/-- The property holds of each element of a rule and what comes after it. -/
def Rule.EachPosition (P : Element → Rule → Prop) : Rule → Prop
  | [] => True
  | e :: es => P e es ∧ EachPosition P es

instance Rule.decidableEachPosition (P : Element → Rule → Prop) [∀ e es, Decidable (P e es)] :
    (r : Rule) → Decidable (Rule.EachPosition P r)
  | [] => .isTrue trivial
  | e :: es =>
    have := Rule.decidableEachPosition P es
    inferInstanceAs (Decidable (P e es ∧ Rule.EachPosition P es))

theorem Rule.EachPosition.at {P : Element → Rule → Prop} {before es : Rule} {e : Element}
    (h : Rule.EachPosition P (before ++ e :: es)) : P e es := by
  induction before with
  | nil => exact h.1
  | cons d before ih => exact ih h.2

namespace Grammar

section Tables

variable (g : Grammar) (firsts follows : NameMap (List Symbol))

/-- What can begin a symbol, by the table. A terminal begins itself. -/
def begunBy (s : Symbol) : List Symbol :=
  if g.isNonterminal s then (firsts.find? s).getD [] else [s]

/-- What can begin a sequence, by the table. -/
def begun : Rule → List Symbol
  | [] => []
  | e :: es =>
    e.operands.flatMap (g.begunBy firsts) ++ if e.nullableIn g.nullable then begun es else []

/-- What can follow a symbol, by the table. -/
def followedBy (s : Symbol) : List Symbol := (follows.find? s).getD []

/-- What can come after a position, by the tables, when `es` comes after it in the rule of `lhs`. -/
def followedAt (lhs : Symbol) (es : Rule) : List Symbol :=
  g.begun firsts es ++ if Rule.nullableIn g.nullable es then followedBy follows lhs else []

/-- The tables keep apart what one token has to decide at an element. -/
def SeparatedAt (lhs : Symbol) (es : Rule) : Element → Prop
  | .symbol _ => True
  | .choice ss => (∀ s ∈ ss, g.nullable.contains s = false) ∧
      ∀ s ∈ ss, ∀ s' ∈ ss, s ≠ s' → ∀ t ∈ g.begunBy firsts s, t ∉ g.begunBy firsts s'
  | .quantified _ s => g.nullable.contains s = false ∧
      ∀ t ∈ g.begunBy firsts s, t ∉ g.followedAt firsts follows lhs es

instance (lhs : Symbol) (es : Rule) : (e : Element) →
    Decidable (g.SeparatedAt firsts follows lhs es e)
  | .symbol _ => .isTrue trivial
  | .choice ss => inferInstanceAs (Decidable ((∀ s ∈ ss, g.nullable.contains s = false) ∧
      ∀ s ∈ ss, ∀ s' ∈ ss, s ≠ s' → ∀ t ∈ g.begunBy firsts s, t ∉ g.begunBy firsts s'))
  | .quantified _ s => inferInstanceAs (Decidable (g.nullable.contains s = false ∧
      ∀ t ∈ g.begunBy firsts s, t ∉ g.followedAt firsts follows lhs es))

/-- The tables hold what follows the operands of an element. -/
def FollowedAt (lhs : Symbol) (e : Element) (es : Rule) : Prop :=
  ∀ s ∈ e.operands, (∀ t ∈ g.followedAt firsts follows lhs es, t ∈ followedBy follows s) ∧
    (e.repeats = true → ∀ t ∈ g.begunBy firsts s, t ∈ followedBy follows s)

instance (lhs : Symbol) (e : Element) (es : Rule) :
    Decidable (g.FollowedAt firsts follows lhs e es) :=
  inferInstanceAs (Decidable (∀ s ∈ e.operands, _ ∧ _))

/-- **The tables are closed under the rules and keep apart what has to be.** -/
def Certified : Prop :=
  ∀ p ∈ g.rules.entries, (∀ t ∈ g.begun firsts p.2, t ∈ g.begunBy firsts p.1) ∧
    p.2.EachPosition fun e es =>
      g.FollowedAt firsts follows p.1 e es ∧ g.SeparatedAt firsts follows p.1 es e

instance : Decidable (g.Certified firsts follows) :=
  inferInstanceAs (Decidable (∀ p ∈ g.rules.entries, _ ∧ _))

end Tables

variable {g : Grammar} {firsts follows : NameMap (List Symbol)}

theorem Certified.rule (h : g.Certified firsts follows) {s : Symbol} {r : Rule}
    (hs : g.rule? s = some r) : ∀ t ∈ g.begun firsts r, t ∈ g.begunBy firsts s :=
  (h (s, r) (NameMap.find?_eq_some_iff.1 hs)).1

theorem Certified.position (h : g.Certified firsts follows) {lhs : Symbol} {before es : Rule}
    {e : Element} (hr : g.rule? lhs = some (before ++ e :: es)) :
    g.FollowedAt firsts follows lhs e es ∧ g.SeparatedAt firsts follows lhs es e :=
  (h (lhs, _) (NameMap.find?_eq_some_iff.1 hr)).2.at

theorem mem_begun_of_operand {e : Element} {es : Rule} {s t : Symbol} (hs : s ∈ e.operands)
    (ht : t ∈ g.begunBy firsts s) : t ∈ g.begun firsts (e :: es) := by
  rw [begun]
  exact List.mem_append_left _ (List.mem_flatMap.2 ⟨s, hs, ht⟩)

theorem begun_symbol {s t : Symbol} (h : t ∈ g.begun firsts [.symbol s]) :
    t ∈ g.begunBy firsts s := by
  rw [begun, List.mem_append] at h
  rcases h with h | h
  · simpa [Element.operands] using h
  · split at h <;> cases h

/-- **A closed table holds what can begin a sequence.** -/
theorem Certified.mem_begun (h : g.Certified firsts follows) {es : Rule} {t : Symbol}
    (hb : g.Begins es t) : t ∈ g.begun firsts es := by
  induction hb with
  | @terminal s es hs =>
    refine mem_begun_of_operand List.mem_cons_self ?_
    have hn : g.isNonterminal s = false := by
      rw [isNonterminal, NameMap.contains]
      exact Option.isSome_eq_false_iff.2 (Option.isNone_iff_eq_none.2 hs)
    rw [begunBy, hn]
    exact List.mem_singleton_self s
  | rule hs _ ih => exact mem_begun_of_operand List.mem_cons_self (h.rule hs _ ih)
  | choice hs _ ih => exact mem_begun_of_operand hs (begun_symbol ih)
  | quantified _ ih => exact mem_begun_of_operand List.mem_cons_self (begun_symbol ih)
  | next he _ ih =>
    have hempty := (nullableIn_cons.1 (nullableIn_of_yields he)).1
    rw [begun, if_pos hempty]
    exact List.mem_append_right _ ih

theorem Certified.mem_begunBy (h : g.Certified firsts follows) {s t : Symbol}
    (hb : g.Begins [.symbol s] t) : t ∈ g.begunBy firsts s := begun_symbol (h.mem_begun hb)

/-- **A closed table holds what can follow a symbol.** -/
theorem Certified.mem_followedBy (h : g.Certified firsts follows) {s t : Symbol}
    (hf : g.Follows s t) : t ∈ followedBy follows s := by
  induction hf with
  | rest hr hs hb =>
    exact ((h.position hr).1 _ hs).1 _ (List.mem_append_left _ (h.mem_begun hb))
  | parent hr hs hes _ ih =>
    refine ((h.position hr).1 _ hs).1 _ (List.mem_append_right _ ?_)
    rw [if_pos (nullableIn_of_yields hes)]
    exact ih
  | again hr he hs hb => exact ((h.position hr).1 _ hs).2 he _ (h.mem_begunBy hb)

theorem Certified.mem_followedAt (h : g.Certified firsts follows) {lhs t : Symbol} {es : Rule}
    (hf : g.FollowsAt lhs es t) : t ∈ g.followedAt firsts follows lhs es := by
  rcases hf with hb | ⟨hempty, hf⟩
  · exact List.mem_append_left _ (h.mem_begun hb)
  · refine List.mem_append_right _ ?_
    rw [if_pos (nullableIn_of_yields hempty)]
    exact h.mem_followedBy hf

/-- **Tables that keep apart what has to be show a grammar deterministic.** -/
theorem Certified.deterministic (h : g.Certified firsts follows) : g.Deterministic where
  solid {lhs r e s} hr he hne hs hempty := by
    obtain ⟨before, es, rfl⟩ := List.append_of_mem he
    have hcontains := contains_nullable_of_yields (derives_iff_yields.1 hempty)
    have hsep := (h.position hr).2
    have hnot : g.nullable.contains s = false := by
      cases e with
      | symbol x => exact absurd rfl (hne x)
      | choice ss => exact hsep.1 s hs
      | quantified q x =>
        rw [List.mem_singleton.1 hs]
        exact hsep.1
    exact absurd (hcontains.symm.trans hnot) (by simp)
  apart {lhs r ss s s' t} hr he hs hs' hne hb hb' := by
    obtain ⟨before, es, rfl⟩ := List.append_of_mem he
    exact (h.position hr).2.2 s hs s' hs' hne t (h.mem_begunBy hb) (h.mem_begunBy hb')
  ahead hr hb hf := (h.position hr).2.2 _ (h.mem_begunBy hb) (h.mem_followedAt hf)

end Grammar

end PushParser
