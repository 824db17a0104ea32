import PushParser.Proofs.Language

/-!
# What a token tells

The terminals that can begin a sequence (**`Grammar.Begins`**) and those that can follow a
nonterminal (**`Grammar.Follows`**), with the usual regard for what stands for the empty word. A
grammar is **`Deterministic`** when they leave no choice: in every choice and at every quantified
symbol one token decides.

* `Grammar.begins_append_iff`: what begins two sequences in a row;
* **`Grammar.Yields.begins`**: a word begins with what can begin it.
-/

namespace PushParser

namespace Grammar

/-! ## Beginnings -/

/-- **The terminals that can begin a sequence.** -/
inductive Begins (g : Grammar) : Rule → Symbol → Prop
  | terminal {s : Symbol} {es : Rule} (hs : g.rule? s = none) : Begins g (.symbol s :: es) s
  | rule {s t : Symbol} {r es : Rule} (hs : g.rule? s = some r) (h : Begins g r t) :
      Begins g (.symbol s :: es) t
  | choice {s t : Symbol} {ss : List Symbol} {es : Rule} (hs : s ∈ ss)
      (h : Begins g [.symbol s] t) : Begins g (.choice ss :: es) t
  | quantified {q : Quantifier} {s t : Symbol} {es : Rule} (h : Begins g [.symbol s] t) :
      Begins g (.quantified q s :: es) t
  /-- The first element stands for the empty word. -/
  | next {e : Element} {t : Symbol} {es : Rule} (he : g.Yields [e] []) (h : Begins g es t) :
      Begins g (e :: es) t

variable {g : Grammar} {t : Symbol}

theorem not_begins_nil : ¬ g.Begins [] t := by
  intro h
  cases h

theorem begins_cons_iff {e : Element} {es : Rule} :
    g.Begins (e :: es) t ↔ g.Begins [e] t ∨ g.Yields [e] [] ∧ g.Begins es t := by
  constructor
  · intro h
    cases h with
    | terminal hs => exact Or.inl (.terminal hs)
    | rule hs h => exact Or.inl (.rule hs h)
    | choice hs h => exact Or.inl (.choice hs h)
    | quantified h => exact Or.inl (.quantified h)
    | next he h => exact Or.inr ⟨he, h⟩
  · rintro (h | ⟨he, h⟩)
    · cases h with
      | terminal hs => exact .terminal hs
      | rule hs h => exact .rule hs h
      | choice hs h => exact .choice hs h
      | quantified h => exact .quantified h
      | next _ h => exact absurd h not_begins_nil
    · exact .next he h

theorem begins_append_iff {r es : Rule} :
    g.Begins (r ++ es) t ↔ g.Begins r t ∨ g.Yields r [] ∧ g.Begins es t := by
  induction r with
  | nil => simp [not_begins_nil]
  | cons e r ih =>
    have hempty : g.Yields (e :: r) [] ↔ g.Yields [e] [] ∧ g.Yields r [] :=
      yields_append_nil_iff (r := [e])
    have hbegins : g.Begins (e :: r) t ↔ g.Begins [e] t ∨ g.Yields [e] [] ∧ g.Begins r t :=
      begins_cons_iff
    rw [List.cons_append, begins_cons_iff, ih, hbegins, hempty, and_or_left, or_assoc, and_assoc]

theorem begins_symbol_iff {s : Symbol} {r : Rule} (hs : g.rule? s = some r) :
    g.Begins [.symbol s] t ↔ g.Begins r t := by
  constructor
  · intro h
    cases h with
    | terminal hn => exact absurd (hn.symm.trans hs) (by simp)
    | rule hs' h =>
      cases hs.symm.trans hs'
      exact h
    | next _ h => exact absurd h not_begins_nil
  · exact .rule hs

theorem begins_of_again {e : Element} {es : Rule} (h : g.Begins (e.again ++ es) t) :
    (∃ s ∈ e.operands, g.Begins [.symbol s] t) ∨ g.Begins es t := by
  rcases begins_append_iff.1 h with h | ⟨-, h⟩
  · left
    cases e with
    | symbol | choice => exact absurd h not_begins_nil
    | quantified q s =>
      refine ⟨s, List.mem_singleton_self s, ?_⟩
      cases q with
      | opt => exact absurd h not_begins_nil
      | star | plus =>
        cases h with
        | quantified h => exact h
        | next _ h => exact absurd h not_begins_nil
  · exact Or.inr h

theorem yields_again (e : Element) : g.Yields e.again [] := by
  cases e with
  | symbol | choice => exact .nil
  | quantified q s =>
    cases q with
    | opt => exact .nil
    | star | plus => exact .never rfl .nil

/-- **A word begins with what can begin it.** -/
theorem Yields.begins {r : Rule} {w : List Symbol} (h : g.Yields r (t :: w)) : g.Begins r t := by
  generalize hw : t :: w = v at h
  induction h with
  | nil => cases hw
  | terminal hs =>
    cases hw
    exact .terminal hs
  | rule hs _ ih =>
    rcases begins_append_iff.1 (ih hw) with h | ⟨hr, h⟩
    · exact .rule hs h
    · exact .next ((yields_symbol_iff hs).2 hr) h
  | choice hs _ ih =>
    rcases begins_cons_iff.1 (ih hw) with h | ⟨he, h⟩
    · exact .choice hs h
    · exact .next (.choice hs he) h
  | @once q s es _ _ ih =>
    rcases begins_cons_iff.1 (ih hw) with h | ⟨he, h⟩
    · exact .quantified h
    · rcases begins_of_again h with ⟨s', hs', h⟩ | h
      · rw [List.mem_singleton.1 hs'] at h
        exact .quantified h
      · exact .next (.quantified he (yields_again _)) h
  | never hq _ ih => exact .next (.never hq .nil) (ih hw)

/-! ## Followers -/

/-- **The terminals that can follow a symbol.** -/
inductive Follows (g : Grammar) : Symbol → Symbol → Prop
  /-- What comes after it in a rule can begin so. -/
  | rest {lhs s t : Symbol} {before es : Rule} {e : Element}
      (hr : g.rule? lhs = some (before ++ e :: es)) (hs : s ∈ e.operands) (h : g.Begins es t) :
      Follows g s t
  /-- What comes after it in a rule stands for the empty word. -/
  | parent {lhs s t : Symbol} {before es : Rule} {e : Element}
      (hr : g.rule? lhs = some (before ++ e :: es)) (hs : s ∈ e.operands) (hes : g.Yields es [])
      (h : Follows g lhs t) : Follows g s t
  /-- It repeats. -/
  | again {lhs s t : Symbol} {before es : Rule} {e : Element}
      (hr : g.rule? lhs = some (before ++ e :: es)) (he : e.repeats = true) (hs : s ∈ e.operands)
      (h : g.Begins [.symbol s] t) : Follows g s t

/-- The terminals that can come after a position of the rule of `lhs`, when `es` comes after it. -/
def FollowsAt (g : Grammar) (lhs : Symbol) (es : Rule) (t : Symbol) : Prop :=
  g.Begins es t ∨ g.Yields es [] ∧ g.Follows lhs t

/-- **One token decides** in every choice and at every quantified symbol. -/
structure Deterministic (g : Grammar) : Prop where
  /-- What is chosen or quantified does not stand for the empty word. -/
  solid : ∀ {lhs r e s}, g.rule? lhs = some r → e ∈ r → (∀ x, e ≠ .symbol x) → s ∈ e.operands →
    ¬ g.Derives s []
  /-- Different options of a choice begin differently. -/
  apart : ∀ {lhs r ss s s' t}, g.rule? lhs = some r → .choice ss ∈ r → s ∈ ss → s' ∈ ss → s ≠ s' →
    g.Begins [.symbol s] t → ¬ g.Begins [.symbol s'] t
  /-- A quantified symbol does not begin like what comes after it. -/
  ahead : ∀ {lhs before q s es t}, g.rule? lhs = some (before ++ .quantified q s :: es) →
    g.Begins [.symbol s] t → ¬ g.FollowsAt lhs es t

end Grammar

end PushParser
