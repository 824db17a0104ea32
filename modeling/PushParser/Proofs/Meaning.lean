import PushParser.Proofs.Language
import PushParser.Proofs.Reading

/-!
# The meaning of definitions

**`Reads`** says which words definitions stand for as they are written: a symbol without a
definition for itself, an operator for what it makes of its operands, where a quantifier over
several of them repeats all of them together. There are no names for groups in it.

* `Quantifier.Admits`: how many occurrences a quantifier admits;
* `Stands`: an element of a rule for a form that mentions no group;
* `yields_of_reads`, `reads_of_derivation`: a word that is read is derived, and one that is derived
  is read;
* **`Grammar.derives_iff_reads`**: building a grammar keeps the words of every nonterminal.
-/

namespace PushParser

/-- How many occurrences the quantifier admits. -/
def Quantifier.Admits : Quantifier → Nat → Prop
  | .star, _ => True
  | .plus, n => 0 < n
  | .opt, n => n ≤ 1

/-- **The words of a sequence of forms**, by the definitions as they are written. -/
inductive Reads (definitions : NameMap Form) : List Form → List Symbol → Prop
  | nil : Reads definitions [] []
  | terminal {f : Form} {fs : List Form} {s : Symbol} {w : List Symbol} (hf : f.symbol? = some s)
      (hs : definitions.find? s = none) (hfs : Reads definitions fs w) :
      Reads definitions (f :: fs) (s :: w)
  | defined {f d : Form} {fs : List Form} {s : Symbol} {u v : List Symbol}
      (hf : f.symbol? = some s) (hs : definitions.find? s = some d)
      (h : Reads definitions d.listing u) (hfs : Reads definitions fs v) :
      Reads definitions (f :: fs) (u ++ v)
  /-- Exactly one of the operands. -/
  | choice {f o : Form} {fs os : List Form} {u v : List Symbol}
      (hf : f.application? = some (.choice, os)) (ho : o ∈ os) (h : Reads definitions [o] u)
      (hfs : Reads definitions fs v) : Reads definitions (f :: fs) (u ++ v)
  /-- All operands in order, as often as the quantifier admits. -/
  | quantified {f : Form} {fs os : List Form} {q : Quantifier} {us : List (List Symbol)}
      {v : List Symbol} (hf : f.application? = some (.quantifier q, os)) (hq : q.Admits us.length)
      (h : ∀ u ∈ us, Reads definitions os u) (hfs : Reads definitions fs v) :
      Reads definitions (f :: fs) (us.flatten ++ v)

variable {definitions : NameMap Form} {g : Grammar}

theorem Reads.append {fs fs' : List Form} {u v : List Symbol} (h : Reads definitions fs u)
    (h' : Reads definitions fs' v) : Reads definitions (fs ++ fs') (u ++ v) := by
  induction h with
  | nil => exact h'
  | terminal hf hs _ ih => exact .terminal hf hs ih
  | defined hf hs h _ _ ih =>
    rw [List.append_assoc]
    exact .defined hf hs h ih
  | choice hf ho h _ _ ih =>
    rw [List.append_assoc]
    exact .choice hf ho h ih
  | quantified hf hq h _ _ ih =>
    rw [List.append_assoc]
    exact .quantified hf hq h ih

theorem Reads.quantified_one {f : Form} {os : List Form} {q : Quantifier} {us : List (List Symbol)}
    (hf : f.application? = some (.quantifier q, os)) (hq : q.Admits us.length)
    (h : ∀ u ∈ us, Reads definitions os u) : Reads definitions [f] us.flatten := by
  rw [← List.append_nil us.flatten]
  exact .quantified hf hq h .nil

/-! ## Forms that mention no group -/

/-- The element stands for the form, and the form mentions no name given to a group. -/
structure Stands (g : Grammar) (f : Form) (e : Element) : Prop where
  renders : f.Renders g e
  clear : ∀ s ∈ f.symbols, s ∉ g.synthetic

/-- **The grammar rewrites the definitions and captures no symbol.** -/
structure Faithful (definitions : NameMap Form) (g : Grammar) : Prop where
  rewrites : Rewrites definitions g
  clear : ∀ s ∈ mentioned definitions, s ∉ g.synthetic

namespace Faithful

theorem rule (h : Faithful definitions g) {s : Symbol} {f : Form}
    (hf : definitions.find? s = some f) :
    ∃ r, g.rule? s = some r ∧ List.Forall₂ (Stands g) f.listing r := by
  obtain ⟨r, hr, hrenders⟩ := h.rewrites.rule hf
  refine ⟨r, hr, ?_⟩
  have hclear : ∀ o ∈ f.listing, ∀ s ∈ o.symbols, s ∉ g.synthetic := by
    intro o ho x hx
    exact h.clear x (mem_mentioned_iff.2 (.inr ⟨s, f, hf, o, ho, hx⟩))
  have hall := (List.forall₂_and_left _ _).2 ⟨hclear, hrenders⟩
  exact hall.imp fun _ _ ho => ⟨ho.2, ho.1⟩

theorem rule?_eq_none_iff (h : Faithful definitions g) {s : Symbol} (hs : s ∉ g.synthetic) :
    g.rule? s = none ↔ definitions.find? s = none := by
  have hiff := h.rewrites.nonterminal (s := s)
  rw [or_iff_left hs, Grammar.nonterminals, NameMap.mem_keys_iff, NameMap.mem_keys_iff,
    ← Option.isSome_iff_exists, ← Option.isSome_iff_exists] at hiff
  rw [← Option.not_isSome_iff_eq_none, ← Option.not_isSome_iff_eq_none, Grammar.rule?]
  exact not_congr hiff

end Faithful

namespace Stands

theorem symbol_eq {f : Form} {e : Element} {s : Symbol} (h : Stands g f e)
    (hf : f.symbol? = some s) : e = .symbol s := by
  cases h.renders with
  | symbol hs =>
    cases hf.symm.trans hs
    rfl
  | choice happ | quantified happ =>
    rw [Form.application?_of_symbol? hf] at happ
    cases happ

theorem symbol? {os : List Form} {s : Symbol}
    (h : List.Forall₂ (Stands g) os ([s].map .symbol)) :
    ∃ o, os = [o] ∧ o.symbol? = some s ∧ s ∉ g.synthetic := by
  cases h with
  | @cons o _ os _ ho hos =>
    cases hos
    cases ho.renders with
    | symbol hs =>
      have hclear := ho.clear
      rw [Form.symbols_of_symbol? hs] at hclear
      exact ⟨o, rfl, hs, hclear s List.mem_cons_self⟩

theorem operands {f : Form} {e : Element} {op : Operator} {os : List Form} {ss : List Symbol}
    (h : Stands g f e) (hf : f.application? = some (op, os)) (hos : Spells os ss) :
    List.Forall₂ (Stands g) os (ss.map .symbol) := by
  have hclear := h.clear
  rw [Form.symbols_of_application? hf hos] at hclear
  clear hf
  induction hos with
  | nil => exact .nil
  | cons hs _ ih =>
    refine .cons ⟨.symbol hs, fun x hx => ?_⟩ (ih fun x hx => hclear x (List.mem_cons_of_mem _ hx))
    rw [Form.symbols_of_symbol? hs] at hx
    exact hclear x (List.mem_singleton.1 hx ▸ List.mem_cons_self)

end Stands

/-! ## Words that are read are derived -/

namespace Grammar

theorem Yields.of_occurrences {q : Quantifier} {s : Symbol} {us : List (List Symbol)}
    (hq : q.Admits us.length) (h : ∀ u ∈ us, g.Yields [.symbol s] u) :
    g.Yields [.quantified q s] us.flatten := by
  have hstar : ∀ us : List (List Symbol), (∀ u ∈ us, g.Yields [.symbol s] u) →
      g.Yields [.quantified .star s] us.flatten := by
    intro us hus
    induction us with
    | nil => exact .never rfl .nil
    | cons u us ih =>
      exact .quantified (hus u List.mem_cons_self)
        (ih fun v hv => hus v (List.mem_cons_of_mem _ hv))
  cases q with
  | star => exact hstar us h
  | plus =>
    cases us with
    | nil => cases hq
    | cons u us =>
      exact .quantified (h u List.mem_cons_self)
        (hstar us fun v hv => h v (List.mem_cons_of_mem _ hv))
  | opt =>
    rcases us with _ | ⟨u, _ | ⟨v, us⟩⟩
    · exact .never rfl .nil
    · exact .quantified (h u List.mem_cons_self) .nil
    · exact absurd hq (by simp [Quantifier.Admits])

theorem yields_abbreviation_iff {n : Symbol} {ss : List Symbol} (h : g.Abbreviates n ss)
    {w : List Symbol} : g.Yields [.symbol n] w ↔ g.Yields (ss.map .symbol) w := by
  rcases h with rfl | ⟨-, hn⟩
  · exact Iff.rfl
  · exact yields_symbol_iff hn

end Grammar

/-- **A word that is read is derived.** -/
theorem yields_of_reads (hg : Faithful definitions g) {fs : List Form} {w : List Symbol}
    (h : Reads definitions fs w) {r : Rule} (hfs : List.Forall₂ (Stands g) fs r) :
    g.Yields r w := by
  induction h generalizing r with
  | nil =>
    cases hfs
    exact .nil
  | terminal hf hs _ ih =>
    cases hfs with
    | cons he hes =>
      have hclear := he.clear
      rw [Form.symbols_of_symbol? hf] at hclear
      rw [he.symbol_eq hf]
      exact .terminal ((hg.rule?_eq_none_iff (hclear _ List.mem_cons_self)).2 hs) (ih hes)
  | defined hf hs _ _ ih ih' =>
    cases hfs with
    | cons he hes =>
      obtain ⟨r', hr', hstands⟩ := hg.rule hs
      rw [he.symbol_eq hf]
      exact .rule hr' ((ih hstands).append (ih' hes))
  | choice hf ho _ _ ih ih' =>
    cases hfs with
    | @cons _ e _ es he hes =>
      cases he.renders with
      | symbol hs =>
        rw [Form.application?_of_symbol? hs] at hf
        cases hf
      | quantified happ => cases hf.symm.trans happ
      | choice happ hos =>
        cases hf.symm.trans happ
        obtain ⟨e, hmem, hoe⟩ := exists_rel_of_mem (he.operands happ hos) ho
        obtain ⟨s, hs, rfl⟩ := List.mem_map.1 hmem
        exact .choice hs ((ih (.cons hoe .nil)).append (ih' hes))
  | quantified hf hq _ _ ih ih' =>
    cases hfs with
    | @cons _ e _ es he hes =>
      cases he.renders with
      | symbol hs =>
        rw [Form.application?_of_symbol? hs] at hf
        cases hf
      | choice happ => cases hf.symm.trans happ
      | quantified happ hos hn =>
        cases hf.symm.trans happ
        have hus := fun u hu => (Grammar.yields_abbreviation_iff hn).2
          (ih u hu (he.operands happ hos))
        exact (Grammar.Yields.of_occurrences hq hus).append (ih' hes)

/-! ## Words that are derived are read -/

theorem tags_leavesOfTrees (ts : List Tree) :
    Token.tags (Tree.leavesOfTrees ts) = (ts.map fun t => Token.tags t.leaves).flatten := by
  induction ts with
  | nil => rfl
  | cons t ts ih =>
    rw [Tree.leavesOfTrees, Grammar.tags_append, ih, List.map_cons, List.flatten_cons]

mutual

/-- **A word that is derived is read.** The nonterminal may stand for a group, and then the word is
read in the operands of the group. -/
theorem reads_of_derivation (hg : Faithful definitions g) {s : Symbol} {t : Tree}
    (h : Derivation g s t) {ss : List Symbol} {os : List Form} (hs : g.Abbreviates s ss)
    (hos : List.Forall₂ (Stands g) os (ss.map .symbol)) :
    Reads definitions os (Token.tags t.leaves) := by
  cases h with
  | leaf h =>
    rw [Tree.leaves]
    rcases hs with rfl | ⟨-, hr⟩
    · obtain ⟨o, rfl, ho, hclear⟩ := Stands.symbol? hos
      exact .terminal ho ((hg.rule?_eq_none_iff hclear).1 h) .nil
    · cases h.symm.trans hr
  | @node _ r slots h hslots =>
    rw [Tree.leaves]
    rcases hs with rfl | ⟨-, hr⟩
    · obtain ⟨o, rfl, ho, hclear⟩ := Stands.symbol? hos
      cases hd : definitions.find? s with
      | none => cases ((hg.rule?_eq_none_iff hclear).2 hd).symm.trans h
      | some d =>
        obtain ⟨r', hr', hstands⟩ := hg.rule hd
        cases h.symm.trans hr'
        rw [← List.append_nil (Token.tags _)]
        exact .defined ho hd (reads_of_matches hg hslots hstands) .nil
    · cases h.symm.trans hr
      exact reads_of_matches hg hslots hos
termination_by sizeOf t

theorem reads_of_matches (hg : Faithful definitions g) {r : Rule} {slots : List (Slot Tree)}
    (h : Matches g r slots) {fs : List Form} (hfs : List.Forall₂ (Stands g) fs r) :
    Reads definitions fs (Token.tags (Tree.leavesOfSlots slots)) := by
  cases h with
  | nil =>
    cases hfs
    exact .nil
  | cons h hs =>
    cases hfs with
    | cons hf hfs =>
      rw [Tree.leavesOfSlots, Grammar.tags_append]
      exact (reads_of_fits hg h hf).append (reads_of_matches hg hs hfs)
termination_by sizeOf slots

theorem reads_of_fits (hg : Faithful definitions g) {e : Element} {slot : Slot Tree}
    (h : Fits g e slot) {f : Form} (hf : Stands g f e) :
    Reads definitions [f] (Token.tags (Tree.leavesOfSlot slot)) := by
  cases h with
  | symbol h =>
    rw [Tree.leavesOfSlot]
    exact reads_of_derivation hg h (.inl rfl) (.cons hf .nil)
  | choice hs h =>
    rw [Tree.leavesOfSlot]
    cases hf.renders with
    | choice happ hos =>
      obtain ⟨o, ho, hoe⟩ :=
        exists_rel_of_mem (hf.operands happ hos).flip (List.mem_map.2 ⟨_, hs, rfl⟩)
      rw [← List.append_nil (Token.tags _)]
      exact .choice happ ho (reads_of_derivation hg h (.inl rfl) (.cons hoe .nil)) .nil
  | absent =>
    cases hf.renders with
    | quantified happ hos hn =>
      exact @Reads.quantified_one definitions f _ .opt [] happ (Nat.zero_le 1) (by simp)
  | @present s t h =>
    rw [Tree.leavesOfSlot]
    cases hf.renders with
    | quantified happ hos hn =>
      rw [← List.append_nil (Token.tags _)]
      refine @Reads.quantified_one definitions f _ .opt [_] happ (Nat.le_refl 1) fun u hu => ?_
      rw [List.mem_singleton.1 hu]
      exact reads_of_derivation hg h hn (hf.operands happ hos)
  | @star s ts h =>
    rw [Tree.leavesOfSlot, tags_leavesOfTrees]
    cases hf.renders with
    | quantified happ hos hn =>
      refine .quantified_one happ trivial fun u hu => ?_
      obtain ⟨t, ht, rfl⟩ := List.mem_map.1 hu
      exact reads_of_derivation hg (h t ht) hn (hf.operands happ hos)
  | @plus s ts h hne =>
    rw [Tree.leavesOfSlot, tags_leavesOfTrees]
    cases hf.renders with
    | quantified happ hos hn =>
      have hq : Quantifier.Admits .plus (ts.map fun t => Token.tags t.leaves).length := by
        rw [List.length_map]
        exact List.length_pos_of_ne_nil hne
      refine .quantified_one happ hq fun u hu => ?_
      obtain ⟨t, ht, rfl⟩ := List.mem_map.1 hu
      exact reads_of_derivation hg (h t ht) hn (hf.operands happ hos)
termination_by sizeOf slot

end

/-! ## Building keeps the meaning -/

namespace Grammar

/-- **Building a grammar keeps the words of every nonterminal**, when no symbol without a definition
is spelled like the name of a group: they are those of the definitions as they are written. -/
theorem derives_iff_reads (h : build definitions = .ok g)
    (hfree : ∀ s ∈ mentioned definitions, s ∉ definitions.keys → g.isSynthetic s = false)
    {s : Symbol} (hs : s ∈ definitions.keys) (w : List Symbol) :
    g.Derives s w ↔ Reads definitions [.name s] w := by
  have hrewrites := rewrites_of_build h
  have hclear : ∀ x ∈ mentioned definitions, x ∉ g.synthetic := by
    intro x hx hsynthetic
    have hkey : x ∉ definitions.keys := fun hkey =>
      (List.nodup_append.1 hrewrites.nodup).2.2 x hsynthetic x hkey rfl
    have hnot := hfree x hx hkey
    rw [isSynthetic, List.contains_eq_mem, decide_eq_false_iff_not] at hnot
    exact hnot hsynthetic
  have hg : Faithful definitions g := ⟨hrewrites, hclear⟩
  have hstands : Stands g (.name s) (.symbol s) := by
    refine ⟨.symbol rfl, fun x hx => ?_⟩
    rw [Form.symbols_of_symbol? rfl] at hx
    exact hclear x (mem_mentioned_iff.2 (.inl (List.mem_singleton.1 hx ▸ hs)))
  constructor
  · rintro ⟨t, ht, rfl⟩
    exact reads_of_derivation hg ht (.inl rfl) (.cons hstands .nil)
  · intro hw
    exact derives_iff_yields.2 (yields_of_reads hg hw (.cons hstands .nil))

/-! ## Sums -/

/-- The definitions of sums. A sum in brackets is called what the group of further terms would be
called. -/
def sumForms : NameMap Form := .ofList [
  ("root", .names ["sum", "enter"]),
  ("sum", .sequence [.name "term", Form.apply (.quantifier .star) ["plus", "term"]]),
  ("sum@1", .rule [some (.symbol "("), some (.symbol "sum"), some (.symbol ")")]),
  ("term", .sequence [.element (.quantified .opt "minus"),
    Form.apply .choice ["digit", "sum@1"]])]

/-- The grammar of sums. -/
def sumGrammar : Grammar where
  rules := .ofList [
    ("root", [.symbol "sum", .symbol "enter"]),
    ("sum", [.symbol "term", .quantified .star "sum@1~1"]),
    ("sum@1", [.symbol "(", .symbol "sum", .symbol ")"]),
    ("sum@1~1", [.symbol "plus", .symbol "term"]),
    ("term", [.quantified .opt "minus", .choice ["digit", "sum@1"]])]
  synthetic := ["sum@1~1"]

theorem build_sumForms : build sumForms = .ok sumGrammar := Eq.refl (Except.ok sumGrammar)

theorem derives_iff_reads_sum : build sumForms = .ok sumGrammar ∧
    (∀ s ∈ mentioned sumForms, s ∉ sumForms.keys → sumGrammar.isSynthetic s = false) ∧
    "sum" ∈ sumForms.keys ∧
    ∀ w, sumGrammar.Derives "sum" w ↔ Reads sumForms [.name "sum"] w :=
  have hfree : ∀ s ∈ mentioned sumForms, s ∉ sumForms.keys → sumGrammar.isSynthetic s = false := by
    decide
  have hsum : "sum" ∈ sumForms.keys := by decide
  ⟨build_sumForms, hfree, hsum, derives_iff_reads build_sumForms hfree hsum⟩

end Grammar

end PushParser
