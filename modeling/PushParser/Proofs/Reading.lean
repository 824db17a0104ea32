import PushParser.Proofs.GroupNames

/-!
# What definitions say

Definitions can be read as they are written, without checks and without names for groups: a form is
a symbol or applies an operator to operands, and a right-hand side lists forms. **`Rewrites`**
compares the rules of a grammar with the forms they were built from.

* `Form.symbol?`, `Form.application?`, `Form.listing`: the parts of a form;
* `mentioned`: the symbols that definitions mention;
* `Form.Renders`: what a form is in a rule;
* **`rewrites_of_build`**: a grammar that was built rewrites its definitions;
* **`Grammar.names_of_build`**: the names given to groups are new among the left-hand sides, and a
  symbol that is mentioned without a definition is a terminal exactly if no group was given its
  name.
-/

namespace PushParser

/-! ## The parts of a form -/

namespace Form

/-- The symbol, if the form is one. -/
def symbol? : Form → Option Symbol
  | .name s | .element (.symbol s) => some s
  | _ => none

/-- The operator and its operands, if the form applies one. -/
def application? : Form → Option (Operator × List Form)
  | .operator _ code fs => (Operator.ofCode? code).map fun op => (op, fs)
  | .element (.quantified q s) => some (.quantifier q, [.name s])
  | .element (.choice ss) => some (.choice, ss.map .name)
  | _ => none

/-- The forms that a right-hand side lists, in order. One that is no sequence lists itself. -/
def listing : Form → List Form
  | .sequence fs => fs
  | .names ss => ss.map .name
  | .rule es => es.filterMap fun e? => e?.map .element
  | f => [f]

/-- The symbols in an element of a right-hand side. -/
def symbols (f : Form) : List Symbol :=
  f.symbol?.toList ++ f.application?.toList.flatMap fun a => a.2.filterMap symbol?

end Form

/-- **The symbols that definitions mention**, on the left or on the right. -/
def mentioned (definitions : NameMap Form) : List Symbol :=
  definitions.entries.flatMap fun d => d.1 :: d.2.listing.flatMap Form.symbols

/-- The forms are the symbols, one by one. -/
abbrev Spells (fs : List Form) (ss : List Symbol) : Prop :=
  List.Forall₂ (fun f s => f.symbol? = some s) fs ss

theorem spells_names (ss : List Symbol) : Spells (ss.map .name) ss := by
  induction ss with
  | nil => exact .nil
  | cons s ss ih => exact .cons rfl ih

theorem Spells.filterMap {fs : List Form} {ss : List Symbol} (h : Spells fs ss) :
    fs.filterMap Form.symbol? = ss := by
  induction h with
  | nil => rfl
  | cons hs _ ih => rw [List.filterMap_cons_some hs, ih]

namespace Form

theorem application?_of_symbol? {f : Form} {s : Symbol} (h : f.symbol? = some s) :
    f.application? = none := by
  unfold symbol? at h
  split at h
  · rfl
  · rfl
  · cases h

theorem symbols_of_symbol? {f : Form} {s : Symbol} (h : f.symbol? = some s) : f.symbols = [s] := by
  rw [symbols, h, application?_of_symbol? h]
  rfl

theorem symbols_of_application? {f : Form} {op : Operator} {os : List Form} {ss : List Symbol}
    (h : f.application? = some (op, os)) (hos : Spells os ss) : f.symbols = ss := by
  have hnone : f.symbol? = none := by
    cases hs : f.symbol? with
    | none => rfl
    | some s => cases (application?_of_symbol? hs).symm.trans h
  rw [symbols, hnone, h]
  simpa using hos.filterMap

end Form

theorem mem_mentioned_iff {definitions : NameMap Form} {s : Symbol} :
    s ∈ mentioned definitions ↔ s ∈ definitions.keys ∨
      ∃ lhs f, definitions.find? lhs = some f ∧ ∃ o ∈ f.listing, s ∈ o.symbols := by
  simp only [mentioned, List.mem_flatMap, List.mem_cons, NameMap.mem_keys_iff,
    NameMap.find?_eq_some_iff, Prod.exists]
  constructor
  · rintro ⟨lhs, f, hmem, rfl | hs⟩
    · exact .inl ⟨f, hmem⟩
    · exact .inr ⟨lhs, f, hmem, hs⟩
  · rintro (⟨f, hmem⟩ | ⟨lhs, f, hmem, hs⟩)
    · exact ⟨s, f, hmem, .inl rfl⟩
    · exact ⟨lhs, f, hmem, .inr hs⟩

/-! ## Drafts of forms -/

/-- What a form that passes its check is drafted as. -/
inductive Form.Drafts : Form → Draft → Prop
  | symbol {f : Form} {s : Symbol} (h : f.symbol? = some s) : Drafts f (.element (.symbol s))
  | application {f : Form} {op : Operator} {os : List Form} {ss : List Symbol}
      (h : f.application? = some (op, os)) (hos : Spells os ss) : Drafts f (op.draft ss)

namespace Form

theorem symbol?_of_operand {label : String} {f : Form} {s : Symbol}
    (h : f.operand label = .ok s) : f.symbol? = some s := by
  unfold operand at h
  split at h
  all_goals cases h
  all_goals rfl

theorem spells_of_operands {label : String} {fs : List Form} {ss : List Symbol}
    (h : operands label fs = .ok ss) : Spells fs ss := by
  induction fs generalizing ss with
  | nil =>
    cases h
    exact .nil
  | cons f fs ih =>
    rw [operands] at h
    split at h
    · cases h
    · next hs =>
      split at h
      · cases h
      · next hss =>
        cases h
        exact .cons (symbol?_of_operand hs) (ih hss)

theorem drafts_of_draftSymbol {f : Form} {s : Symbol} {d : Draft} (hf : f.symbol? = some s)
    (h : draftSymbol s = .ok d) : f.Drafts d := by
  unfold draftSymbol at h
  split at h
  · cases h
  · cases h
    exact .symbol hf

theorem drafts_of_draftElement {e : Element} {d : Draft} (h : draftElement e = .ok d) :
    (Form.element e).Drafts d := by
  unfold draftElement at h
  split at h
  · exact drafts_of_draftSymbol rfl h
  · cases h
  · next hsymbol _ =>
    split at h
    · cases h
    · cases h
      cases e with
      | symbol s => exact absurd rfl (hsymbol s)
      | quantified q s =>
        exact @Drafts.application _ (.quantifier q) [.name s] [s] rfl (spells_names [s])
      | choice ss => exact @Drafts.application _ .choice (ss.map .name) ss rfl (spells_names ss)

theorem drafts_of_draftOperator {boxed : Bool} {code : Int} {fs : List Form} {d : Draft}
    (h : draftOperator code fs = .ok d) : (Form.operator boxed code fs).Drafts d := by
  unfold draftOperator at h
  split at h
  · cases h
  · split at h
    · cases h
    · next hss =>
      split at h
      · cases h
      · split at h
        · cases h
        · next op hop =>
          cases h
          exact .application (by rw [application?, hop, Option.map_some]) (spells_of_operands hss)

theorem drafts_of_draft {f : Form} {d : Draft} (h : f.draft = .ok d) : f.Drafts d := by
  unfold draft at h
  split at h
  · cases h
  · cases h
  · exact drafts_of_draftSymbol rfl h
  · exact drafts_of_draftElement h
  · exact drafts_of_draftOperator h
  all_goals cases h

theorem drafts_of_draftFrom {position : Nat} {fs : List Form} {ds : List Draft}
    (h : draftFrom position fs = .ok ds) : List.Forall₂ Drafts fs ds := by
  induction fs generalizing position ds with
  | nil =>
    cases h
    exact .nil
  | cons f fs ih =>
    rw [draftFrom] at h
    split at h
    · cases h
    · next hd =>
      split at h
      · cases h
      · next hds =>
        cases h
        exact .cons (drafts_of_draft hd) (ih hds)

theorem listing_of_drafts {es : List (Option Element)} {ds : List Draft}
    (h : List.Forall₂ Drafts (es.map fun e? => match e? with
      | none => .unset
      | some e => .element e) ds) :
    (Form.rule es).listing = es.map fun e? => match e? with
      | none => .unset
      | some e => .element e := by
  rw [listing]
  induction es generalizing ds with
  | nil => rfl
  | cons e? es ih =>
    cases h with
    | cons hd hds =>
      cases e? with
      | none => nomatch hd
      | some e => exact congrArg (_ :: ·) (ih hds)

/-- **A right-hand side is drafted as what it lists.** -/
theorem drafts_of_draftRule {f : Form} {ds : List Draft} (h : f.draftRule = .ok ds) :
    List.Forall₂ Drafts f.listing ds := by
  unfold draftRule at h
  split at h
  · cases h
  · next fs hfs =>
    have hdrafts := drafts_of_draftFrom h
    cases f with
    | unset => cases hfs
    | rule es =>
      cases hfs
      rwa [listing_of_drafts hdrafts]
    | _ =>
      cases hfs
      exact hdrafts

end Form

/-! ## Rules of forms -/

/-- The nonterminal stands for the sequence of symbols: it is the only one, or a group of them. -/
def Grammar.Abbreviates (g : Grammar) (n : Symbol) (ss : List Symbol) : Prop :=
  ss = [n] ∨ n ∈ g.synthetic ∧ g.rule? n = some (ss.map .symbol)

/-- **What a form is in a rule.** -/
inductive Form.Renders (g : Grammar) : Form → Element → Prop
  | symbol {f : Form} {s : Symbol} (h : f.symbol? = some s) : Renders g f (.symbol s)
  | choice {f : Form} {os : List Form} {ss : List Symbol}
      (h : f.application? = some (.choice, os)) (hos : Spells os ss) : Renders g f (.choice ss)
  | quantified {f : Form} {q : Quantifier} {os : List Form} {ss : List Symbol} {n : Symbol}
      (h : f.application? = some (.quantifier q, os)) (hos : Spells os ss)
      (hn : g.Abbreviates n ss) : Renders g f (.quantified q n)

/-- **What building makes of definitions.** -/
structure Rewrites (definitions : NameMap Form) (g : Grammar) : Prop where
  /-- The names given to groups are different from each other and from all left-hand sides. -/
  nodup : (g.synthetic ++ definitions.keys).Nodup
  nonterminal : ∀ {s}, s ∈ g.nonterminals ↔ s ∈ definitions.keys ∨ s ∈ g.synthetic
  /-- A definition becomes a rule, position by position. -/
  rule : ∀ {s f}, definitions.find? s = some f →
    ∃ r, g.rule? s = some r ∧ List.Forall₂ (Form.Renders g) f.listing r
  /-- A name given to a group has the sequence of the group for its rule. -/
  group : ∀ {n}, n ∈ g.synthetic → ∃ lhs f o q os ss, definitions.find? lhs = some f ∧
    o ∈ f.listing ∧ o.application? = some (.quantifier q, os) ∧ Spells os ss ∧
    g.rule? n = some (ss.map .symbol)

namespace NameMap

variable {β γ ε : Type}

theorem forall₂_traverse {f : String → β → Except ε γ} {es : List (String × β)}
    {vs : List (String × γ)} (h : traverse f es = .ok vs) :
    List.Forall₂ (fun e v => v.1 = e.1 ∧ f e.1 e.2 = .ok v.2) es vs := by
  induction es generalizing vs with
  | nil =>
    cases h
    exact .nil
  | cons e es ih =>
    rw [traverse] at h
    split at h
    · cases h
    · next v hv =>
      split at h
      · cases h
      · next hvs =>
        cases h
        exact .cons ⟨rfl, hv⟩ (ih hvs)

theorem find?_mapM {f : String → β → Except ε γ} {m : NameMap β} {n : NameMap γ}
    (h : m.mapM f = .ok n) {k : String} {w : γ} :
    n.find? k = some w ↔ ∃ v, m.find? k = some v ∧ f k v = .ok w := by
  have hall : List.Forall₂ (fun e v => v.1 = e.1 ∧ f e.1 e.2 = .ok v.2) m.entries n.entries := by
    unfold mapM at h
    split at h
    · cases h
    · next hes =>
      cases h
      exact forall₂_traverse hes
  simp only [find?_eq_some_iff]
  constructor
  · intro hw
    obtain ⟨⟨k', v⟩, hv, rfl, hf⟩ := exists_rel_of_mem hall.flip hw
    exact ⟨v, hv, hf⟩
  · rintro ⟨v, hv, hf⟩
    obtain ⟨⟨k', w'⟩, hw, rfl, hf'⟩ := exists_rel_of_mem hall hv
    cases hf.symm.trans hf'
    exact hw

end NameMap

theorem find?_drafts_iff {definitions : NameMap Form} {drafts : NameMap (List Draft)}
    (h : definitions.mapM (fun lhs f => f.draftRule.mapError (ConfigurationError.inRule lhs)) =
      .ok drafts) {s : Symbol} {ds : List Draft} :
    drafts.find? s = some ds ↔ ∃ f, definitions.find? s = some f ∧ f.draftRule = .ok ds := by
  rw [NameMap.find?_mapM h]
  refine exists_congr fun f => and_congr_right fun _ => ?_
  cases f.draftRule with
  | error fault => exact ⟨fun h => (nomatch h), fun h => (nomatch h)⟩
  | ok ds' => exact ⟨fun h => congrArg _ (Except.ok.inj h), fun h => congrArg _ (Except.ok.inj h)⟩

theorem exists_draft_of_find? {definitions : NameMap Form} {drafts : NameMap (List Draft)}
    (h : definitions.mapM (fun lhs f => f.draftRule.mapError (ConfigurationError.inRule lhs)) =
      .ok drafts) {s : Symbol} {f : Form} (hf : definitions.find? s = some f) :
    ∃ ds, drafts.find? s = some ds ∧ f.draftRule = .ok ds := by
  have hs : s ∈ drafts.keys := by
    rw [NameMap.keys_mapM h]
    exact NameMap.mem_keys_iff.2 ⟨f, hf⟩
  obtain ⟨ds, hds⟩ := NameMap.mem_keys_iff.1 hs
  obtain ⟨f', hf', hdraft⟩ := (find?_drafts_iff h).1 hds
  cases hf.symm.trans hf'
  exact ⟨ds, hds, hdraft⟩

theorem Expands.abbreviates {drafts : NameMap (List Draft)} {added : List (Symbol × Rule)}
    {g : Grammar} (hx : Expands drafts added g) {n : Symbol} {ss : List Symbol}
    (h : (n, ss.map .symbol) ∈ added) : g.Abbreviates n ss := by
  refine .inr ⟨?_, (hx.group h).1⟩
  rw [hx.synthetic]
  exact List.mem_map.2 ⟨_, h, rfl⟩

theorem Form.Drafts.renders {drafts : NameMap (List Draft)} {added : List (Symbol × Rule)}
    {g : Grammar} (hx : Expands drafts added g) {f : Form} {d : Draft} {e : Element}
    (hf : f.Drafts d) (hd : d.Becomes added e) : f.Renders g e := by
  cases hf with
  | symbol h =>
    cases hd with
    | element => exact .symbol h
  | @application op os ss h hos =>
    cases op with
    | choice =>
      cases hd with
      | element => exact .choice h hos
    | quantifier q =>
      -- a single operand needs no name
      rcases ss with _ | ⟨s, _ | ⟨s', ss⟩⟩
      · cases hd with
        | group hn => exact .quantified h hos (hx.abbreviates hn)
      · cases hd with
        | element => exact .quantified h hos (.inl rfl)
      · cases hd with
        | group hn => exact .quantified h hos (hx.abbreviates hn)

theorem renders_of_drafts {drafts : NameMap (List Draft)} {added : List (Symbol × Rule)}
    {g : Grammar} (hx : Expands drafts added g) {fs : List Form} {ds : List Draft} {r : Rule}
    (hfs : List.Forall₂ Form.Drafts fs ds) (hds : List.Forall₂ (Draft.Becomes added) ds r) :
    List.Forall₂ (Form.Renders g) fs r := by
  induction hfs generalizing r with
  | nil =>
    cases hds
    exact .nil
  | cons hf _ ih =>
    cases hds with
    | cons hd hds => exact .cons (hf.renders hx hd) (ih hds)

theorem exists_application_of_group {f : Form} {q : Quantifier} {ss : List Symbol}
    (h : f.Drafts (.group q ss)) :
    ∃ os, f.application? = some (.quantifier q, os) ∧ Spells os ss := by
  generalize hd : Draft.group q ss = d at h
  cases h with
  | symbol => cases hd
  | @application op os ss' h hos =>
    cases op with
    | choice => cases hd
    | quantifier q' =>
      rcases ss' with _ | ⟨s, _ | ⟨s', ss'⟩⟩
      · cases hd
        exact ⟨os, h, hos⟩
      · cases hd
      · cases hd
        exact ⟨os, h, hos⟩

/-- **A grammar that was built rewrites its definitions.** -/
theorem rewrites_of_build {definitions : NameMap Form} {g : Grammar}
    (h : Grammar.build definitions = .ok g) : Rewrites definitions g := by
  obtain ⟨drafts, -, hdrafts, -, rfl, -⟩ := Grammar.exists_drafts_of_build h
  obtain ⟨added, hx⟩ := expands_expandRules drafts
  have hkeys : drafts.keys = definitions.keys := NameMap.keys_mapM hdrafts
  refine ⟨hkeys ▸ hx.nodup, fun {s} => hkeys ▸ hx.nonterminal, fun {s f} hf => ?_, fun {n} hn => ?_⟩
  · obtain ⟨ds, hds, hdraft⟩ := exists_draft_of_find? hdrafts hf
    obtain ⟨r, hr, hbecomes⟩ := hx.rule hds
    exact ⟨r, hr, renders_of_drafts hx (Form.drafts_of_draftRule hdraft) hbecomes⟩
  · rw [hx.synthetic] at hn
    obtain ⟨⟨n, r⟩, hmem, rfl⟩ := List.mem_map.1 hn
    obtain ⟨hr, ss, ⟨⟨lhs, ds⟩, hds, q, hgroup⟩, rfl⟩ := hx.group hmem
    obtain ⟨f, hf, hdraft⟩ := (find?_drafts_iff hdrafts).1 (NameMap.find?_eq_some_iff.2 hds)
    obtain ⟨o, ho, hod⟩ := exists_rel_of_mem (Form.drafts_of_draftRule hdraft).flip hgroup
    obtain ⟨os, happ, hos⟩ := exists_application_of_group hod
    exact ⟨lhs, f, o, q, os, ss, hf, ho, happ, hos, hr⟩

/-! ## Terminals -/

namespace Grammar

variable {definitions : NameMap Form} {g : Grammar}

theorem mem_terminals_iff {s : Symbol} :
    s ∈ g.terminals ↔ s ∉ g.nonterminals ∧
      ∃ lhs r, g.rule? lhs = some r ∧ ∃ e ∈ r, s ∈ e.operands := by
  have hnot : ∀ x, (!g.isNonterminal x) = true ↔ x ∉ g.nonterminals := by
    intro x
    rw [Bool.not_eq_true', ← Bool.not_eq_true, isNonterminal, NameMap.contains_iff]
    rfl
  simp only [terminals, NameMap.mem_keys_ofList, List.map_map, Function.comp_def, List.map_id',
    List.mem_filter, hnot, List.mem_flatMap, ruleSymbols, rule?, NameMap.find?_eq_some_iff,
    Prod.exists]
  exact and_comm

theorem mem_symbols_of_renders {f : Form} {e : Element} {s : Symbol} (h : f.Renders g e)
    (hs : s ∈ e.operands) : s ∈ f.symbols ∨ s ∈ g.synthetic := by
  cases h with
  | symbol hf =>
    rw [Form.symbols_of_symbol? hf]
    exact .inl hs
  | choice hf hos =>
    rw [Form.symbols_of_application? hf hos]
    exact .inl hs
  | quantified hf hos hn =>
    rw [Form.symbols_of_application? hf hos]
    rcases hn with rfl | ⟨hn, -⟩
    · exact .inl hs
    · exact .inr (List.mem_singleton.1 hs ▸ hn)

/-- The symbols of a form are in its element, or in the rule of the group that the element names. -/
theorem exists_rule_of_renders {lhs : Symbol} {r : Rule} {f : Form} {e : Element} {s : Symbol}
    (hr : g.rule? lhs = some r) (he : e ∈ r) (h : f.Renders g e) (hs : s ∈ f.symbols) :
    ∃ lhs r, g.rule? lhs = some r ∧ ∃ e ∈ r, s ∈ e.operands := by
  cases h with
  | symbol hf =>
    rw [Form.symbols_of_symbol? hf] at hs
    exact ⟨lhs, r, hr, _, he, hs⟩
  | choice hf hos =>
    rw [Form.symbols_of_application? hf hos] at hs
    exact ⟨lhs, r, hr, _, he, hs⟩
  | @quantified q os ss n hf hos hn =>
    rw [Form.symbols_of_application? hf hos] at hs
    rcases hn with rfl | ⟨-, hn⟩
    · exact ⟨lhs, r, hr, _, he, hs⟩
    · exact ⟨n, _, hn, .symbol s, List.mem_map.2 ⟨s, hs, rfl⟩, List.mem_singleton.2 rfl⟩

/-- **The terminals** are the symbols that the definitions mention, except left-hand sides and names
given to groups. -/
theorem mem_terminals_iff_mentioned (h : Rewrites definitions g) {s : Symbol} :
    s ∈ g.terminals ↔ s ∈ mentioned definitions ∧ s ∉ definitions.keys ∧ s ∉ g.synthetic := by
  rw [mem_terminals_iff, h.nonterminal, not_or, mem_mentioned_iff]
  constructor
  · rintro ⟨⟨hkeys, hsynthetic⟩, lhs, r, hr, e, he, hs⟩
    refine ⟨.inr ?_, hkeys, hsynthetic⟩
    rcases h.nonterminal.1 (NameMap.mem_keys_iff.2 ⟨r, hr⟩) with hlhs | hlhs
    · obtain ⟨f, hf⟩ := NameMap.mem_keys_iff.1 hlhs
      obtain ⟨r', hr', hrenders⟩ := h.rule hf
      cases hr.symm.trans hr'
      obtain ⟨o, ho, hoe⟩ := exists_rel_of_mem hrenders.flip he
      exact ⟨lhs, f, hf, o, ho, (mem_symbols_of_renders hoe hs).resolve_right hsynthetic⟩
    · obtain ⟨lhs', f, o, q, os, ss, hf, ho, happ, hos, hr'⟩ := h.group hlhs
      cases hr.symm.trans hr'
      obtain ⟨x, hx, rfl⟩ := List.mem_map.1 he
      refine ⟨lhs', f, hf, o, ho, ?_⟩
      rw [Form.symbols_of_application? happ hos, List.mem_singleton.1 hs]
      exact hx
  · rintro ⟨hmentioned, hkeys, hsynthetic⟩
    obtain ⟨lhs, f, hf, o, ho, hs⟩ := hmentioned.resolve_left hkeys
    obtain ⟨r, hr, hrenders⟩ := h.rule hf
    obtain ⟨e, he, hoe⟩ := exists_rel_of_mem hrenders ho
    exact ⟨⟨hkeys, hsynthetic⟩, exists_rule_of_renders hr he hoe hs⟩

/-- **The names of a grammar that was built.** The names given to groups differ from each other and
from every left-hand side. Of the other symbols mentioned, just those are terminals that no group
was given for its name; so they all are, exactly if none is spelled like the name of a group. -/
theorem names_of_build (h : build definitions = .ok g) :
    (g.synthetic ++ definitions.keys).Nodup ∧
      (∀ s, s ∈ g.nonterminals ↔ s ∈ definitions.keys ∨ s ∈ g.synthetic) ∧
      g.terminals.Pairwise (· < ·) ∧
      (∀ s, s ∈ g.terminals ↔
        s ∈ mentioned definitions ∧ s ∉ definitions.keys ∧ s ∉ g.synthetic) ∧
      ((∀ s, s ∈ g.terminals ↔ s ∈ mentioned definitions ∧ s ∉ definitions.keys) ↔
        ∀ n ∈ g.synthetic, n ∉ mentioned definitions) := by
  have hrewrites := rewrites_of_build h
  have hterminals := fun s => mem_terminals_iff_mentioned hrewrites (s := s)
  have hnew : ∀ n ∈ g.synthetic, n ∉ definitions.keys := by
    intro n hn hkey
    exact (List.nodup_append.1 hrewrites.nodup).2.2 n hn n hkey rfl
  refine ⟨hrewrites.nodup, fun s => hrewrites.nonterminal, NameMap.ordered _, hterminals, ?_⟩
  constructor
  · intro hall n hn hmentioned
    exact ((hterminals n).1 ((hall n).2 ⟨hmentioned, hnew n hn⟩)).2.2 hn
  · intro hfree s
    rw [hterminals s]
    constructor
    · rintro ⟨hs, hkey, -⟩
      exact ⟨hs, hkey⟩
    · rintro ⟨hs, hkey⟩
      exact ⟨hs, hkey, fun hn => hfree s hn hs⟩

/-! ## A terminal spelled like a group -/

/-- A group at position `0` of root, and then a terminal that is spelled like the name of the
group. -/
def capturingForms : NameMap Form := .ofList
  [("root", .sequence [Form.apply (.quantifier .star) ["a", "b"], .name "root@0"])]

/-- The grammar in which the group took the name of the terminal. -/
def capturingGrammar : Grammar where
  rules := .ofList [("root", [.quantified .star "root@0", .symbol "root@0"]),
    ("root@0", [.symbol "a", .symbol "b"])]
  synthetic := ["root@0"]

theorem build_capturingForms : build capturingForms = .ok capturingGrammar :=
  Eq.refl (Except.ok capturingGrammar)

theorem names_of_build_capturing : build capturingForms = .ok capturingGrammar ∧
    (capturingGrammar.synthetic ++ capturingForms.keys).Nodup ∧
    ((∀ s, s ∈ capturingGrammar.terminals ↔
        s ∈ mentioned capturingForms ∧ s ∉ capturingForms.keys) ↔
      ∀ n ∈ capturingGrammar.synthetic, n ∉ mentioned capturingForms) :=
  have h := names_of_build build_capturingForms
  ⟨build_capturingForms, h.1, h.2.2.2.2⟩

/-- **A group can take the name of a terminal**: `root@0` is mentioned and has no definition, and
yet it is no terminal, for it names a group. -/
theorem exists_terminal_captured : ¬ ∀ (definitions : NameMap Form) (g : Grammar),
    build definitions = .ok g → (∀ n ∈ g.synthetic, n ∉ mentioned definitions) ∧
      ∀ s, s ∈ g.terminals ↔ s ∈ mentioned definitions ∧ s ∉ definitions.keys := by
  intro hall
  refine (hall capturingForms capturingGrammar build_capturingForms).1 "root@0" ?_ ?_
  · decide
  · decide

end Grammar

end PushParser
