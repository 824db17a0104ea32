import PushParser.Proofs.Acceptance
import PushParser.Proofs.ProductionOrder
import PushParser.Proofs.Words

/-!
# What a text in EBNF says

A grammar in EBNF has one line for each nonterminal, and each line reads in one way only. So two
grammars with the same nonterminals have the same text exactly when their rules are the same, but
for one thing: at least one `x` is written as an `x` and then any number of them.

* `Rule.unrolled`: a rule with that done;
* `Element.words`, `Rule.words`, **`Rule.words_injective`**: the words of a rule, from which it can
  be read back;
* **`Grammar.toList_production`**: a production is a line of words, its `productionWords`;
* `Grammar.splitOn_ebnf`: a text has one line for each production;
* `Grammar.productionOrder_congr`: unrolling keeps the order of the productions;
* **`Grammar.production_eq_iff`**: a line tells the nonterminal and its rule unrolled;
* **`Grammar.ebnf_eq_iff`**: a text determines the grammar.
-/

namespace PushParser

/-! ## Unrolled rules -/

/-- At least one `x` is an `x` and then any number of them. -/
def Element.unrolled : Element → List Element
  | .quantified .plus s => [.symbol s, .quantified .star s]
  | e => [e]

/-- A rule without `PLUS`. -/
def Rule.unrolled (r : Rule) : Rule := r.flatMap Element.unrolled

/-! ## Words of a rule -/

/-- The words of an element, given those of the symbols. -/
def Element.words (word : Symbol → Word) : Element → List Word
  | .symbol s => [word s]
  | .quantified .star s => [.mark .openBrace, word s, .mark .closeBrace]
  | .quantified .plus s => [word s, .mark .openBrace, word s, .mark .closeBrace]
  | .quantified .opt s => [.mark .openBracket, word s, .mark .closeBracket]
  | .choice ss => .mark .openParen :: (ss.map word).intersperse (.mark .bar) ++ [.mark .closeParen]

/-- The words of a rule. -/
def Rule.words (word : Symbol → Word) (r : Rule) : List Word := r.flatMap (Element.words word)

theorem Element.words_ne_nil (word : Symbol → Word) (e : Element) : e.words word ≠ [] := by
  rcases e with s | ⟨_ | _ | _, s⟩ | ss <;> simp [words]

theorem mem_intersperse_of_ne {v w : Word} (h : w ≠ v) {ws : List Word} :
    w ∈ ws.intersperse v ↔ w ∈ ws := by
  induction ws with
  | nil => rfl
  | cons u ws ih => cases ws <;> simp_all

theorem Element.mem_words_iff {word : Symbol → Word} {w : Word} (hw : ∀ p, w ≠ .mark p)
    {e : Element} : w ∈ e.words word ↔ ∃ s ∈ e.operands, w = word s := by
  rcases e with s | ⟨_ | _ | _, s⟩ | ss
  case choice =>
    simp [words, operands, hw, mem_intersperse_of_ne (hw .bar), eq_comm]
  all_goals simp [words, operands, hw]

theorem Rule.mem_words_iff {word : Symbol → Word} {w : Word} (hw : ∀ p, w ≠ .mark p) {r : Rule} :
    w ∈ Rule.words word r ↔ ∃ e ∈ r, ∃ s ∈ e.operands, w = word s := by
  simp [words, Element.mem_words_iff hw]

theorem Rule.words_unrolled (word : Symbol → Word) (r : Rule) :
    Rule.words word (Rule.unrolled r) = Rule.words word r := by
  rw [words, unrolled, List.flatMap_assoc]
  refine List.flatMap_congr fun e _ => ?_
  rcases e with s | ⟨_ | _ | _, s⟩ | ss <;> simp [Element.unrolled, Element.words]

/-- The element is not `PLUS`, and has an operand. -/
def Element.Plain (e : Element) : Prop := e.unrolled = [e] ∧ e.operands ≠ []

theorem Rule.plain_unrolled {r : Rule} (h : ∀ e ∈ r, e.operands ≠ []) :
    ∀ e ∈ Rule.unrolled r, e.Plain := by
  intro e he
  obtain ⟨f, hf, he⟩ := List.mem_flatMap.1 he
  have hoperands := h f hf
  rcases f with s | ⟨_ | _ | _, s⟩ | ss <;> simp [Element.unrolled] at he
  case quantified.plus =>
    rcases he with rfl | rfl <;> exact ⟨rfl, by simp [Element.operands]⟩
  all_goals
    subst he
    exact ⟨rfl, hoperands⟩

section Reading

variable {word : Symbol → Word} (hword : Function.Injective word)
  (hmark : ∀ s p, word s ≠ .mark p)

include hword

theorem options_cancel {ss ts : List Symbol} {x y : List Word} (hs : ss ≠ []) (ht : ts ≠ [])
    (h : (ss.map word).intersperse (.mark .bar) ++ .mark .closeParen :: x =
      (ts.map word).intersperse (.mark .bar) ++ .mark .closeParen :: y) : ss = ts ∧ x = y := by
  induction ss generalizing ts with
  | nil => exact absurd rfl hs
  | cons s ss ih =>
    obtain ⟨t, ts, rfl⟩ := List.exists_cons_of_ne_nil ht
    cases ss with
    | nil =>
      cases ts with
      | nil =>
        simp at h
        exact ⟨by rw [hword h.1], h.2⟩
      | cons t' ts => simp at h
    | cons s' ss =>
      cases ts with
      | nil => simp at h
      | cons t' ts =>
        simp at h
        obtain ⟨hst, hx⟩ := ih (by simp) (List.cons_ne_nil t' ts) (by simpa using h.2)
        exact ⟨by rw [hword h.1, hst], hx⟩

include hmark

/-- An element ends where its words do, and its first word tells what kind of element it is. -/
theorem Element.words_cancel {e f : Element} {x y : List Word} (he : e.Plain) (hf : f.Plain)
    (h : e.words word ++ x = f.words word ++ y) : e = f ∧ x = y := by
  have hmark' : ∀ s p, .mark p ≠ word s := fun s p => (hmark s p).symm
  obtain ⟨he, hes⟩ := he
  obtain ⟨hf, hfs⟩ := hf
  rcases e with s | ⟨_ | _ | _, s⟩ | ss <;> rcases f with t | ⟨_ | _ | _, t⟩ | ts <;>
    simp [words, unrolled, hmark, hmark', hword.eq_iff] at h he hf ⊢
  case symbol.symbol | quantified.star.quantified.star | quantified.opt.quantified.opt => exact h
  case choice.choice => exact options_cancel hword hes hfs h

/-- **A rule can be read back from its words.** -/
theorem Rule.words_injective {r r' : Rule} (hr : ∀ e ∈ r, e.Plain) (hr' : ∀ e ∈ r', e.Plain)
    (h : Rule.words word r = Rule.words word r') : r = r' := by
  induction r generalizing r' with
  | nil =>
    cases r' with
    | nil => rfl
    | cons f r' => simp [Rule.words, Element.words_ne_nil] at h
  | cons e r ih =>
    cases r' with
    | nil => simp [Rule.words, Element.words_ne_nil] at h
    | cons f r' =>
      obtain ⟨rfl, hrest⟩ :=
        Element.words_cancel hword hmark (hr e (by simp)) (hr' f (by simp)) h
      rw [ih (fun x hx => hr x (by simp [hx])) (fun x hx => hr' x (by simp [hx])) hrest]

theorem Rule.words_eq_iff {r r' : Rule} (hr : ∀ e ∈ r, e.operands ≠ [])
    (hr' : ∀ e ∈ r', e.operands ≠ []) :
    Rule.words word r = Rule.words word r' ↔ Rule.unrolled r = Rule.unrolled r' := by
  rw [← Rule.words_unrolled word r, ← Rule.words_unrolled word r']
  constructor
  · exact Rule.words_injective hword hmark (Rule.plain_unrolled hr) (Rule.plain_unrolled hr')
  · intro h
    rw [h]

end Reading

/-! ## Productions as lines -/

/-- The word of a symbol: the identifier of a nonterminal, a terminal quoted. -/
def symbolWord (names : NameMap String) (s : Symbol) : Word :=
  match names.find? s with
  | some n => .name n
  | none => .quoted s

/-- The words of a production. -/
def productionWords (names : NameMap String) (lhs : Symbol) (r : Rule) : List Word :=
  symbolWord names lhs :: .mark .equals :: Rule.words (symbolWord names) r ++ [.mark .period]

namespace Grammar

variable (names : NameMap String)

theorem toList_ebnfSymbol (s : Symbol) :
    (ebnfSymbol names s).toList = (symbolWord names s).text := by
  unfold ebnfSymbol symbolWord
  cases names.find? s <;> rfl

theorem spaced_options (ws : List Word) :
    spaced (ws.intersperse (.mark .bar)) = " | ".toList.intercalate (ws.map Word.text) := by
  induction ws with
  | nil => rfl
  | cons w ws ih =>
    cases ws with
    | nil => simp
    | cons v ws =>
      have hne : (v :: ws).intersperse (.mark .bar) ≠ [] := by cases ws <;> simp
      rw [List.intersperse_cons_cons, spaced_cons w (by simp), spaced_cons _ hne, ih]
      simp [List.intercalate_cons_cons, Word.text, Punctuation.char]

theorem toList_ebnfElement {e : Element} (h : e.operands ≠ []) :
    (ebnfElement names e).toList = spaced (e.words (symbolWord names)) := by
  rcases e with s | ⟨_ | _ | _, s⟩ | ss
  case choice =>
    have hne : (ss.map (symbolWord names)).intersperse (.mark .bar) ≠ [] := by
      rcases ss with _ | ⟨s, _ | ⟨t, ss⟩⟩
      · exact absurd rfl h
      · simp
      · simp
    have hoptions : ss.map (String.toList ∘ ebnfSymbol names) =
        (ss.map (symbolWord names)).map Word.text := by
      rw [List.map_map]
      exact List.map_congr_left fun s _ => toList_ebnfSymbol names s
    rw [Element.words, List.cons_append, spaced_cons _ (by simp), spaced_append hne (by simp),
      spaced_options]
    simp [ebnfElement, String.toList_intercalate, hoptions, Word.text, Punctuation.char]
  all_goals
    simp [ebnfElement, Element.words, toList_ebnfSymbol, spaced_cons, Word.text, Punctuation.char]

theorem toList_ebnfRule {r : Rule} (h : ∀ e ∈ r, e.operands ≠ []) :
    (" ".intercalate (r.map (ebnfElement names))).toList =
      spaced (Rule.words (symbolWord names) r) := by
  rw [String.toList_intercalate]
  induction r with
  | nil => rfl
  | cons e r ih =>
    have he := toList_ebnfElement names (h e (by simp))
    cases r with
    | nil => simp [Rule.words, he]
    | cons f r =>
      have hne : Rule.words (symbolWord names) (f :: r) ≠ [] := by
        simp [Rule.words, Element.words_ne_nil]
      have hrest := ih fun x hx => h x (List.mem_cons_of_mem e hx)
      rw [Rule.words, List.flatMap_cons, ← Rule.words,
        spaced_append (Element.words_ne_nil _ e) hne, ← he, ← hrest]
      simp [List.intercalate_cons_cons]

/-- **A production is a line of words.** -/
theorem toList_ebnfProduction (lhs : Symbol) {r : Rule} (hr : r ≠ [])
    (h : ∀ e ∈ r, e.operands ≠ []) :
    (ebnfProduction names lhs r).toList = spaced (productionWords names lhs r) := by
  have hne : Rule.words (symbolWord names) r ≠ [] := by
    obtain ⟨e, r, rfl⟩ := List.exists_cons_of_ne_nil hr
    simp [Rule.words, Element.words_ne_nil]
  rw [productionWords, List.cons_append, List.cons_append, spaced_cons _ (by simp),
    spaced_cons _ (by simp), spaced_append hne (by simp), ← toList_ebnfRule names h,
    ← toList_ebnfSymbol]
  simp [ebnfProduction, Word.text, Punctuation.char]

end Grammar

/-! ## The words of a grammar -/

section Names

variable (g : Grammar)

theorem symbolWord_injective : Function.Injective (symbolWord g.identifiers) := by
  intro s t h
  unfold symbolWord at h
  split at h
  · next n hs =>
    split at h
    · next m ht =>
      obtain rfl := Word.name.inj h
      exact Grammar.identifiers_injective hs ht
    · cases h
  · split at h
    · cases h
    · exact Word.quoted.inj h

theorem symbolWord_ne_mark (names : NameMap String) (s : Symbol) (p : Punctuation) :
    symbolWord names s ≠ .mark p := by
  unfold symbolWord
  split <;> simp

theorem proper_symbolWord (s : Symbol) : (symbolWord g.identifiers s).Proper := by
  unfold symbolWord
  split
  · next n hs =>
    have hmem : s ∈ g.nonterminals :=
      Grammar.mem_keys_identifiers.1 (NameMap.mem_keys_iff.2 ⟨n, hs⟩)
    obtain ⟨m, hm, hidentifier⟩ := Grammar.exists_identifier hmem
    obtain rfl : n = m := Option.some.inj (hs.symm.trans hm)
    exact hidentifier
  · trivial

theorem proper_productionWords (lhs : Symbol) (r : Rule) :
    ∀ w ∈ productionWords g.identifiers lhs r, w.Proper := by
  intro w hw
  by_cases hmark : ∃ p, w = .mark p
  · obtain ⟨p, rfl⟩ := hmark
    trivial
  · rw [not_exists] at hmark
    have hsymbol : ∃ s, w = symbolWord g.identifiers s := by
      simp only [productionWords, List.cons_append, List.mem_cons, List.mem_append,
        List.not_mem_nil, or_false, hmark, Rule.mem_words_iff hmark, false_or] at hw
      rcases hw with hw | ⟨e, -, s, -, hw⟩
      · exact ⟨lhs, hw⟩
      · exact ⟨s, hw⟩
    obtain ⟨s, rfl⟩ := hsymbol
    exact proper_symbolWord g s

theorem productionWords_eq_iff {s t : Symbol} {r r' : Rule} (hr : ∀ e ∈ r, e.operands ≠ [])
    (hr' : ∀ e ∈ r', e.operands ≠ []) :
    productionWords g.identifiers s r = productionWords g.identifiers t r' ↔
      s = t ∧ Rule.unrolled r = Rule.unrolled r' := by
  rw [← Rule.words_eq_iff (symbolWord_injective g) (symbolWord_ne_mark g.identifiers) hr hr']
  simp [productionWords, (symbolWord_injective g).eq_iff]

end Names

namespace Grammar

variable {definitions definitions' : NameMap Form} {g g' : Grammar}

theorem operands_ne_nil_of_build (hg : build definitions = .ok g) {s : Symbol} {r : Rule}
    (hr : g.rule? s = some r) : r ≠ [] ∧ ∀ e ∈ r, e.operands ≠ [] := by
  obtain ⟨hne, hcanonical⟩ := (canonicalFor_of_prepared (prepared_of_build hg)).rule hr
  exact ⟨hne, fun e he => (hcanonical e he).1⟩

theorem toList_production (hg : build definitions = .ok g) {s : Symbol} {r : Rule}
    (hr : g.rule? s = some r) :
    (g.production s).toList = spaced (productionWords g.identifiers s r) := by
  obtain ⟨hne, hoperands⟩ := operands_ne_nil_of_build hg hr
  rw [production, productionWith, hr]
  exact toList_ebnfProduction g.identifiers s hne hoperands

/-- **A text has one line for each production.** -/
theorem splitOn_ebnf (hg : build definitions = .ok g) :
    g.ebnf.toList.splitOn '\n' = g.productionOrder.map fun s => (g.production s).toList := by
  have hroot := root_mem_nonterminals hg
  have hlines : ∀ l ∈ g.productionOrder.map (fun s => (g.production s).toList), '\n' ∉ l := by
    intro l hl
    obtain ⟨s, hs, rfl⟩ := List.mem_map.1 hl
    obtain ⟨r, hr⟩ := exists_rule ((mem_productionOrder_iff hroot).1 hs)
    rw [toList_production hg hr]
    exact newline_not_mem_spaced (proper_productionWords g s r)
  have hne : g.productionOrder.map (fun s => (g.production s).toList) ≠ [] := by
    rw [Ne, List.map_eq_nil_iff]
    exact List.ne_nil_of_mem ((mem_productionOrder_iff hroot).2 hroot)
  rw [← List.splitOn_intercalate '\n' hlines hne, ebnf, String.toList_intercalate, List.map_map]
  rfl

/-! ## Unrolling keeps the order -/

theorem unseen_append_congr {ts ts' : List Symbol} (h : ∀ seen, unseen seen ts = unseen seen ts')
    (seen ss : List Symbol) : unseen seen (ss ++ ts) = unseen seen (ss ++ ts') := by
  induction ss generalizing seen with
  | nil => exact h seen
  | cons s ss ih => simp only [List.cons_append, unseen, ih]

theorem unseen_twice (seen ts : List Symbol) (s : Symbol) :
    unseen seen (s :: s :: ts) = unseen seen (s :: ts) := by
  by_cases hs : s ∈ seen <;> simp [unseen, hs]

theorem unseen_unrolled (p : Symbol → Bool) (seen : List Symbol) (r : Rule) :
    unseen seen ((ruleSymbols (Rule.unrolled r)).filter p) =
      unseen seen ((ruleSymbols r).filter p) := by
  induction r generalizing seen with
  | nil => rfl
  | cons e r ih =>
    have hrest : unseen seen ((e.operands ++ ruleSymbols (Rule.unrolled r)).filter p) =
        unseen seen ((ruleSymbols (e :: r)).filter p) := by
      rw [show ruleSymbols (e :: r) = e.operands ++ ruleSymbols r from List.flatMap_cons,
        List.filter_append, List.filter_append]
      exact unseen_append_congr ih seen _
    rw [← hrest]
    rcases e with s | ⟨_ | _ | _, s⟩ | ss
    case quantified.plus =>
      by_cases hs : p s = true
      · simpa [ruleSymbols, Rule.unrolled, Element.unrolled, Element.operands, hs]
          using unseen_twice seen _ s
      · simp [ruleSymbols, Rule.unrolled, Element.unrolled, Element.operands, hs]
    all_goals simp [ruleSymbols, Rule.unrolled, Element.unrolled]

/-- **Unrolling keeps the order of the productions.** -/
theorem productionOrder_congr (hkeys : g.nonterminals = g'.nonterminals)
    (hrules : ∀ s, (g.rule? s).map Rule.unrolled = (g'.rule? s).map Rule.unrolled) :
    g.productionOrder = g'.productionOrder := by
  have hnonterminal : g.isNonterminal = g'.isNonterminal := by
    funext s
    rw [Bool.eq_iff_iff, ← mem_nonterminals_iff, ← mem_nonterminals_iff, hkeys]
  have hsize : g.rules.size = g'.rules.size := by
    rw [← g.rules.length_keys, ← g'.rules.length_keys]
    exact congrArg List.length hkeys
  have hmentions : ∀ seen s, unseen seen (g.mentions s) = unseen seen (g'.mentions s) := by
    intro seen s
    have hs := hrules s
    rw [mentions, mentions, hnonterminal]
    cases hr : g.rule? s with
    | none =>
      cases hr' : g'.rule? s with
      | none => rfl
      | some r' => simp [hr, hr'] at hs
    | some r =>
      cases hr' : g'.rule? s with
      | none => simp [hr, hr'] at hs
      | some r' =>
        have hunrolled : Rule.unrolled r = Rule.unrolled r' := by simpa [hr, hr'] using hs
        dsimp only
        rw [← unseen_unrolled, hunrolled, unseen_unrolled]
  have hreachable : g.reachable = g'.reachable := by
    rw [reachable, reachable, hsize]
    exact breadthFirst_congr hmentions _ _
  rw [productionOrder, productionOrder, unreachable, unreachable, hreachable, hkeys]

/-! ## What a text determines -/

theorem eq_of_map_eq_map {α β : Type} {f f' : α → β} {P : α → Prop} {xs ys : List α}
    (hstep : ∀ x ∈ xs, ∀ y ∈ ys, f x = f' y → x = y ∧ P x) (h : xs.map f = ys.map f') :
    xs = ys ∧ ∀ x ∈ xs, P x := by
  induction xs generalizing ys with
  | nil =>
    have hys : ys = [] := by simpa using h.symm
    exact ⟨hys.symm, by simp⟩
  | cons x xs ih =>
    cases ys with
    | nil => simp at h
    | cons y ys =>
      obtain ⟨hhead, htail⟩ := List.cons.inj h
      obtain ⟨rfl, hx⟩ := hstep x (by simp) y (by simp) hhead
      obtain ⟨rfl, hxs⟩ := ih (fun a ha b hb => hstep a (by simp [ha]) b (by simp [hb])) htail
      exact ⟨rfl, List.forall_mem_cons.2 ⟨hx, hxs⟩⟩

/-- **A line tells the nonterminal and its rule unrolled.** -/
theorem production_eq_iff (hg : build definitions = .ok g) (hg' : build definitions' = .ok g')
    (hnames : g.identifiers = g'.identifiers) {s t : Symbol} {r r' : Rule}
    (hr : g.rule? s = some r) (hr' : g'.rule? t = some r') :
    g.production s = g'.production t ↔ s = t ∧ Rule.unrolled r = Rule.unrolled r' := by
  rw [← String.toList_inj, toList_production hg hr, toList_production hg' hr', ← hnames,
    ← productionWords_eq_iff g (operands_ne_nil_of_build hg hr).2
      (operands_ne_nil_of_build hg' hr').2]
  constructor
  · exact spaced_injective (proper_productionWords g s r) (proper_productionWords g t r')
  · exact congrArg spaced

theorem map_unrolled_eq_iff {s : Symbol} {r r' : Rule} (hr : g.rule? s = some r)
    (hr' : g'.rule? s = some r') :
    (g.rule? s).map Rule.unrolled = (g'.rule? s).map Rule.unrolled ↔
      Rule.unrolled r = Rule.unrolled r' := by
  simp [hr, hr']

theorem ebnf_eq_iff_unrolled (hg : build definitions = .ok g) (hg' : build definitions' = .ok g')
    (hkeys : g.nonterminals = g'.nonterminals) :
    g.ebnf = g'.ebnf ↔ ∀ s, (g.rule? s).map Rule.unrolled = (g'.rule? s).map Rule.unrolled := by
  have hroot := root_mem_nonterminals hg
  have hroot' := root_mem_nonterminals hg'
  have hnames : g.identifiers = g'.identifiers := by rw [identifiers, identifiers, hkeys]
  have hrule : ∀ {s}, s ∈ g.productionOrder → ∃ r, g.rule? s = some r := fun hs =>
    exists_rule ((mem_productionOrder_iff hroot).1 hs)
  have hrule' : ∀ {s}, s ∈ g'.productionOrder → ∃ r, g'.rule? s = some r := fun hs =>
    exists_rule ((mem_productionOrder_iff hroot').1 hs)
  constructor
  · intro h
    have hlines := congrArg (fun text : String => text.toList.splitOn '\n') h
    rw [splitOn_ebnf hg, splitOn_ebnf hg'] at hlines
    have hread : ∀ s ∈ g.productionOrder, ∀ t ∈ g'.productionOrder,
        (g.production s).toList = (g'.production t).toList →
          s = t ∧ (g.rule? s).map Rule.unrolled = (g'.rule? s).map Rule.unrolled := by
      intro s hs t ht hline
      obtain ⟨r, hr⟩ := hrule hs
      obtain ⟨r', hr'⟩ := hrule' ht
      obtain ⟨rfl, hunrolled⟩ :=
        (production_eq_iff hg hg' hnames hr hr').1 (String.toList_inj.1 hline)
      exact ⟨rfl, (map_unrolled_eq_iff hr hr').2 hunrolled⟩
    obtain ⟨-, hall⟩ := eq_of_map_eq_map hread hlines
    intro s
    by_cases hs : s ∈ g.nonterminals
    · exact hall s ((mem_productionOrder_iff hroot).2 hs)
    · have hnone : ∀ {k : Grammar}, s ∉ k.nonterminals → k.rule? s = none := fun hk =>
        Option.eq_none_iff_forall_ne_some.2 fun r hr => hk (NameMap.mem_keys_iff.2 ⟨r, hr⟩)
      rw [hnone hs, hnone (hkeys ▸ hs)]
  · intro h
    have horder := productionOrder_congr hkeys h
    have hproduction : ∀ s ∈ g.productionOrder, g.production s = g'.production s := by
      intro s hs
      obtain ⟨r, hr⟩ := hrule hs
      obtain ⟨r', hr'⟩ := hrule' (horder ▸ hs)
      exact (production_eq_iff hg hg' hnames hr hr').2
        ⟨rfl, (map_unrolled_eq_iff hr hr').1 (h s)⟩
    have hlines := List.map_congr_left hproduction
    rw [ebnf, ebnf, ← horder]
    exact congrArg _ hlines

/-- **A text in EBNF determines the grammar.** For grammars with the same nonterminals the texts are
the same exactly when the rules are, with every `PLUS` unrolled. No two nonterminals have the same
identifier, and what identifiers look like sets them apart from quoted terminals and marks; each
production has its line, and that line reads in one way only. -/
theorem ebnf_eq_iff (hg : build definitions = .ok g) (hg' : build definitions' = .ok g')
    (hsame : ∀ s, s ∈ g.nonterminals ↔ s ∈ g'.nonterminals) :
    (g.ebnf = g'.ebnf ↔
      g.rules.map (fun _ r => Rule.unrolled r) = g'.rules.map fun _ r => Rule.unrolled r) ∧
    (∀ s ∈ g.nonterminals, ∃ n, g.identifiers.find? s = some n ∧ IsIdentifier n) ∧
    (∀ s t n, g.identifiers.find? s = some n → g.identifiers.find? t = some n → s = t) ∧
    g.ebnf.toList.splitOn '\n' = g.productionOrder.map (fun s => (g.production s).toList) ∧
    (∀ s r, g.rule? s = some r → ∀ ws : List Word, (∀ w ∈ ws, w.Proper) →
      (spaced ws = (g.production s).toList ↔ ws = productionWords g.identifiers s r)) := by
  have hkeys : g.nonterminals = g'.nonterminals :=
    g.rules.ordered.eq_of_mem_iff g'.rules.ordered hsame
  refine ⟨?_, fun s => exists_identifier, fun s t n => identifiers_injective, splitOn_ebnf hg, ?_⟩
  · rw [ebnf_eq_iff_unrolled hg hg' hkeys]
    constructor
    · intro h
      refine NameMap.ext_find? fun s => ?_
      rw [NameMap.find?_map, NameMap.find?_map]
      exact h s
    · intro h s
      have hs := congrArg (fun m => NameMap.find? m s) h
      rwa [NameMap.find?_map, NameMap.find?_map] at hs
  · intro s r hr ws hws
    rw [toList_production hg hr]
    constructor
    · exact spaced_injective hws (proper_productionWords g s r)
    · rintro rfl
      rfl

/-- A root with this rule, above two nonterminals whose identifiers would be the same and whose
terminals look like marks. -/
def crowdedGrammar (root : Rule) : Grammar where
  rules := .ofList [("E", [.symbol "\" .\n"]), ("e", [.symbol "\x7b E \x7d"]), ("root", root)]
  synthetic := []

/-- At least one `e`, written as such. -/
def crowdedPlus : Grammar := crowdedGrammar [.quantified .plus "e", .symbol "E"]

/-- At least one `e`, written as one and then any number. -/
def crowdedStar : Grammar := crowdedGrammar [.symbol "e", .quantified .star "e", .symbol "E"]

theorem ebnf_eq_iff_crowded :
    build crowdedPlus.forms = .ok crowdedPlus ∧ build crowdedStar.forms = .ok crowdedStar ∧
      crowdedPlus.ebnf = crowdedStar.ebnf ∧ crowdedPlus.rules ≠ crowdedStar.rules := by
  have hplus : build crowdedPlus.forms = .ok crowdedPlus := Eq.refl (Except.ok crowdedPlus)
  have hstar : build crowdedStar.forms = .ok crowdedStar := Eq.refl (Except.ok crowdedStar)
  refine ⟨hplus, hstar, (ebnf_eq_iff hplus hstar fun s => Iff.rfl).1.2 rfl, fun h => ?_⟩
  have hroot : crowdedPlus.rule? "root" = crowdedStar.rule? "root" :=
    congrArg (fun m => NameMap.find? m "root") h
  exact absurd hroot (by decide)

end Grammar

end PushParser
