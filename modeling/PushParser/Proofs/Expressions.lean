import PushParser.Proofs.Readings
import PushParser.Proofs.Recognition
import PushParser.Proofs.Spelling
import PushParser.Proofs.Tables

/-!
# Arithmetic expressions

Arithmetic expressions are the least solution of the usual equations,

* `E = T {A T}`, `T = F {(multiply | divide) F}`,
* `F = [minus] digit {digit} | lparen E rparen`,
* `A = plus | minus`, and for a calculator also `delta plus | delta minus`.

The grammar of the expression fragment stands for just these, followed by the enter key, and its
parsers recognise them.

* **`Names.expressions`**, `Names.sentences`: the language;
* **`words_expression`**, `readings_root`: the template of the fragment solves the equations, which
  have one solution;
* **`deterministic_expression`**, `closed_expression`: in its grammar one token decides, and root
  ends in the enter key;
* **`Kit.recognises_iff_sentence`**: what parsers for it recognise.
-/

namespace PushParser.Arithmetic

open scoped Computability

/-! ## The language -/

namespace Names

variable (n : Names) (flavor : Flavor)

/-- Operators between terms. -/
def additive : Flavor → Language Symbol
  | .plain => {[n .plus]} + {[n .minus]}
  | .calculator =>
    {[n .plus]} + {[n .minus]} + {[n .delta]} * {[n .plus]} + {[n .delta]} * {[n .minus]}

/-- Factors, when `e` may stand in brackets. -/
def factor (e : Language Symbol) : Language Symbol :=
  (1 + {[n .minus]}) * {[n .digit]} * {[n .digit]}∗ + {[n .lparen]} * e * {[n .rparen]}

/-- Terms, when `e` may stand in brackets. -/
def term (e : Language Symbol) : Language Symbol :=
  n.factor e * (({[n .multiply]} + {[n .divide]}) * n.factor e)∗

/-- Expressions, when `e` may stand in brackets. -/
def expression (e : Language Symbol) : Language Symbol :=
  n.term e * (n.additive flavor * n.term e)∗

theorem guarded_expression : Guarded (n.expression flavor) := by
  intro m X Y h
  have hfactor : UpTo (m + 1) (n.factor X) (n.factor Y) :=
    .add (.of_le le_rfl) (h.enclosed (n .lparen) (n .rparen))
  have hterm : UpTo (m + 1) (n.term X) (n.term Y) :=
    hfactor.mul ((UpTo.of_le le_rfl).mul hfactor).kstar
  exact hterm.mul ((UpTo.of_le le_rfl).mul hterm).kstar

/-- **Arithmetic expressions**: what stands in brackets is one again. -/
def expressions : Language Symbol :=
  OrderHom.lfp ⟨n.expression flavor, (n.guarded_expression flavor).monotone⟩

theorem expression_expressions :
    n.expression flavor (n.expressions flavor) = n.expressions flavor :=
  OrderHom.map_lfp ⟨n.expression flavor, (n.guarded_expression flavor).monotone⟩

/-- **Sentences**: an expression and then the enter key. -/
def sentences : Language Symbol := n.expressions flavor * {[n .enter]}

end Names

/-! ## The template -/

/-- The roles of keys. -/
def Role.keys : List Role :=
  [.digit, .plus, .minus, .multiply, .divide, .lparen, .rparen, .enter, .delta]

theorem Fragment.eq_digit_of_key {y : Fragment} (h : y.role ∈ Role.keys) : y = .digit := by
  cases y with
  | digit => rfl
  | _ => exact absurd h (by decide)

/-- The words of a role, by the template of expressions. -/
abbrev words (n : Names) (flavor : Flavor) (r : Role) : Language Symbol :=
  readings (Kit.templateOf n flavor .expression) [.name (n r)]

section Words

variable {n : Names} (hn : n.Valid) (flavor : Flavor)

include hn

theorem find?_key {r : Role} (hr : r ∈ Role.keys) :
    NameMap.find? (Kit.templateOf n flavor .expression) (n r) = none := by
  refine Option.eq_none_iff_forall_ne_some.2 fun f hf => ?_
  rcases (Template.find?_template_iff hn).1 hf with ⟨hroot, -⟩ | ⟨y, -, hrole, hform⟩
  · exact hn.unreserved r hroot
  · have hkey : y.role ∈ Role.keys := by rwa [hn.injective hrole]
    rw [Fragment.eq_digit_of_key hkey] at hform
    cases hform

theorem find?_root : NameMap.find? (Kit.templateOf n flavor .expression) rootName =
    some (rootForm n .expression) := (Template.find?_template_iff hn).2 (.inl ⟨rfl, rfl⟩)

theorem words_key {r : Role} (hr : r ∈ Role.keys) : words n flavor r = {[n r]} :=
  readings_terminal (find?_key hn flavor hr)

/-- The role of a fragment stands for what its rule lists. Only the delta operator is not there in
every flavor. -/
theorem words_fragment (y : Fragment) {fs : List Form} (hf : y.form n flavor = some (.sequence fs))
    (hy : y = .deltaOperator → flavor = .calculator) :
    words n flavor y.role = readings (Kit.templateOf n flavor .expression) fs := by
  have hmem : y ∈ Fragment.closure flavor .expression := by
    cases y with
    | digit => cases hf
    | deltaOperator =>
      obtain rfl := hy rfl
      decide
    | _ => cases flavor <;> decide
  exact readings_defined ((Template.find?_template_iff hn).2 (.inr ⟨y, hmem, rfl, hf⟩))

theorem words_number : words n flavor .number = {[n .digit]} * {[n .digit]}∗ := by
  refine (words_fragment hn flavor .number rfl nofun).trans ?_
  simp (disch := decide) only [readings_cons_cons, readings_apply_star, List.map_cons,
    List.map_nil, words_key hn]

theorem words_signedNumber :
    words n flavor .signedNumber = (1 + {[n .minus]}) * {[n .digit]} * {[n .digit]}∗ := by
  refine (words_fragment hn flavor .signedNumber rfl nofun).trans ?_
  simp (disch := decide) only [readings_cons_cons, readings_apply_opt, List.map_cons,
    List.map_nil, words_key hn, words_number hn, mul_assoc]

theorem words_parenExpression : words n flavor .parenExpression =
    {[n .lparen]} * words n flavor .expression * {[n .rparen]} := by
  refine (words_fragment hn flavor .parenExpression rfl nofun).trans ?_
  simp (disch := decide) only [readings_cons_cons, words_key hn, mul_assoc]

theorem words_factor : words n flavor .factor = n.factor (words n flavor .expression) := by
  refine (words_fragment hn flavor .factor rfl nofun).trans ?_
  rw [readings_apply_choice]
  simp only [List.map_cons, List.map_nil, List.sum_cons, List.sum_nil, add_zero,
    words_signedNumber hn, words_parenExpression hn, Names.factor]

theorem words_mulOperator : words n flavor .mulOperator = {[n .multiply]} + {[n .divide]} := by
  refine (words_fragment hn flavor .mulOperator rfl nofun).trans ?_
  rw [readings_apply_choice]
  simp (disch := decide) only [List.map_cons, List.map_nil, List.sum_cons, List.sum_nil, add_zero,
    words_key hn]

theorem words_term : words n flavor .term = n.term (words n flavor .expression) := by
  refine (words_fragment hn flavor .term rfl nofun).trans ?_
  simp only [readings_cons_cons, readings_apply_star, List.map_cons, List.map_nil,
    words_factor hn, words_mulOperator hn, Names.term]

theorem words_deltaOperator : words n .calculator .deltaOperator =
    {[n .delta]} * {[n .plus]} + {[n .delta]} * {[n .minus]} := by
  refine (words_fragment hn .calculator .deltaOperator rfl fun _ => rfl).trans ?_
  simp (disch := decide) only [readings_cons_cons, readings_apply_choice, List.map_cons,
    List.map_nil, List.sum_cons, List.sum_nil, add_zero, words_key hn, mul_add]

theorem words_addOperator : words n flavor .addOperator = n.additive flavor := by
  cases flavor with
  | plain =>
    refine (words_fragment hn .plain .addOperator rfl nofun).trans ?_
    simp (disch := decide) only [readings_apply_choice, List.map_cons, List.map_nil,
      List.sum_cons, List.sum_nil, add_zero, words_key hn, Names.additive]
  | calculator =>
    refine (words_fragment hn .calculator .addOperator rfl nofun).trans ?_
    simp (disch := decide) only [readings_apply_choice, List.map_cons, List.map_nil,
      List.sum_cons, List.sum_nil, add_zero, words_key hn, words_deltaOperator hn, Names.additive,
      add_assoc]

/-- **The fragment of expressions stands for expressions**: its template solves the equations, and
these have one solution. -/
theorem words_expression : words n flavor .expression = n.expressions flavor := by
  refine (n.guarded_expression flavor).eq_lfp (Eq.symm ?_)
  refine (words_fragment hn flavor .expression rfl nofun).trans ?_
  simp only [readings_cons_cons, readings_apply_star, List.map_cons, List.map_nil,
    words_term hn, words_addOperator hn, Names.expression]

/-- **By the template, root stands for sentences.** -/
theorem readings_root : readings (Kit.templateOf n flavor .expression) [.name rootName] =
    n.sentences flavor := by
  calc readings (Kit.templateOf n flavor .expression) [.name rootName]
      = words n flavor .expression * words n flavor .enter :=
        (readings_defined (find?_root hn flavor)).trans readings_cons_cons
    _ = n.sentences flavor := by
        rw [words_expression hn, words_key hn flavor (by decide), Names.sentences]

end Words

/-! ## The grammar -/

theorem symbols_name (s : Symbol) : (Form.name s).symbols = [s] := Form.symbols_of_symbol? rfl

theorem symbols_apply (op : Operator) (ss : List Symbol) : (Form.apply op ss).symbols = ss :=
  Form.symbols_of_application? (application?_apply op ss) (spells_names ss)

theorem Fragment.exists_role {n : Names} {flavor : Flavor} {y : Fragment} {f : Form}
    (hf : y.form n flavor = some f) : ∀ o ∈ f.listing, ∀ s ∈ o.symbols, ∃ r, n r = s := by
  cases y <;> cases flavor <;> cases hf <;>
    simp [Form.listing, symbols_name, symbols_apply]

section Built

variable {n : Names} (hn : n.Valid) (hplain : ∀ r, Plain (n r)) {flavor : Flavor} {g : Grammar}

include hn hplain

theorem plain_of_mentioned {s : Symbol}
    (hs : s ∈ mentioned (Kit.templateOf n flavor .expression)) : Plain s := by
  suffices s = rootName ∨ ∃ r, n r = s by
    rcases this with rfl | ⟨r, rfl⟩
    · exact Names.plain_rootName
    · exact hplain r
  rcases mem_mentioned_iff.1 hs with hkey | ⟨lhs, f, hf, o, ho, hso⟩
  · obtain ⟨f, hf⟩ := NameMap.mem_keys_iff.1 hkey
    rcases (Template.find?_template_iff hn).1 hf with ⟨hroot, -⟩ | ⟨y, -, hrole, -⟩
    · exact .inl hroot
    · exact .inr ⟨y.role, hrole⟩
  · right
    have hroot : ∀ o ∈ (rootForm n .expression).listing, ∀ s ∈ o.symbols, ∃ r, n r = s := by
      simp [rootForm, Form.listing, symbols_name]
    rcases (Template.find?_template_iff hn).1 hf with ⟨-, rfl⟩ | ⟨y, -, -, hform⟩
    · exact hroot o ho s hso
    · exact Fragment.exists_role hform o ho s hso

variable (hg : Grammar.build (Kit.templateOf n flavor .expression) = .ok g)

include hg

omit hn hplain in
theorem not_mem_synthetic {s : Symbol} (hs : Plain s) : s ∉ g.synthetic := by
  obtain ⟨drafts, -, -, -, rfl⟩ := Grammar.prepared_of_build hg
  exact fun h => hs (at_mem_synthetic h)

theorem faithful_expression : Faithful (Kit.templateOf n flavor .expression) g :=
  ⟨rewrites_of_build hg, fun _ hs => not_mem_synthetic hg (plain_of_mentioned hn hplain hs)⟩

/-- **Root ends in the enter key.** -/
theorem closed_expression : g.Closed := by
  have hfaithful := faithful_expression hn hplain hg
  obtain ⟨r, hr, hstands⟩ := hfaithful.rule (find?_root hn flavor)
  have henter : g.rule? (n .enter) = none :=
    (hfaithful.rule?_eq_none_iff (not_mem_synthetic hg (hplain _))).2
      (find?_key hn flavor (by decide))
  rcases hstands with _ | ⟨hstart, _ | ⟨hend, ⟨⟩⟩⟩
  rw [hend.symbol_eq rfl] at hr
  exact ⟨[_], n .enter, hr, henter⟩

end Built

/-! ## One token decides -/

/-- What can begin the nonterminals of expressions, in short names. -/
def expressionFirsts : NameMap (List Symbol) :=
  let operand := ["-", "d", "("]
  let operator := ["+", "-", "Δ"]
  .ofList [("root", operand), ("E", operand), ("E@1", operator), ("T", operand),
    ("T@1", ["*", "/"]), ("F", operand), ("SN", ["-", "d"]), ("N", ["d"]), ("P", ["("]),
    ("MO", ["*", "/"]), ("AO", operator), ("DO", ["Δ"])]

/-- What can follow the symbols of expressions, in short names. -/
def expressionFollows : NameMap (List Symbol) :=
  let operand := ["-", "d", "("]
  let term := ["+", "-", "Δ", "=", ")"]
  let factor := "*" :: "/" :: term
  .ofList [("E", ["=", ")"]), ("E@1", term), ("T", term), ("T@1", factor), ("F", factor),
    ("SN", factor), ("N", factor), ("P", factor), (")", factor), ("d", "d" :: factor),
    ("MO", operand), ("AO", operand), ("DO", operand), ("+", operand), ("-", operand),
    ("*", operand), ("/", operand), ("(", operand), ("Δ", ["+", "-"])]

theorem deterministic_terse (flavor : Flavor) {g : Grammar}
    (hg : (Kit.mk .terse flavor).grammar (.fragment .expression) = .ok g) : g.Deterministic := by
  have hcertified : ((Kit.mk .terse flavor).grammar (.fragment .expression)).toOption.all
      (fun g => decide (g.Certified expressionFirsts expressionFollows)) = true := by
    cases flavor <;> decide +kernel
  rw [hg] at hcertified
  exact Grammar.Certified.deterministic (of_decide_eq_true hcertified)

/-- **In the grammar of expressions one token decides**, whatever the names are. -/
theorem deterministic_expression {n : Names} (hn : n.Valid) (hplain : ∀ r, Plain (n r))
    {flavor : Flavor} {g : Grammar}
    (hg : Grammar.build (Kit.templateOf n flavor .expression) = .ok g) : g.Deterministic := by
  obtain ⟨terse, hterse⟩ := Kit.exists_grammar_terse flavor .expression
  obtain ⟨ρ, R⟩ := Names.exists_respells hn Kit.valid_terse hplain Kit.plain_terse
  obtain ⟨_, _, hg₁, hg₂, hrenames⟩ :=
    Kit.exists_renames hn Kit.valid_terse hplain Kit.plain_terse R flavor .expression
  obtain rfl := (Grammar.prepared_of_build hg).eq hg₁
  obtain rfl := (Grammar.prepared_of_build (Kit.grammar_eq_ok_iff.1 hterse).1).eq hg₂
  exact hrenames.deterministic (deterministic_terse flavor hterse)

/-! ## Parsers -/

namespace Kit

/-- The words of a grammar of expressions are the sentences, however the grammar was verified. -/
theorem recognises_iff_of_build {n : Names} (hn : n.Valid) (hplain : ∀ r, Plain (n r))
    {flavor : Flavor} {g : Grammar} (hg : Grammar.build (templateOf n flavor .expression) = .ok g)
    {settings : List Setting} {p : Parser} (hp : Parser.make (some g) settings = .ok p)
    (ts : List Token) : p.Recognises ts ↔ Token.tags ts ∈ n.sentences flavor := by
  calc p.Recognises ts
      ↔ g.Derives rootName (Token.tags ts) :=
        Parser.recognises_iff_derives (deterministic_expression hn hplain hg)
          (Grammar.leftRecursion?_of_build hg) (closed_expression hn hplain hg) hp
    _ ↔ Token.tags ts ∈ readings (templateOf n flavor .expression) [.name rootName] :=
        (faithful_expression hn hplain hg).derives_iff
          (not_mem_synthetic hg Names.plain_rootName)
    _ ↔ Token.tags ts ∈ n.sentences flavor := by rw [readings_root hn]

/-- **Parsers for the grammar of expressions recognise sentences.** For a table of names that passes
its check and holds no `@` the grammar is built, and there are parsers for it that predict and
parsers that do not. Whatever its settings are, a parser accepts all tokens and is first done with
the last one just if their tags spell an arithmetic expression and then the enter key. -/
theorem recognises_iff_sentence {n : Names} (hn : n.check = .ok ())
    (hplain : ∀ r, '@' ∉ (n r).toList) (flavor : Flavor) :
    ∃ g, ((Kit.mk n flavor).build (.fragment .expression)).2 = .ok g ∧
      (∀ predict : Bool, ∃ p, Parser.make (some g) (if predict then [.predict] else []) = .ok p ∧
        p.settings.predict = predict) ∧
      ∀ settings p, Parser.make (some g) settings = .ok p →
        ∀ ts, p.Recognises ts ↔ Token.tags ts ∈ n.sentences flavor := by
  have hvalid := Names.valid_of_check hn
  obtain ⟨g, hgrammar, -, -⟩ := exists_grammar hvalid hplain flavor .expression
  obtain ⟨hg, -⟩ := grammar_eq_ok_iff.1 hgrammar
  refine ⟨g, hgrammar, fun predict => ?_,
    fun settings p hp => recognises_iff_of_build hvalid hplain hg hp⟩
  cases predict <;> exact ⟨_, rfl, rfl⟩

/-- The tokens of a difference in brackets, where minus is an operator and then a sign. -/
def deltaTokens : List Token := [⟨"lpar", .null⟩, ⟨"digit", .int 1⟩, ⟨"delta", .null⟩,
  ⟨"minus", .null⟩, ⟨"minus", .null⟩, ⟨"digit", .int 2⟩, ⟨"rpar", .null⟩, ⟨"enter", .null⟩]

theorem tags_deltaTokens_mem : Token.tags deltaTokens ∈ Names.verbose.sentences .calculator := by
  have hfix := (Names.verbose.expression_expressions .calculator).le
  have hterm : ∀ {w}, w ∈ Names.verbose.factor (Names.verbose.expressions .calculator) →
      w ∈ Names.verbose.term (Names.verbose.expressions .calculator) := by
    intro w hw
    rw [← List.append_nil w]
    exact Language.append_mem_mul hw (Language.nil_mem_kstar _)
  have hone : ["digit"] ∈ Names.verbose.factor (Names.verbose.expressions .calculator) :=
    .inl ⟨["digit"], ⟨[], .inl rfl, _, rfl, rfl⟩, [], Language.nil_mem_kstar _, rfl⟩
  have htwo : ["minus", "digit"] ∈ Names.verbose.factor (Names.verbose.expressions .calculator) :=
    .inl ⟨["minus", "digit"], ⟨["minus"], .inr rfl, _, rfl, rfl⟩, [], Language.nil_mem_kstar _, rfl⟩
  have hmore : ["delta", "minus", "minus", "digit"] ∈ (Names.verbose.additive .calculator *
      Names.verbose.term (Names.verbose.expressions .calculator))∗ :=
    Language.mem_kstar.2 ⟨[_], rfl, List.forall_mem_singleton.2
      ⟨["delta", "minus"], .inr ⟨_, rfl, _, rfl, rfl⟩, _, hterm htwo, rfl⟩⟩
  have hinner : ["digit", "delta", "minus", "minus", "digit"] ∈
      Names.verbose.expressions .calculator := hfix ⟨["digit"], hterm hone, _, hmore, rfl⟩
  have houter : ["lpar", "digit", "delta", "minus", "minus", "digit", "rpar"] ∈
      Names.verbose.factor (Names.verbose.expressions .calculator) :=
    .inr ⟨_, ⟨_, rfl, _, hinner, rfl⟩, _, rfl, rfl⟩
  exact ⟨_, hfix ⟨_, hterm houter, [], Language.nil_mem_kstar _, rfl⟩, _, rfl, rfl⟩

theorem recognises_iff_sentence_delta : Names.verbose.check = .ok () ∧
    (∀ r, '@' ∉ (Names.verbose r).toList) ∧
    ∃ g p, ((Kit.mk .verbose .calculator).build (.fragment .expression)).2 = .ok g ∧
      Parser.make (some g) [.predict] = .ok p ∧ p.Recognises deltaTokens ∧
      ∀ ts, p.Recognises ts ↔ Token.tags ts ∈ Names.verbose.sentences .calculator := by
  have hcheck : Names.verbose.check = .ok () := rfl
  have hplain : ∀ r, '@' ∉ (Names.verbose r).toList := by
    intro r
    cases r <;> decide
  obtain ⟨g, hg, hmake, hall⟩ := recognises_iff_sentence hcheck hplain .calculator
  obtain ⟨p, hp, -⟩ := hmake true
  have hiff := hall [.predict] p hp
  exact ⟨hcheck, hplain, g, p, hg, hp, (hiff deltaTokens).2 tags_deltaTokens_mem, hiff⟩

end Kit

end PushParser.Arithmetic
