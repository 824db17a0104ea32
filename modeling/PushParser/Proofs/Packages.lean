import PushParser.Proofs.Expressions
import PushParser.Proofs.Rebuilding
import PushParser.Proofs.Verification

/-!
# Grammars verified by a package

The check that a grammar is given here says of it what a package for EBNF says. So nothing that
holds of verified grammars depends on the package.

* **`Grammar.verifyBy_eq_ok_iff`**: which grammars a package passes;
* **`Grammar.verifyBy_eq_verify`**: what a package complains of that searches from the start;
* **`Grammar.verifyBy_rebuilt`**: building again makes no difference to any package;
* `Kit.grammarBy`, **`Kit.grammarBy_eq_ok_iff`**: arithmetic grammars that a package verifies;
* **`Kit.recognises_iff_of_package`**, **`Kit.sameParsers_of_package`**: their words, and the names
  that make no difference to them.
-/

namespace PushParser

/-! ## What a package says -/

namespace Grammar

variable {definitions : NameMap Form} {g : Grammar} {P : Package}

/-- **A package passes the grammars that the check passes.** -/
theorem verifyBy_eq_ok_iff (hg : build definitions = .ok g) (hP : P.Conforms g) :
    g.verifyBy P = .ok () ↔ g.verify = .ok () := by
  rw [(verifies_verifyBy hg hP).passes, ← (verifies_verify hg).passes, mapError_verify_eq_ok_iff]

/-- The productions that are not used are those of the nonterminals that root does not reach. -/
theorem unused_parsedProductions (hroot : rootName ∈ g.nonterminals) :
    (g.parsedProductions.filter fun p =>
      !(breadthFirst (usesOf g.parsedProductions) g.parsedProductions.length
        (g.identifierOf rootName)).contains p.name) =
      g.unreachable.mapIdx fun i => g.parsed (i + g.reachable.length) := by
  have hwell := wellNamed_parsedProductions hroot
  have hfound : ∀ i s, s ∈ g.nonterminals →
      ((breadthFirst (usesOf g.parsedProductions) g.parsedProductions.length
        (g.identifierOf rootName)).contains (g.parsed i s).name = true ↔ g.Reaches s) := by
    intro i s hs
    rw [List.contains_iff_mem, mem_breadthFirst_usesOf hwell]
    exact used_iff hroot hs
  generalize breadthFirst (usesOf g.parsedProductions) g.parsedProductions.length
    (g.identifierOf rootName) = found at hfound
  rw [parsedProductions, productionOrder, List.mapIdx_append, List.filter_append,
    List.filter_eq_nil_iff.2, List.nil_append, List.filter_eq_self.2]
  · intro p hp
    obtain ⟨i, hi, rfl⟩ := List.mem_mapIdx.1 hp
    obtain ⟨hs, hunreached⟩ := (mem_unreachable_iff hroot).1 (List.getElem_mem hi)
    rw [Bool.not_eq_true', Bool.eq_false_iff]
    exact fun h => hunreached ((hfound _ _ hs).1 h)
  · intro p hp
    obtain ⟨i, hi, rfl⟩ := List.mem_mapIdx.1 hp
    have hs := (mem_reachable_iff hroot).1 (List.getElem_mem hi)
    rw [Bool.not_eq_true', Bool.not_eq_false]
    exact (hfound _ _ (hs.mem_nonterminals hroot)).2 hs

theorem map_snd_numberedFrom (n : Nat) (ss : List Symbol) :
    (numberedFrom n ss).map Prod.snd = ss := by
  induction ss generalizing n with
  | nil => rfl
  | cons s ss ih => rw [numberedFrom, List.map_cons, ih]

theorem complaintOf_parsed {ss : List Symbol} (hne : ss ≠ []) (n : Nat) :
    complaintOf (ss.mapIdx fun i => g.parsed (i + n)) =
      some (unreachableReports ((numberedFrom (n + 1) ss).map fun p =>
        (p.1, g.identifierOf p.2))) := by
  rcases ss with _ | ⟨s, _ | ⟨t, ss⟩⟩
  · exact absurd rfl hne
  · simp [complaintOf, numberedFrom, unreachableReports, complaint_parsed, unreachableReport]
  · have hlength : (numberedFrom (n + 1 + 1 + 1) ss).length = ss.length := by
      rw [← List.length_map Prod.snd, map_snd_numberedFrom]
    simp [complaintOf, numberedFrom, unreachableReports, complaint_parsed, unreachableReport,
      hlength]

/-- **A package that searches from the start complains as the check does**, word for word: it names
the first production that is not used, and counts the others. -/
theorem verifyBy_eq_verify (hg : build definitions = .ok g) (hP : P.Conforms g)
    (hcheck : P.check = checkUsed) :
    g.verifyBy P = g.verify.mapError ConfigurationError.message := by
  have hroot := root_mem_nonterminals hg
  have hnames : ∀ p ∈ numberedFrom (g.reachable.length + 1) g.unreachable,
      (p.1, ebnfSymbol g.identifiers p.2) = (p.1, g.identifierOf p.2) := by
    intro p hp
    have hs : p.2 ∈ g.unreachable := by
      rw [← map_snd_numberedFrom (g.reachable.length + 1) g.unreachable]
      exact List.mem_map_of_mem hp
    rw [ebnfSymbol, find?_identifiers ((mem_unreachable_iff hroot).1 hs).1]
  rw [verifyBy, parse_ebnf hg hP, hcheck]
  simp only [checkUsed, unused_parsedProductions hroot, verify]
  cases hunreachable : g.unreachable with
  | nil => rfl
  | cons s ss =>
    rw [hunreachable] at hnames
    rw [complaintOf_parsed (List.cons_ne_nil s ss), ← List.map_congr_left hnames]
    rfl

/-- **Building again makes no difference to any package.** -/
theorem verifyBy_rebuilt (hg : build definitions = .ok g) (P : Package) :
    ∃ g', build g.forms = .ok g' ∧ g'.rules = g.rules ∧ g'.verifyBy P = g.verifyBy P := by
  have hcheck : (Grammar.mk g.rules []).leftRecursion? = g.leftRecursion? :=
    leftRecursion?_of_rules rfl
  rw [leftRecursion?_of_build hg, leftRecursion?_eq_none_iff] at hcheck
  exact ⟨_, (build_of_prepared_iff (prepared_forms hg)).2 hcheck, rfl, rfl⟩

end Grammar

/-! ## Arithmetic grammars -/

namespace Arithmetic.Kit

variable {k : Kit} {start : Start} {g : Grammar} {P : Package} {n n' : Names} {flavor : Flavor}

/-- The grammar of a start, which a package has to pass. -/
def grammarBy (P : Package) (k : Kit) (start : Start) : Except String Grammar :=
  match Grammar.build (k.template start) with
  | .error e => .error e.message
  | .ok g =>
    match g.verifyBy P with
    | .error message => .error message
    | .ok () => .ok g

/-- **The package does not matter.** -/
theorem grammarBy_eq_ok_iff (hP : ∀ g, Grammar.build (k.template start) = .ok g → P.Conforms g) :
    k.grammarBy P start = .ok g ↔ k.grammar start = .ok g := by
  rw [grammar_eq_ok_iff, grammarBy]
  cases hbuild : Grammar.build (k.template start) with
  | error e => simp
  | ok g' =>
    have hverify := Grammar.verifyBy_eq_ok_iff hbuild (hP g' hbuild)
    dsimp only
    cases hresult : g'.verifyBy P with
    | error message =>
      rw [hresult] at hverify
      constructor
      · intro h
        cases h
      · rintro ⟨h, hok⟩
        cases h
        cases hverify.2 hok
    | ok u =>
      cases u
      constructor
      · intro h
        cases h
        exact ⟨rfl, hverify.1 hresult⟩
      · rintro ⟨h, -⟩
        cases h
        rfl

/-- **Parsers for the grammar of expressions recognise sentences**, whichever package verified
it. -/
theorem recognises_iff_of_package (hn : n.check = .ok ()) (hplain : ∀ r, '@' ∉ (n r).toList)
    (hP : ∀ g, Grammar.build (templateOf n flavor .expression) = .ok g → P.Conforms g) :
    ∃ g, (Kit.mk n flavor).grammarBy P (.fragment .expression) = .ok g ∧
      (∀ predict : Bool, ∃ p, Parser.make (some g) (if predict then [.predict] else []) = .ok p ∧
        p.settings.predict = predict) ∧
      ∀ settings p, Parser.make (some g) settings = .ok p →
        ∀ ts, p.Recognises ts ↔ Token.tags ts ∈ n.sentences flavor := by
  have hvalid := Names.valid_of_check hn
  obtain ⟨g, hgrammar, -, -⟩ := exists_grammar hvalid hplain flavor .expression
  obtain ⟨hg, -⟩ := grammar_eq_ok_iff.1 hgrammar
  refine ⟨g, (grammarBy_eq_ok_iff hP).2 hgrammar, fun predict => ?_,
    fun settings p hp => recognises_iff_of_build hvalid hplain hg hp⟩
  cases predict <;> exact ⟨_, rfl, rfl⟩

/-- **Names only change the spelling**, whichever package verified the grammars. -/
theorem sameParsers_of_package (hn : n.check = .ok ()) (hn' : n'.check = .ok ())
    (hplain : ∀ r, '@' ∉ (n r).toList) (hplain' : ∀ r, '@' ∉ (n' r).toList) (x : Fragment)
    (hP : ∀ g, Grammar.build (templateOf n flavor x) = .ok g → P.Conforms g)
    (hP' : ∀ g, Grammar.build (templateOf n' flavor x) = .ok g → P.Conforms g) :
    ∃ g g', (Kit.mk n flavor).grammarBy P (.fragment x) = .ok g ∧
      (Kit.mk n' flavor).grammarBy P (.fragment x) = .ok g' ∧ (∃ ρ, n.Respells n' ρ) ∧
      ∀ ρ, n.Respells n' ρ → g.Renames ρ g' ∧ SameParsers ρ g g' := by
  have hvalid := Names.valid_of_check hn
  have hvalid' := Names.valid_of_check hn'
  obtain ⟨g, hg, hprepared, hacyclic⟩ := exists_grammar hvalid hplain flavor x
  obtain ⟨g', hg', hprepared', hacyclic'⟩ := exists_grammar hvalid' hplain' flavor x
  exact ⟨g, g', (grammarBy_eq_ok_iff hP).2 hg, (grammarBy_eq_ok_iff hP').2 hg',
    Names.exists_respells hvalid hvalid' hplain hplain', fun ρ R =>
      sameParsers_of_prepared hvalid hvalid' hplain hplain' R hprepared hprepared' hacyclic
        hacyclic'⟩

end Arithmetic.Kit

end PushParser
