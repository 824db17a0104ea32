import PushParser.Proofs.EbnfText
import PushParser.Proofs.RenamedRules

/-!
# Verification is reachability

A grammar is verified by having its text parsed, and by having it checked that every production is
used when beginning at the identifier of root. Names stand in the text for nonterminals, and lines
for places in the order of productions; so what is found is what root does not reach.

* `Production`, `Package`: what is parsed of a line, and a package that parses and checks;
* `Used`, `WellNamed`, **`Package.Conforms`**: what is relied on of a package;
* `checkUsed`, `passes_checkUsed`: a check that can be relied on;
* `Grammar.verifyBy`: verification by a package;
* **`Grammar.used_iff`**: a name is used exactly when root reaches its nonterminal;
* **`Grammar.verify_exact`**: productions are in order, and verification is exact.
-/

namespace PushParser

/-! ## Packages -/

/-- **A production as it is parsed**: where it stands, its name, and the names that it uses. -/
structure Production where
  file : String
  line : Nat
  column : Nat
  name : String
  uses : List String
  deriving DecidableEq

/-- What is said of a production that is not used. -/
def Production.complaint (p : Production) : String :=
  p.file ++ ":" ++ toString p.line ++ ":" ++ toString p.column ++ ": " ++ p.name ++
    " is unreachable"

/-- The names among some words. -/
def namesIn (ws : List Word) : List String :=
  ws.filterMap fun
    | .name n => some n
    | _ => none

/-- The production of a line of words: a name at its very beginning, then the names it uses. -/
def Production.ofWords (file : String) (line : Nat) (ws : List Word) : Production where
  file := file
  line := line
  column := 1
  name := (namesIn ws).headD ""
  uses := (namesIn ws).tail

/-- The productions of some lines, which are counted from one. -/
def productions (file : String) (lines : List (List Word)) : List Production :=
  lines.mapIdx fun i ws => .ofWords file (i + 1) ws

/-- **A package for EBNF.** It parses the text of a file, and says what is wrong with productions
when beginning at a name. -/
structure Package where
  parse : (file text : String) → Except String (List Production)
  check : List Production → (start : String) → Option String

/-- **The name is used when beginning at `start`.** -/
def Used (ps : List Production) (start n : String) : Prop :=
  ∃ k, ReachedIn (fun m n => ∃ p ∈ ps, p.name = m ∧ n ∈ p.uses) start k n

/-- Every name that is used has one production, whose name begins with a capital letter. -/
structure WellNamed (ps : List Production) (start : String) : Prop where
  nodup : (ps.map Production.name).Nodup
  start : start ∈ ps.map Production.name
  used : ∀ p ∈ ps, ∀ n ∈ p.uses, n ∈ ps.map Production.name
  capital : ∀ p ∈ ps, IsIdentifier p.name

/-- **What is relied on of a package**: it parses the text of the grammar, and of productions that
are well named it only rejects those that are not used. -/
structure Package.Conforms (P : Package) (g : Grammar) : Prop where
  /-- Every line is parsed as its words say. -/
  parses : ∀ lines : List (List Word), (∀ ws ∈ lines, ∀ w ∈ ws, w.Proper) →
    g.ebnf.toList.splitOn '\n' = lines.map spaced →
    P.parse rootName g.ebnf = .ok (productions rootName lines)
  /-- Nothing is wrong exactly when everything is used. -/
  passes : ∀ ps start, WellNamed ps start →
    (P.check ps start = none ↔ ∀ p ∈ ps, Used ps start p.name)
  /-- If one production is not used, it is complained of. -/
  complains : ∀ ps start p, WellNamed ps start → p ∈ ps →
    (∀ q ∈ ps, ¬ Used ps start q.name ↔ q = p) → P.check ps start = some p.complaint

/-! ## A check that can be relied on -/

/-- The names used under a name. -/
def usesOf (ps : List Production) (n : String) : List String :=
  (ps.filter fun p => p.name = n).flatMap Production.uses

/-- What is wrong, given the productions that are not used. -/
def complaintOf : List Production → Option String
  | [] => none
  | [p] => some p.complaint
  | p :: ps => some (p.complaint ++ " (and " ++ toString ps.length ++ " more errors)")

/-- Search from `start` and complain of what is not found. -/
def checkUsed (ps : List Production) (start : String) : Option String :=
  let found := breadthFirst (usesOf ps) ps.length start
  complaintOf (ps.filter fun p => !found.contains p.name)

section Check

variable {ps : List Production} {start : String} (h : WellNamed ps start)

include h

theorem mem_breadthFirst_usesOf {n : String} :
    n ∈ breadthFirst (usesOf ps) ps.length start ↔ Used ps start n := by
  have hstep : (fun m n => n ∈ usesOf ps m) = fun m n => ∃ p ∈ ps, p.name = m ∧ n ∈ p.uses := by
    funext m n
    simp [usesOf, and_assoc]
  have hnext : ∀ m ∈ ps.map Production.name, usesOf ps m ⊆ ps.map Production.name := by
    intro m _ n hn
    obtain ⟨p, hp, hnp⟩ := List.mem_flatMap.1 hn
    exact h.used p (List.mem_filter.1 hp).1 n hnp
  have hexplored := explored_breadthFirst hnext h.start (List.length_map (f := Production.name)).le
  rw [hexplored.mem_iff, hstep]
  rfl

theorem passes_checkUsed : checkUsed ps start = none ↔ ∀ p ∈ ps, Used ps start p.name := by
  have hnone : ∀ qs, complaintOf qs = none ↔ qs = [] := by
    intro qs
    rcases qs with _ | ⟨p, _ | ⟨q, qs⟩⟩ <;> simp [complaintOf]
  simp [checkUsed, hnone, List.filter_eq_nil_iff, mem_breadthFirst_usesOf h]

theorem complains_checkUsed {p : Production} (hp : p ∈ ps)
    (hone : ∀ q ∈ ps, ¬ Used ps start q.name ↔ q = p) : checkUsed ps start = some p.complaint := by
  have hnodup : ps.Nodup := .of_map _ h.nodup
  have hmem : ∀ q, q ∈ (ps.filter fun q =>
      !(breadthFirst (usesOf ps) ps.length start).contains q.name) ↔ q ∈ [p] := by
    intro q
    simp only [List.mem_filter, Bool.not_eq_true', List.contains_eq_mem, decide_eq_false_iff_not,
      mem_breadthFirst_usesOf h, List.mem_singleton]
    constructor
    · exact fun hq => (hone q hq.1).1 hq.2
    · rintro rfl
      exact ⟨hp, (hone q hp).2 rfl⟩
  have hfilter := List.perm_singleton.1
    ((List.perm_ext_iff_of_nodup (hnodup.filter _) (List.nodup_singleton p)).2 hmem)
  rw [checkUsed, hfilter]
  rfl

end Check

/-! ## Names stand for nonterminals -/

theorem mem_namesIn {n : String} {ws : List Word} : n ∈ namesIn ws ↔ .name n ∈ ws := by
  rw [namesIn, List.mem_filterMap]
  constructor
  · rintro ⟨w, hw, hn⟩
    split at hn <;> simp_all
  · exact fun h => ⟨_, h, rfl⟩

namespace Grammar

variable {definitions : NameMap Form} {g : Grammar} {s t : Symbol}

/-- The identifier of a nonterminal. -/
def identifierOf (g : Grammar) (s : Symbol) : String := (g.identifiers.find? s).getD ""

theorem find?_identifiers (hs : s ∈ g.nonterminals) :
    g.identifiers.find? s = some (g.identifierOf s) := by
  obtain ⟨n, hn, -⟩ := exists_identifier hs
  rw [identifierOf, hn]
  rfl

theorem isIdentifier_identifierOf (hs : s ∈ g.nonterminals) : IsIdentifier (g.identifierOf s) := by
  obtain ⟨n, hn, hidentifier⟩ := exists_identifier hs
  rwa [identifierOf, hn]

theorem identifierOf_inj (hs : s ∈ g.nonterminals) (ht : t ∈ g.nonterminals)
    (h : g.identifierOf s = g.identifierOf t) : s = t :=
  identifiers_injective (find?_identifiers hs) (h ▸ find?_identifiers ht)

/-- The words of the line of a nonterminal. -/
def lineWords (g : Grammar) (s : Symbol) : List Word :=
  productionWords g.identifiers s ((g.rule? s).getD [])

theorem proper_lineWords : ∀ w ∈ g.lineWords s, w.Proper := proper_productionWords g s _

/-- **The lines of a text are those of the productions in order.** -/
theorem splitOn_ebnf_eq (hg : build definitions = .ok g) :
    g.ebnf.toList.splitOn '\n' = (g.productionOrder.map g.lineWords).map spaced := by
  rw [splitOn_ebnf hg, List.map_map]
  refine List.map_congr_left fun s hs => ?_
  obtain ⟨r, hr⟩ := exists_rule ((mem_productionOrder_iff (root_mem_nonterminals hg)).1 hs)
  rw [toList_production hg hr, Function.comp_apply, lineWords, hr, Option.getD_some]

theorem lines_eq (hg : build definitions = .ok g) {lines : List (List Word)}
    (hproper : ∀ ws ∈ lines, ∀ w ∈ ws, w.Proper)
    (hlines : g.ebnf.toList.splitOn '\n' = lines.map spaced) :
    lines = g.productionOrder.map g.lineWords := by
  rw [splitOn_ebnf_eq hg] at hlines
  refine (eq_of_map_eq_map (P := fun _ => True) (fun vs hvs ws hws h => ⟨?_, trivial⟩)
    hlines.symm).1
  obtain ⟨s, -, rfl⟩ := List.mem_map.1 hws
  exact spaced_injective (hproper vs hvs) proper_lineWords h

/-- The production of the nonterminal in place `i`. -/
def parsed (g : Grammar) (i : Nat) (s : Symbol) : Production where
  file := rootName
  line := i + 1
  column := 1
  name := g.identifierOf s
  uses := namesIn (Rule.words (symbolWord g.identifiers) ((g.rule? s).getD []))

theorem ofWords_lineWords (hs : s ∈ g.nonterminals) (i : Nat) :
    Production.ofWords rootName (i + 1) (g.lineWords s) = g.parsed i s := by
  have hnames : namesIn (g.lineWords s) = g.identifierOf s ::
      namesIn (Rule.words (symbolWord g.identifiers) ((g.rule? s).getD [])) := by
    simp [lineWords, productionWords, symbolWord, find?_identifiers hs, namesIn]
  rw [Production.ofWords, hnames]
  rfl

/-- The productions of the text. -/
def parsedProductions (g : Grammar) : List Production := g.productionOrder.mapIdx g.parsed

theorem mem_parsedProductions_iff {p : Production} :
    p ∈ g.parsedProductions ↔ ∃ i s, g.productionOrder[i]? = some s ∧ p = g.parsed i s := by
  rw [parsedProductions, List.mem_iff_getElem?]
  simp [List.getElem?_mapIdx, eq_comm]

theorem mem_nonterminals_iff_place (hroot : rootName ∈ g.nonterminals) :
    s ∈ g.nonterminals ↔ ∃ i : Nat, g.productionOrder[i]? = some s := by
  rw [← mem_productionOrder_iff hroot, List.mem_iff_getElem?]

theorem productions_eq (hg : build definitions = .ok g) :
    productions rootName (g.productionOrder.map g.lineWords) = g.parsedProductions := by
  refine List.ext_getElem? fun i => ?_
  rw [productions, parsedProductions, List.getElem?_mapIdx, List.getElem?_mapIdx,
    List.getElem?_map]
  cases hi : g.productionOrder[i]? with
  | none => rfl
  | some s =>
    have hs := (mem_nonterminals_iff_place (root_mem_nonterminals hg)).2 ⟨i, hi⟩
    exact congrArg some (ofWords_lineWords hs i)

theorem mem_uses_parsed_iff {i : Nat} {n : String} :
    n ∈ (g.parsed i s).uses ↔ ∃ t, g.Mentions s t ∧ n = g.identifierOf t := by
  have hword : ∀ t, Word.name n = symbolWord g.identifiers t ↔
      t ∈ g.nonterminals ∧ n = g.identifierOf t := by
    intro t
    by_cases ht : t ∈ g.nonterminals
    · simp [symbolWord, find?_identifiers ht, ht]
    · have hnone : g.identifiers.find? t = none := Option.eq_none_iff_forall_ne_some.2
        fun m hm => ht (mem_keys_identifiers.1 (NameMap.mem_keys_iff.2 ⟨m, hm⟩))
      simp [symbolWord, hnone, ht]
  rw [parsed, mem_namesIn, Rule.mem_words_iff (by simp)]
  unfold Mentions
  cases g.rule? s with
  | none => simp
  | some r =>
    simp only [Option.getD_some, hword, Option.some.injEq]
    grind

section Parsed

variable (hroot : rootName ∈ g.nonterminals)

include hroot

/-- **A name is used exactly when root reaches its nonterminal.** -/
theorem used_iff (hs : s ∈ g.nonterminals) :
    Used g.parsedProductions (g.identifierOf rootName) (g.identifierOf s) ↔ g.Reaches s := by
  constructor
  · rintro ⟨k, hk⟩
    generalize hn : g.identifierOf s = n at hk
    -- names are led back to nonterminals step by step
    suffices hreached : ∃ t, n = g.identifierOf t ∧ g.Reaches t by
      obtain ⟨t, rfl, ht⟩ := hreached
      rwa [identifierOf_inj hs (ht.mem_nonterminals hroot) hn]
    clear hn
    induction hk with
    | start => exact ⟨rootName, rfl, 0, .start⟩
    | @step k m n _ hmn ih =>
      obtain ⟨t, rfl, ht⟩ := ih
      obtain ⟨p, hp, hname, hn⟩ := hmn
      obtain ⟨i, u, hu, rfl⟩ := mem_parsedProductions_iff.1 hp
      obtain ⟨v, huv, rfl⟩ := mem_uses_parsed_iff.1 hn
      have hmem := (mem_nonterminals_iff_place hroot).2 ⟨i, hu⟩
      obtain rfl : u = t := identifierOf_inj hmem (ht.mem_nonterminals hroot) hname
      obtain ⟨j, hj⟩ := ht
      exact ⟨v, rfl, j + 1, hj.step huv⟩
  · rintro ⟨k, hk⟩
    clear hs
    induction hk with
    | start => exact ⟨0, .start⟩
    | @step k s t hs hst ih =>
      obtain ⟨j, hj⟩ := ih
      have hmem : s ∈ g.nonterminals := Reaches.mem_nonterminals hroot ⟨k, hs⟩
      obtain ⟨i, hi⟩ := (mem_nonterminals_iff_place hroot).1 hmem
      exact ⟨j + 1, hj.step ⟨g.parsed i s, mem_parsedProductions_iff.2 ⟨i, s, hi, rfl⟩, rfl,
        mem_uses_parsed_iff.2 ⟨t, hst, rfl⟩⟩⟩

theorem wellNamed_parsedProductions :
    WellNamed g.parsedProductions (g.identifierOf rootName) := by
  have hnames : g.parsedProductions.map Production.name =
      g.productionOrder.map g.identifierOf := by
    refine List.ext_getElem? fun i => ?_
    simp [parsedProductions, List.getElem?_mapIdx, Function.comp_def, parsed]
  have hmem : ∀ {s}, s ∈ g.nonterminals → g.identifierOf s ∈ g.productionOrder.map g.identifierOf :=
    fun hs => List.mem_map_of_mem ((mem_productionOrder_iff hroot).2 hs)
  refine ⟨?_, ?_, ?_, ?_⟩
  · rw [hnames]
    refine (lists_productionOrder hroot).nodup.map_on fun s hs t ht hst => ?_
    exact identifierOf_inj ((mem_productionOrder_iff hroot).1 hs)
      ((mem_productionOrder_iff hroot).1 ht) hst
  · rw [hnames]
    exact hmem hroot
  · intro p hp n hn
    obtain ⟨i, s, -, rfl⟩ := mem_parsedProductions_iff.1 hp
    obtain ⟨t, ⟨r, e, -, -, -, ht⟩, rfl⟩ := mem_uses_parsed_iff.1 hn
    rw [hnames]
    exact hmem ht
  · intro p hp
    obtain ⟨i, s, hs, rfl⟩ := mem_parsedProductions_iff.1 hp
    exact isIdentifier_identifierOf ((mem_nonterminals_iff_place hroot).2 ⟨i, hs⟩)

theorem forall_used_iff :
    (∀ p ∈ g.parsedProductions, Used g.parsedProductions (g.identifierOf rootName) p.name) ↔
      ∀ s ∈ g.nonterminals, g.Reaches s := by
  constructor
  · intro h s hs
    obtain ⟨i, hi⟩ := (mem_nonterminals_iff_place hroot).1 hs
    exact (used_iff hroot hs).1 (h _ (mem_parsedProductions_iff.2 ⟨i, s, hi, rfl⟩))
  · intro h p hp
    obtain ⟨i, s, hi, rfl⟩ := mem_parsedProductions_iff.1 hp
    have hs := (mem_nonterminals_iff_place hroot).2 ⟨i, hi⟩
    exact (used_iff hroot hs).2 (h s hs)

theorem not_used_iff_eq (honly : ∀ t, t ∈ g.nonterminals ∧ ¬ g.Reaches t ↔ t = s) {i : Nat}
    (hi : g.productionOrder[i]? = some s) :
    ∀ q ∈ g.parsedProductions,
      ¬ Used g.parsedProductions (g.identifierOf rootName) q.name ↔ q = g.parsed i s := by
  intro q hq
  obtain ⟨j, t, hj, rfl⟩ := mem_parsedProductions_iff.1 hq
  have ht := (mem_nonterminals_iff_place hroot).2 ⟨j, hj⟩
  rw [show (g.parsed j t).name = g.identifierOf t from rfl, used_iff hroot ht]
  constructor
  · intro hunreached
    obtain rfl : t = s := (honly t).1 ⟨ht, hunreached⟩
    have hji : j = i := (List.getElem?_inj (List.getElem?_eq_some_iff.1 hj).1
      (lists_productionOrder hroot).nodup).1 (hj.trans hi.symm)
    rw [hji]
  · intro h
    have hname : g.identifierOf t = g.identifierOf s := congrArg Production.name h
    obtain rfl : t = s := identifierOf_inj ht ((honly s).2 rfl).1 hname
    exact ((honly t).2 rfl).2

end Parsed

/-! ## Verification -/

/-- **Verification by a package**: the text is parsed, and checked from root's identifier on. -/
def verifyBy (P : Package) (g : Grammar) : Except String Unit :=
  match P.parse rootName g.ebnf with
  | .error message => .error message
  | .ok ps =>
    match P.check ps (g.identifierOf rootName) with
    | some message => .error message
    | none => .ok ()

/-- **The result of an exact verification.** -/
structure Verifies (g : Grammar) (result : Except String Unit) : Prop where
  /-- It is a success exactly when root reaches every nonterminal. -/
  passes : result = .ok () ↔ ∀ s ∈ g.nonterminals, g.Reaches s
  /-- A single nonterminal that root does not reach is named by its identifier and its place. -/
  names : ∀ s, (∀ t, t ∈ g.nonterminals ∧ ¬ g.Reaches t ↔ t = s) →
    ∃ i n, g.productionOrder[i]? = some s ∧ g.identifiers.find? s = some n ∧
      result = .error ("root:" ++ toString (i + 1) ++ ":1: " ++ n ++ " is unreachable")

theorem complaint_parsed (i : Nat) (s : Symbol) : (g.parsed i s).complaint =
    "root:" ++ toString (i + 1) ++ ":1: " ++ g.identifierOf s ++ " is unreachable" := by
  have hcolumn : Nat.toDigits 10 1 = ['1'] := rfl
  simp [Production.complaint, parsed, rootName, ← String.toList_inj, hcolumn]

theorem parse_ebnf (hg : build definitions = .ok g) {P : Package} (hP : P.Conforms g) :
    P.parse rootName g.ebnf = .ok g.parsedProductions := by
  have hproper : ∀ ws ∈ g.productionOrder.map g.lineWords, ∀ w ∈ ws, w.Proper :=
    List.forall_mem_map.2 fun s _ => proper_lineWords
  rw [hP.parses _ hproper (splitOn_ebnf_eq hg), productions_eq hg]

/-- **Verification by a package that can be relied on is exact.** -/
theorem verifies_verifyBy (hg : build definitions = .ok g) {P : Package} (hP : P.Conforms g) :
    g.Verifies (g.verifyBy P) := by
  have hroot := root_mem_nonterminals hg
  have hwell := wellNamed_parsedProductions hroot
  have hparse := parse_ebnf hg hP
  constructor
  · rw [← forall_used_iff hroot, ← hP.passes _ _ hwell, verifyBy, hparse]
    dsimp only
    cases P.check g.parsedProductions (g.identifierOf rootName) <;> simp
  · intro s honly
    have hs := ((honly s).2 rfl).1
    obtain ⟨i, hi⟩ := (mem_nonterminals_iff_place hroot).1 hs
    have hp : g.parsed i s ∈ g.parsedProductions := mem_parsedProductions_iff.2 ⟨i, s, hi, rfl⟩
    refine ⟨i, _, hi, find?_identifiers hs, ?_⟩
    rw [verifyBy, hparse]
    dsimp only
    rw [hP.complains _ _ _ hwell hp (not_used_iff_eq hroot honly hi), complaint_parsed]

theorem mapError_verify_eq_ok_iff :
    g.verify.mapError ConfigurationError.message = .ok () ↔ g.verify = .ok () := by
  cases g.verify <;> simp [Except.mapError]

theorem verifies_verify (hg : build definitions = .ok g) :
    g.Verifies (g.verify.mapError ConfigurationError.message) := by
  have hroot := root_mem_nonterminals hg
  constructor
  · rw [mapError_verify_eq_ok_iff, verify_eq_ok_iff]
    exact forall₂_congr fun s _ => mem_reachable_iff hroot
  · intro s honly
    have hs := ((honly s).2 rfl).1
    have hunreachable : g.unreachable = [s] := by
      refine (g.rules.ordered.filter _).eq_of_mem_iff (List.pairwise_singleton _ s) fun t => ?_
      rw [List.mem_singleton, ← honly t]
      exact mem_unreachable_iff hroot
    refine ⟨g.reachable.length, _, ?_, find?_identifiers hs, ?_⟩
    · rw [productionOrder, hunreachable]
      simp
    · have hverify : g.verify =
          .error (.unreachable [(g.reachable.length + 1, g.identifierOf s)]) := by
        rw [verify, hunreachable]
        simp only [numberedFrom, List.map_cons, List.map_nil, ebnfSymbol, find?_identifiers hs]
      rw [hverify]
      rfl

/-- **Productions are in order, and verification is exact reachability**, by the check that is made
here and by any package that can be relied on. -/
theorem verify_exact (hg : build definitions = .ok g) :
    g.Lists g.productionOrder ∧ g.Verifies (g.verify.mapError ConfigurationError.message) ∧
      ∀ P : Package, P.Conforms g → g.Verifies (g.verifyBy P) :=
  ⟨lists_productionOrder (root_mem_nonterminals hg), verifies_verify hg,
    fun _ hP => verifies_verifyBy hg hP⟩

/-- A grammar with a nonterminal that mentions another, and is mentioned by none. -/
def orphanGrammar : Grammar where
  rules := .ofList [
    ("item", [.symbol "x"]),
    ("orphan", [.symbol "item"]),
    ("root", [.quantified .star "item", .symbol "enter"])]
  synthetic := []

/-- A package that has the text of that grammar parsed. -/
def orphanPackage : Package where
  parse _ _ := .ok [⟨"root", 1, 1, "Root", ["Item"]⟩, ⟨"root", 2, 1, "Item", []⟩,
    ⟨"root", 3, 1, "Orphan", ["Item"]⟩]
  check := checkUsed

theorem conforms_orphanPackage (hg : build definitions = .ok orphanGrammar) :
    orphanPackage.Conforms orphanGrammar where
  parses lines hproper hlines := by
    rw [lines_eq hg hproper hlines, productions_eq hg]
    rfl
  passes _ _ := passes_checkUsed
  complains _ _ _ h := complains_checkUsed h

theorem verify_exact_orphan :
    build orphanGrammar.forms = .ok orphanGrammar ∧ orphanPackage.Conforms orphanGrammar ∧
      orphanGrammar.verify.mapError ConfigurationError.message =
        .error "root:3:1: Orphan is unreachable" ∧
      orphanGrammar.verifyBy orphanPackage = .error "root:3:1: Orphan is unreachable" := by
  have hg : build orphanGrammar.forms = .ok orphanGrammar := Eq.refl (Except.ok orphanGrammar)
  have hP := conforms_orphanPackage hg
  obtain ⟨hlists, hverify, hverifyBy⟩ := verify_exact hg
  have honly : ∀ t, t ∈ orphanGrammar.nonterminals ∧ ¬ orphanGrammar.Reaches t ↔ t = "orphan" := by
    intro t
    rw [← mem_unreachable_iff (root_mem_nonterminals hg)]
    exact List.mem_singleton
  have htwo : orphanGrammar.productionOrder[2]? = some "orphan" := rfl
  have hname : orphanGrammar.identifiers.find? "orphan" = some "Orphan" := rfl
  have herror : ∀ {result}, orphanGrammar.Verifies result →
      result = .error "root:3:1: Orphan is unreachable" := by
    intro result h
    obtain ⟨i, n, hi, hn, hresult⟩ := h.names "orphan" honly
    obtain rfl : i = 2 := (List.getElem?_inj (List.getElem?_eq_some_iff.1 hi).1 hlists.nodup).1
      (hi.trans htwo.symm)
    obtain rfl : n = "Orphan" := Option.some.inj (hn.symm.trans hname)
    exact hresult
  exact ⟨hg, hP, herror hverify, herror (hverifyBy orphanPackage hP)⟩

end Grammar

end PushParser
