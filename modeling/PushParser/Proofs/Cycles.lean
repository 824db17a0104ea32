import Mathlib.Data.List.Chain
import Mathlib.Data.List.Nodup
import Mathlib.Logic.Relation
import PushParser.Proofs.Awaited
import PushParser.Proofs.Building
import PushParser.Proofs.LeftRecursion
import PushParser.Proofs.Nullable

/-!
# Left recursion is reported exactly where it is

A search for a cycle that finds one has found different symbols, each a successor of the one before
and the first a successor of the last (**`IsCycle`**). With the nullable nonterminals found exactly,
the check for left recursion refuses just those rules along which a nonterminal comes back to itself
before a token is taken.

* `visit_isCycle`, **`findCycle_isCycle`**: what a search reports is a cycle;
* `Vanishing.sweep`, **`Grammar.contains_nullable_iff`**: the nullable nonterminals are those that
  stand for the empty word;
* **`Grammar.LeftmostStep`**, `Grammar.mem_leftmost_iff`: the steps that the check follows;
* **`Grammar.Prepared`**: the rules that reach the check;
* **`Grammar.leftRecursion_reported`**: what the check says of them.
-/

namespace PushParser

/-! ## Cycles that a search meets -/

/-- **A cycle of steps**: different symbols, each a successor of the one before, and the first a
successor of the last. -/
structure IsCycle (step : Symbol → Symbol → Prop) (cycle : List Symbol) : Prop where
  nodup : cycle.Nodup
  chain : cycle.IsChain step
  closed : ∃ first last, cycle.head? = some first ∧ cycle.getLast? = some last ∧ step last first

section Search

variable {next : Symbol → List Symbol}

/-- A path that comes back to one of its symbols holds a cycle. The path is listed innermost symbol
first and the cycle the other way round. -/
theorem isCycle_of_path {path : List Symbol} {s : Symbol} (hnodup : path.Nodup)
    (hchain : (s :: path).IsChain fun t s => t ∈ next s) (hs : s ∈ path) :
    IsCycle (fun s t => t ∈ next s) (path.takeWhile (· ≠ s) ++ [s]).reverse := by
  obtain ⟨inner, outer, rfl, hnew⟩ := List.eq_append_cons_of_mem hs
  have htake : (inner ++ s :: outer).takeWhile (· ≠ s) = inner := by
    rw [List.takeWhile_append_of_pos, List.takeWhile_cons_of_neg, List.append_nil]
    · simp
    · intro t ht
      simpa using fun hts : t = s => hnew (hts ▸ ht)
  have hpath : inner ++ s :: outer = (inner ++ [s]) ++ outer := by simp
  rw [htake]
  rw [hpath] at hnodup hchain
  have hloop : (s :: (inner ++ [s])).IsChain fun t s => t ∈ next s := hchain.left_of_append
  -- the innermost symbol of the loop steps to the symbol met again
  obtain ⟨last, rest, hlast⟩ := List.exists_cons_of_ne_nil (List.concat_ne_nil s inner)
  rw [hlast, List.isChain_cons_cons] at hloop
  refine ⟨?_, ?_, s, last, ?_, ?_, hloop.1⟩
  · exact List.nodup_reverse.2 (List.nodup_append.1 hnodup).1
  · rw [hlast]
    exact List.isChain_reverse.2 hloop.2
  · simp
  · simp [hlast]

theorem exists_error_of_visitAll
    {visitOne : List Symbol → Symbol → Except (List Symbol) (List Symbol)}
    {finished targets cycle : List Symbol}
    (h : visitAll visitOne finished targets = .error cycle) :
    ∃ finished', ∃ t ∈ targets, visitOne finished' t = .error cycle := by
  induction targets generalizing finished with
  | nil => cases h
  | cons t ts ih =>
    rw [visitAll] at h
    split at h
    · next hv =>
      cases h
      exact ⟨finished, t, List.mem_cons_self, hv⟩
    · obtain ⟨finished', t', ht', hv⟩ := ih h
      exact ⟨finished', t', List.mem_cons_of_mem _ ht', hv⟩

/-- **A visit reports cycles only.** The path leads to the symbol by steps and holds no symbol
twice. -/
theorem visit_isCycle {fuel : Nat} {path finished cycle : List Symbol} {s : Symbol}
    (hnodup : path.Nodup) (hchain : (s :: path).IsChain fun t s => t ∈ next s)
    (h : visit next fuel path finished s = .error cycle) :
    IsCycle (fun s t => t ∈ next s) cycle := by
  induction fuel generalizing path finished s with
  | zero => cases h
  | succ fuel ih =>
    rw [visit] at h
    split at h
    · next hs =>
      cases h
      exact isCycle_of_path hnodup hchain hs
    · next hs =>
      split at h
      · cases h
      · split at h
        · next hall =>
          cases h
          obtain ⟨finished', t, ht, hv⟩ := exists_error_of_visitAll hall
          exact ih (List.nodup_cons.2 ⟨hs, hnodup⟩) (List.isChain_cons_cons.2 ⟨ht, hchain⟩) hv
        · cases h

/-- **A search reports cycles only.** -/
theorem findCycle_isCycle {symbols cycle : List Symbol}
    (h : findCycle next symbols = some cycle) : IsCycle (fun s t => t ∈ next s) cycle := by
  rw [findCycle] at h
  split at h
  · next hall =>
    cases h
    obtain ⟨finished, t, -, hv⟩ := exists_error_of_visitAll hall
    exact visit_isCycle .nil (.singleton t) hv
  · cases h

end Search

theorem IsCycle.exists_transGen {step : Symbol → Symbol → Prop} {cycle : List Symbol}
    (h : IsCycle step cycle) : ∃ s, Relation.TransGen step s s := by
  obtain ⟨first, last, hfirst, hlast, hstep⟩ := h.closed
  cases cycle with
  | nil => cases hfirst
  | cons a rest =>
    cases hfirst
    rw [List.getLast?_eq_some_getLast (List.cons_ne_nil first rest), Option.some.injEq] at hlast
    exact ⟨first,
      .tail' (List.relationReflTransGen_of_exists_isChain_cons rest h.chain hlast) hstep⟩

/-! ## Nullable nonterminals -/

namespace Grammar

variable {g : Grammar} {empty : NameSet}

/-- Every name of the set stands for the empty word. -/
def Vanishing (g : Grammar) (empty : NameSet) : Prop := ∀ s ∈ empty.keys, g.Yields [.symbol s] []

theorem Vanishing.yields_element (h : g.Vanishing empty) {e : Element}
    (he : e.nullableIn empty = true) : g.Yields [e] [] := by
  rw [Element.nullableIn, Bool.or_eq_true, List.any_eq_true] at he
  rcases he with he | ⟨s, hs, hc⟩
  · rcases e with s | ⟨_ | _ | _, s⟩ | ss
    · cases he
    · exact .never rfl .nil
    · cases he
    · exact .never rfl .nil
    · cases he
  · have hempty := h s (NameMap.contains_iff.1 hc)
    have hpending : g.Yields [e.pending true] [] := yields_pending_nil hs hempty
    simpa using hpending

theorem Vanishing.yields_rule (h : g.Vanishing empty) {r : Rule}
    (hr : Rule.nullableIn empty r = true) : g.Yields r [] := by
  induction r with
  | nil => exact .nil
  | cons e es ih =>
    obtain ⟨he, hes⟩ := nullableIn_cons.1 hr
    exact (h.yields_element he).append (ih hes)

theorem Vanishing.sweep (h : g.Vanishing empty) {es : List (Symbol × Rule)}
    (hes : es ⊆ g.rules.entries) : g.Vanishing (sweep empty es) := by
  induction es generalizing empty with
  | nil => exact h
  | cons e es ih =>
    obtain ⟨he, hes⟩ := List.cons_subset.1 hes
    rw [PushParser.sweep]
    split
    · exact ih h hes
    · split
      · next hr =>
        refine ih (fun s hs => ?_) hes
        rcases NameMap.mem_keys_insert.1 hs with rfl | hs
        · exact (yields_symbol_iff (NameMap.find?_eq_some_iff.2 he)).2 (h.yields_rule hr)
        · exact h s hs
      · exact ih h hes

theorem Vanishing.sweeps (h : g.Vanishing empty) {es : List (Symbol × Rule)}
    (hes : es ⊆ g.rules.entries) (fuel : Nat) : g.Vanishing (sweeps es fuel empty) := by
  induction fuel generalizing empty with
  | zero => exact h
  | succ fuel ih =>
    rw [PushParser.sweeps]
    split
    · exact h
    · exact ih (h.sweep hes)

theorem vanishing_nullable : g.Vanishing g.nullable := by
  refine Vanishing.sweeps (fun s hs => ?_) (List.Subset.refl _) _
  cases hs

/-- **The nullable nonterminals are those that stand for the empty word.** -/
theorem contains_nullable_iff {s : Symbol} :
    g.nullable.contains s = true ↔ g.Yields [.symbol s] [] :=
  ⟨fun h => vanishing_nullable s (NameMap.contains_iff.1 h), contains_nullable_of_yields⟩

theorem nullableIn_iff {e : Element} : e.nullableIn g.nullable = true ↔ g.Yields [e] [] :=
  ⟨vanishing_nullable.yields_element, fun h => (nullableIn_cons.1 (nullableIn_of_yields h)).1⟩

/-! ## Leftmost steps -/

/-- **A leftmost step** from `s` leads to an operand of an element of its rule, where all elements
before that one stand for the empty word and the operand has a rule itself. -/
def LeftmostStep (g : Grammar) (s t : Symbol) : Prop :=
  g.isNonterminal t = true ∧ ∃ before e es, g.rule? s = some (before ++ e :: es) ∧
    (∀ d ∈ before, g.Yields [d] []) ∧ t ∈ e.operands

theorem mem_leftmostIn_iff {r : Rule} {t : Symbol} : t ∈ g.leftmostIn empty r ↔
    g.isNonterminal t = true ∧ ∃ before e es, r = before ++ e :: es ∧
      (∀ d ∈ before, d.nullableIn empty = true) ∧ t ∈ e.operands := by
  induction r with
  | nil => simp [leftmostIn]
  | cons e es ih =>
    rw [leftmostIn, List.mem_append, List.mem_filter]
    constructor
    · rintro (⟨ht, hrule⟩ | ht)
      · exact ⟨hrule, [], e, es, rfl, List.forall_mem_nil _, ht⟩
      · split at ht
        · next he =>
          obtain ⟨hrule, before, d, ds, rfl, hbefore, hd⟩ := ih.1 ht
          exact ⟨hrule, e :: before, d, ds, rfl, List.forall_mem_cons.2 ⟨he, hbefore⟩, hd⟩
        · cases ht
    · rintro ⟨hrule, before, d, ds, hr, hbefore, hd⟩
      rcases List.cons_eq_append_iff.1 hr with ⟨rfl, hcons⟩ | ⟨before', rfl, rfl⟩
      · cases hcons
        exact .inl ⟨hd, hrule⟩
      · obtain ⟨he, hbefore'⟩ := List.forall_mem_cons.1 hbefore
        rw [if_pos he]
        exact .inr (ih.2 ⟨hrule, before', d, ds, rfl, hbefore', hd⟩)

/-- **The check follows leftmost steps.** -/
theorem mem_leftmost_iff {s t : Symbol} : t ∈ g.leftmost s ↔ g.LeftmostStep s t := by
  cases hs : g.rule? s with
  | none => simp [leftmost, leftmostWith, LeftmostStep, hs]
  | some r =>
    rw [leftmost_of_rule hs, mem_leftmostIn_iff, LeftmostStep]
    simp only [nullableIn_iff, hs, Option.some.injEq]

/-- **The check finds a cycle exactly if there is one.** -/
theorem leftRecursion?_eq_none_iff :
    g.leftRecursion? = none ↔ ¬ ∃ s, Relation.TransGen g.LeftmostStep s s := by
  have hstep : (fun s t => t ∈ g.leftmost s) = g.LeftmostStep := by
    funext s t
    exact propext mem_leftmost_iff
  constructor
  · rintro hnone ⟨s, hs⟩
    rw [← hstep] at hs
    exact (wellFounded_leftmost hnone).transGen.irrefl.irrefl s hs.swap
  · intro hacyclic
    cases hfound : g.leftRecursion? with
    | none => rfl
    | some cycle =>
      rw [leftRecursion?_eq] at hfound
      have hcycle := findCycle_isCycle hfound
      rw [hstep] at hcycle
      exact absurd hcycle.exists_transGen hacyclic

theorem isCycle_of_leftRecursion? {cycle : List Symbol} (h : g.leftRecursion? = some cycle) :
    IsCycle g.LeftmostStep cycle := by
  rw [leftRecursion?_eq] at h
  have hcycle := findCycle_isCycle h
  simpa only [mem_leftmost_iff] using hcycle

/-! ## What is reported -/

/-- **The rules that reach the check for left recursion**: root is defined, every definition passes
its checks, none is the empty sequence, and groups have been named. -/
def Prepared (definitions : NameMap Form) (g : Grammar) : Prop :=
  ∃ drafts, definitions.contains rootName = true ∧
    definitions.mapM (fun lhs f => f.draftRule.mapError (ConfigurationError.inRule lhs)) =
      .ok drafts ∧
    checkEmpty drafts.entries = .ok () ∧ g = expandRules drafts

theorem build_of_prepared {definitions : NameMap Form} (h : Prepared definitions g) :
    build definitions = g.checkLeftRecursion.map fun _ => g := by
  obtain ⟨drafts, hroot, hdrafts, hempty, rfl⟩ := h
  rw [build, NameMap.isEmpty_entries_of_contains hroot, hroot]
  simp only [Bool.false_eq_true, if_false, Bool.not_true, hdrafts, hempty]
  cases (expandRules drafts).checkLeftRecursion <;> rfl

theorem message_leftRecursion (report : List (Symbol × String)) :
    (ConfigurationError.leftRecursion report).message =
      "left recursion detected on\n\n" ++ "\n".intercalate (report.map fun p => "  " ++ p.2) := by
  have hcontext : ∀ m, inContext "" m = m := by
    intro m
    simp [inContext]
  exact hcontext _

/-- Rules that reach the check are refused for a cycle, or they are the grammar that is built. -/
theorem build_of_prepared_cases {definitions : NameMap Form} (h : Prepared definitions g) :
    (¬ ∃ s, Relation.TransGen g.LeftmostStep s s) ∧ build definitions = .ok g ∨
      ∃ cycle, IsCycle g.LeftmostStep cycle ∧ build definitions =
        .error (.leftRecursion (cycle.map fun s => (s, g.production s))) := by
  have hbuild := build_of_prepared h
  cases hfound : g.leftRecursion? with
  | none =>
    rw [checkLeftRecursion, hfound] at hbuild
    exact .inl ⟨leftRecursion?_eq_none_iff.1 hfound, hbuild⟩
  | some cycle =>
    rw [checkLeftRecursion, hfound] at hbuild
    exact .inr ⟨cycle, isCycle_of_leftRecursion? hfound, hbuild⟩

/-- **Left recursion is reported exactly where it is.** Rules that reach the check are refused for
left recursion exactly if some nonterminal comes back to itself by leftmost steps, and for nothing
else; what is reported are the productions of a cycle of such steps. Otherwise they are the grammar
that is built. -/
theorem leftRecursion_reported {definitions : NameMap Form} (h : Prepared definitions g) :
    ((∃ report, build definitions = .error (.leftRecursion report)) ↔
        ∃ s, Relation.TransGen g.LeftmostStep s s) ∧
      (∀ e, build definitions = .error e → ∃ cycle, IsCycle g.LeftmostStep cycle ∧
        e = .leftRecursion (cycle.map fun s => (s, g.production s)) ∧
        e.message = "left recursion detected on\n\n" ++
          "\n".intercalate (cycle.map fun s => "  " ++ g.production s)) ∧
      ((¬ ∃ s, Relation.TransGen g.LeftmostStep s s) → build definitions = .ok g) := by
  rcases build_of_prepared_cases h with ⟨hacyclic, hok⟩ | ⟨cycle, hcycle, herror⟩
  · rw [hok]
    refine ⟨⟨fun ⟨_, hreport⟩ => (nomatch hreport), fun hcycle => absurd hcycle hacyclic⟩, ?_,
      fun _ => rfl⟩
    intro e he
    cases he
  · rw [herror]
    refine ⟨⟨fun _ => hcycle.exists_transGen, fun _ => ⟨_, rfl⟩⟩, ?_,
      fun hacyclic => absurd hcycle.exists_transGen hacyclic⟩
    intro e he
    cases he
    refine ⟨cycle, hcycle, rfl, ?_⟩
    rw [message_leftRecursion, List.map_map]
    rfl

/-! ## A cycle behind what stands for the empty word -/

/-- The definitions of `A` and `B`, each of which begins with the other. What comes before `B` in
`A` can match nothing. -/
def loopForms : NameMap Form := .ofList [
  ("root", .name "A"),
  ("A", .sequence [.name "Empty", Form.apply (.quantifier .star) ["x", "y"], .name "B"]),
  ("B", .names ["A", "y"]),
  ("Empty", Form.apply (.quantifier .opt) ["e"])]

/-- The rules that these definitions come to. -/
def loopGrammar : Grammar where
  rules := .ofList [
    ("root", [.symbol "A"]),
    ("A", [.symbol "Empty", .quantified .star "A@1", .symbol "B"]),
    ("A@1", [.symbol "x", .symbol "y"]),
    ("B", [.symbol "A", .symbol "y"]),
    ("Empty", [.quantified .opt "e"])]
  synthetic := ["A@1"]

/-- The drafts of these definitions. -/
def loopDrafts : NameMap (List Draft) := .ofList [
  ("root", [.element (.symbol "A")]),
  ("A", [.element (.symbol "Empty"), .group .star ["x", "y"], .element (.symbol "B")]),
  ("B", [.element (.symbol "A"), .element (.symbol "y")]),
  ("Empty", [.element (.quantified .opt "e")])]

theorem prepared_loopForms : Prepared loopForms loopGrammar :=
  ⟨loopDrafts, rfl, Eq.refl (Except.ok loopDrafts), rfl, Eq.refl loopGrammar⟩

theorem loopGrammar_steps :
    loopGrammar.LeftmostStep "A" "B" ∧ loopGrammar.LeftmostStep "B" "A" := by
  have hempty : loopGrammar.Yields [.symbol "Empty"] [] := .rule rfl (.never rfl .nil)
  have hstar : loopGrammar.Yields [.quantified .star "A@1"] [] := .never rfl .nil
  refine ⟨⟨rfl, [.symbol "Empty", .quantified .star "A@1"], .symbol "B", [], rfl, ?_, by decide⟩,
    ⟨rfl, [], .symbol "A", [.symbol "y"], rfl, List.forall_mem_nil _, by decide⟩⟩
  exact List.forall_mem_cons.2 ⟨hempty, List.forall_mem_singleton.2 hstar⟩

theorem leftRecursion_reported_loop : Prepared loopForms loopGrammar ∧
    (∃ report, build loopForms = .error (.leftRecursion report)) ∧
    ∀ e, build loopForms = .error e → ∃ cycle, IsCycle loopGrammar.LeftmostStep cycle ∧
      e = .leftRecursion (cycle.map fun s => (s, loopGrammar.production s)) ∧
      e.message = "left recursion detected on\n\n" ++
        "\n".intercalate (cycle.map fun s => "  " ++ loopGrammar.production s) :=
  have h := leftRecursion_reported prepared_loopForms
  ⟨prepared_loopForms, h.1.2 ⟨"A", .tail (.single loopGrammar_steps.1) loopGrammar_steps.2⟩, h.2.1⟩

end Grammar

end PushParser
