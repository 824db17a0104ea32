import Mathlib.Data.List.Sort
import PushParser.Proofs.Building
import PushParser.Proofs.Prediction

/-!
# Queries in any order

A grammar keeps the first sets that it has worked out, and parsers that share it ask for them in
whatever order their tokens call for. The sets kept are exact at all times, so no reply depends on
what was asked before.

* `FirstQuery`, `FirstReply`: what is asked, by hand or by a parser that predicts, and the replies;
* `FirstMemory`: a grammar with the sets it has kept, and `FirstMemory.replies`: one query after the
  other;
* **`FirstReply.Answers`**: what a reply should say, going by `Grammar.Heads` alone;
* `FirstMemory.Sound`, **`FirstMemory.reply_sound`**: one query, and what it leaves behind;
* **`FirstMemory.replies_independent`**: any number of queries.
-/

namespace PushParser

variable {g : Grammar}

/-! ## Queries and replies -/

/-- **A query for first sets.** -/
inductive FirstQuery where
  | first (s : Symbol)
  | isFirst (terminal s : Symbol)
  /-- What a parser that predicts asks at a choice: the order in which to try the options. -/
  | order (tag : Symbol) (options : List Symbol)

/-- **The reply to a query.** -/
inductive FirstReply where
  | symbols (symbols : List Symbol)
  | verdict (isFirst : Bool)
  | order (options : List (Nat × Symbol))
  deriving DecidableEq

/-- The reply of a grammar that has kept nothing, and of its engine. -/
def Grammar.reply (g : Grammar) : FirstQuery → FirstReply
  | .first s => .symbols (g.first s)
  | .isFirst terminal s => .verdict (g.isFirst terminal s)
  | .order tag options => .order ((g.engine true).trialOrder tag options)

/-- **A grammar with the first sets it has kept.** -/
structure FirstMemory where
  grammar : Grammar
  known : FirstTable
  /-- Some search met a symbol that it was still working on, and took its set to be empty. -/
  cut : Bool

namespace FirstMemory

/-- Nothing is known at first. -/
def start (g : Grammar) : FirstMemory := ⟨g, .empty, false⟩

/-- The first set of a symbol, kept from then on. -/
def look (m : FirstMemory) (s : Symbol) : NameSet × FirstMemory :=
  let a := m.grammar.firstWith m.known s
  (a.set, { m with known := a.table, cut := m.cut || a.cut })

/-- Numbered options, those whose first set holds the tag apart from the others. Each is looked up
in its turn. -/
def divide (m : FirstMemory) (tag : Symbol) :
    List (Nat × Symbol) → (List (Nat × Symbol) × List (Nat × Symbol)) × FirstMemory
  | [] => (([], []), m)
  | o :: os =>
    let set := m.look o.2
    let rest := set.2.divide tag os
    if set.1.contains tag then ((o :: rest.1.1, rest.1.2), rest.2)
    else ((rest.1.1, o :: rest.1.2), rest.2)

/-- **One query.** -/
def reply (m : FirstMemory) : FirstQuery → FirstReply × FirstMemory
  | .first s => (.symbols (m.look s).1.keys, (m.look s).2)
  | .isFirst terminal s => (.verdict ((m.look s).1.contains terminal), (m.look s).2)
  | .order tag options =>
    let parts := m.divide tag (numberFrom 0 options)
    (.order (parts.1.1 ++ parts.1.2), parts.2)

/-- **One query after the other.** -/
def replies (m : FirstMemory) : List FirstQuery → List FirstReply × FirstMemory
  | [] => ([], m)
  | q :: qs =>
    let rest := (m.reply q).2.replies qs
    ((m.reply q).1 :: rest.1, rest.2)

end FirstMemory

/-! ## What a reply should say -/

/-- **A reply answers a query**: it goes by what begins a symbol, and lists it sorted and without
repetition. -/
inductive FirstReply.Answers (g : Grammar) : FirstQuery → FirstReply → Prop
  | first {s : Symbol} {symbols : List Symbol} (sorted : symbols.Pairwise (· < ·))
      (mem : ∀ x, x ∈ symbols ↔ g.Heads s x) : Answers g (.first s) (.symbols symbols)
  | isFirst {terminal s : Symbol} {b : Bool} (mem : b = true ↔ g.Heads s terminal) :
      Answers g (.isFirst terminal s) (.verdict b)
  | order {tag : Symbol} {options : List Symbol} {fits : Symbol → Bool}
      (mem : ∀ s, fits s = true ↔ g.Heads s tag) :
      Answers g (.order tag options)
        (.order ((numberFrom 0 options).filter (fun o => fits o.2) ++
          (numberFrom 0 options).filter fun o => !fits o.2))

theorem FirstReply.Answers.unique {q : FirstQuery} {a b : FirstReply} (ha : a.Answers g q)
    (hb : b.Answers g q) : a = b := by
  cases ha with
  | first hl hmem =>
    cases hb with
    | first hl' hmem' =>
      rw [hl.eq_of_mem_iff hl' fun x => (hmem x).trans (hmem' x).symm]
  | isFirst hmem =>
    cases hb with
    | isFirst hmem' => rw [Bool.eq_iff_iff.2 (hmem.trans hmem'.symm)]
  | @order tag options fits hmem =>
    cases hb with
    | @order _ _ fits' hmem' =>
      have hfits : fits = fits' :=
        funext fun s => Bool.eq_iff_iff.2 ((hmem s).trans (hmem' s).symm)
      rw [hfits]

theorem Grammar.reply_answers (hg : g.leftRecursion? = none) (q : FirstQuery) :
    (g.reply q).Answers g q := by
  cases q with
  | first s =>
    exact .first (g.firstWith .empty s).set.ordered fun x => mem_first_iff hg
  | isFirst terminal s => exact .isFirst (NameMap.contains_iff.trans (mem_first_iff hg))
  | order tag options =>
    rw [reply, trialOrder_engine_true]
    exact .order fun s => holds_firstTable_iff hg

/-! ## Replies from memory -/

namespace FirstMemory

variable {m : FirstMemory}

/-- **What every query keeps up**: the grammar is the same, what is known is exact, and no search
met a symbol that it was working on. -/
structure Sound (g : Grammar) (m : FirstMemory) : Prop where
  grammar : m.grammar = g
  known : m.known.Exact g
  uncut : m.cut = false

theorem start_sound (g : Grammar) : (start g).Sound g := ⟨rfl, Grammar.exact_empty, rfl⟩

theorem look_sound (hg : g.leftRecursion? = none) (hm : m.Sound g) (s : Symbol) :
    (∀ x, x ∈ (m.look s).1.keys ↔ g.Heads s x) ∧ (m.look s).2.Sound g := by
  obtain ⟨rfl, hknown, huncut⟩ := hm
  obtain ⟨ha, -⟩ := Grammar.firstWith_exact hg hknown s
  refine ⟨ha.mem, rfl, ha.table, ?_⟩
  rw [look, huncut, ha.uncut, Bool.or_self]

theorem divide_sound (hg : g.leftRecursion? = none) (hm : m.Sound g) {tag : Symbol}
    {fits : Symbol → Bool} (hfits : ∀ s, fits s = true ↔ g.Heads s tag)
    (os : List (Nat × Symbol)) :
    (m.divide tag os).1 = (os.filter (fun o => fits o.2), os.filter fun o => !fits o.2) ∧
      (m.divide tag os).2.Sound g := by
  induction os generalizing m with
  | nil => exact ⟨rfl, hm⟩
  | cons o os ih =>
    obtain ⟨hset, hm'⟩ := look_sound hg hm o.2
    obtain ⟨hrest, hm''⟩ := ih hm'
    have hcontains : (m.look o.2).1.contains tag = fits o.2 := by
      rw [Bool.eq_iff_iff, NameMap.contains_iff, hset, hfits]
    rw [divide, hcontains, hrest]
    cases ho : fits o.2 with
    | true => exact ⟨by simp [ho], hm''⟩
    | false => exact ⟨by simp [ho], hm''⟩

/-- **One query** is answered, and leaves what is known exact. -/
theorem reply_sound (hg : g.leftRecursion? = none) (hm : m.Sound g) (q : FirstQuery) :
    (m.reply q).1.Answers g q ∧ (m.reply q).2.Sound g := by
  cases q with
  | first s =>
    obtain ⟨hset, hm'⟩ := look_sound hg hm s
    exact ⟨.first (m.look s).1.ordered hset, hm'⟩
  | isFirst terminal s =>
    obtain ⟨hset, hm'⟩ := look_sound hg hm s
    exact ⟨.isFirst (NameMap.contains_iff.trans (hset terminal)), hm'⟩
  | order tag options =>
    have hfits : ∀ s, g.firstTable.holds tag s = true ↔ g.Heads s tag :=
      fun s => Grammar.holds_firstTable_iff hg
    obtain ⟨hparts, hm'⟩ := divide_sound hg hm hfits (numberFrom 0 options)
    refine ⟨?_, hm'⟩
    rw [reply]
    dsimp only
    rw [hparts]
    exact .order hfits

theorem replies_sound (hg : g.leftRecursion? = none) (hm : m.Sound g) (qs : List FirstQuery) :
    List.Forall₂ (FirstReply.Answers g) qs (m.replies qs).1 ∧
      (m.replies qs).2.Sound g := by
  induction qs generalizing m with
  | nil => exact ⟨.nil, hm⟩
  | cons q qs ih =>
    obtain ⟨hq, hm'⟩ := reply_sound hg hm q
    obtain ⟨hqs, hm''⟩ := ih hm'
    exact ⟨.cons hq hqs, hm''⟩

/-- **Replies do not depend on what was asked before.** In a grammar that was built, whatever the
queries and their order, each reply is the answer that the grammar gives without a memory; no search
meets a symbol that it is working on, and the rules stay as they are. -/
theorem replies_independent {definitions : NameMap Form} (hg : Grammar.build definitions = .ok g)
    (qs : List FirstQuery) :
    List.Forall₂ (FirstReply.Answers g) qs ((start g).replies qs).1 ∧
      ((start g).replies qs).1 = qs.map g.reply ∧
      ((start g).replies qs).2.cut = false ∧ ((start g).replies qs).2.grammar = g := by
  have hnone := Grammar.leftRecursion?_of_build hg
  obtain ⟨hanswers, hsound⟩ := replies_sound hnone (start_sound g) qs
  refine ⟨hanswers, ?_, hsound.uncut, hsound.grammar⟩
  have heq : List.Forall₂ (fun q a => a = g.reply q) qs ((start g).replies qs).1 :=
    hanswers.imp fun q a ha => ha.unique (Grammar.reply_answers hnone q)
  exact List.forall₂_eq_eq_eq ▸ List.forall₂_map_right_iff.2 heq.flip

/-- The options of root are looked up first, with root's own set after them and once more from what
was kept. -/
theorem replies_independent_gapped :
    Grammar.build Parser.gappedForms = .ok Parser.gappedGrammar ∧
      ((start Parser.gappedGrammar).replies
        [.order "x" ["gap", "word"], .first "root", .isFirst "y" "word", .first "root"]).1 =
      [.order [(1, "word"), (0, "gap")], .symbols ["blank", "x"], .verdict false,
        .symbols ["blank", "x"]] := by
  have hreplies := (replies_independent Parser.build_gappedForms
    [.order "x" ["gap", "word"], .first "root", .isFirst "y" "word", .first "root"]).2.1
  exact ⟨Parser.build_gappedForms, hreplies.trans (by decide +kernel)⟩

end FirstMemory

end PushParser
