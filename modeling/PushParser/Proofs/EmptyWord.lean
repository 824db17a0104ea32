import PushParser.Proofs.Acceptance
import PushParser.Proofs.Termination

/-!
# Matching nothing

A nonterminal is nullable when it stands for the empty word. Sweeping over the rules finds just
these, whatever order each sweep visits the rules in, and so does entering a nonterminal: one that
completes without the token is nullable, and one that fails is not.

* `sweptBy`: the names found by sweeps that each have an order of their own;
* `exists_sweptBy_succ_eq`, **`Grammar.sweptBy_eq_nullable`**: a sweep comes that adds nothing, and
  what was found before it are the nullable nonterminals;
* `resolve_ne_fail_of_operand`, **`step_ne_failed`**: a frame that waits for what stands for the
  empty word does not fail;
* **`Grammar.nullable_exact`**: the rules, the sweeps and the engine agree.
-/

namespace PushParser

variable {α : Type}

/-! ## Sweeps in any order -/

/-- The names found after `n` sweeps, of which the sweep `i` visits the rules as `orders i` lists
them. -/
def sweptBy (orders : Nat → List (Symbol × Rule)) : (n : Nat) → NameSet
  | 0 => .empty
  | n + 1 => sweep (sweptBy orders n) (orders n)

section Orders

variable {empty : NameSet} {es : List (Symbol × Rule)} {orders : Nat → List (Symbol × Rule)}
  {n : Nat}

theorem NameSet.ext_keys {a b : NameSet} (hab : a.keys ⊆ b.keys) (hba : b.keys ⊆ a.keys) :
    a = b := by
  refine NameMap.ext_find? fun k => Option.ext fun _ => ⟨fun ha => ?_, fun hb => ?_⟩
  · exact (NameMap.mem_keys_iff.1 (hab (NameMap.mem_keys_iff.2 ⟨_, ha⟩))).choose_spec
  · exact (NameMap.mem_keys_iff.1 (hba (NameMap.mem_keys_iff.2 ⟨_, hb⟩))).choose_spec

theorem size_lt_of_sweep_ne (h : sweep empty es ≠ empty) : empty.size < (sweep empty es).size := by
  have hgrow := keys_subset_sweep empty es
  refine Nat.lt_of_not_le fun hle => h (NameSet.ext_keys ?_ hgrow)
  refine NameMap.subset_of_length_le hgrow ?_
  rw [NameMap.length_keys]
  exact hle

theorem le_size_sweptBy (h : ∀ i < n, sweptBy orders (i + 1) ≠ sweptBy orders i) :
    n ≤ (sweptBy orders n).size := by
  induction n with
  | zero => exact Nat.zero_le _
  | succ n ih =>
    have hle := ih fun i hi => h i (Nat.lt_succ_of_lt hi)
    exact Nat.lt_of_le_of_lt hle (size_lt_of_sweep_ne (h n (Nat.lt_succ_self n)))

theorem sweptBy_subset {l : List Symbol} (h : ∀ n, (orders n).map Prod.fst ⊆ l) (n : Nat) :
    (sweptBy orders n).keys ⊆ l := by
  induction n with
  | zero =>
    intro s hs
    cases hs
  | succ n ih => exact sweep_subset (h n) ih

/-- **A sweep comes that adds nothing**, after no more sweeps than there are rules. -/
theorem exists_sweptBy_succ_eq (horders : ∀ n, (orders n).Perm es) :
    ∃ n ≤ es.length, sweptBy orders (n + 1) = sweptBy orders n := by
  by_contra hnone
  have hmany : es.length + 1 ≤ (sweptBy orders (es.length + 1)).size :=
    le_size_sweptBy fun i hi heq => hnone ⟨i, Nat.le_of_lt_succ hi, heq⟩
  have hfew : (sweptBy orders (es.length + 1)).size ≤ (es.map Prod.fst).length :=
    NameMap.size_le_of_subset (sweptBy_subset (fun n => ((horders n).map Prod.fst).subset) _)
  rw [List.length_map] at hfew
  omega

end Orders

namespace Grammar

variable {g : Grammar} {empty : NameSet} {orders : Nat → List (Symbol × Rule)} {n : Nat}

/-- A closed set of names that stand for the empty word holds all that do. -/
theorem eq_nullable (hvanishing : g.Vanishing empty) (hclosed : Closed g.rules.entries empty) :
    empty = g.nullable := by
  refine NameSet.ext_keys (fun s hs => ?_) fun s hs => ?_
  · exact NameMap.contains_iff.1 (contains_nullable_of_yields (hvanishing s hs))
  · have hnullable := nullableIn_of_closed hclosed (vanishing_nullable s hs)
    exact NameMap.contains_iff.1 (contains_of_nullableIn (nullableIn_cons.1 hnullable).1)

theorem vanishing_sweptBy (horders : ∀ n, (orders n).Perm g.rules.entries) (n : Nat) :
    g.Vanishing (sweptBy orders n) := by
  induction n with
  | zero =>
    intro s hs
    cases hs
  | succ n ih => exact ih.sweep (horders n).subset

/-- **What was found before a sweep that adds nothing are the nullable nonterminals.** -/
theorem sweptBy_eq_nullable (horders : ∀ n, (orders n).Perm g.rules.entries)
    (h : sweptBy orders (n + 1) = sweptBy orders n) : sweptBy orders n = g.nullable := by
  refine eq_nullable (vanishing_sweptBy horders n) fun e he hr => ?_
  rw [← h]
  exact mem_sweep ((horders n).mem_iff.2 he) hr

end Grammar

/-! ## Frames that do not fail -/

section Frames

variable {E : Engine} {blank : α} {tag s : Symbol} {q : Quantifier} {first : Bool}

theorem Attempt.after_ne_failed {a : Attempt α} (h : a ≠ .failed) (before : Tape) :
    a.after before ≠ .failed := by
  cases a with
  | failed => exact absurd rfl h
  | shifted | completed | exhausted => simp [after]

theorem Quantifier.demands_eq_false (h : q.admitsEmpty first = false) :
    q.demands first = false := by
  cases q with
  | star => rfl
  | plus => exact h
  | opt => rfl

theorem passOver_ne_fail (hq : q.demands first = false) :
    (passOver E q first s : Move α) ≠ .fail := by
  rw [passOver, if_neg (by rw [hq]; exact Bool.false_ne_true)]
  simp

/-- Nothing fails but what is made of a symbol that matches nothing or refuses the token. -/
theorem Meeting.move_ne_fail {m : Meeting α} {here : Tape} {mark : Tape → Tape}
    {nothing : Tape → Move α} {refused : Move α} (hnothing : ∀ tape, nothing tape ≠ .fail)
    (hrefused : m = .refused → refused ≠ .fail) : m.move here mark nothing refused ≠ .fail := by
  cases m with
  | here | inside | exhausted => simp [move]
  | nothing tape => exact hnothing tape
  | refused => exact hrefused rfl

variable {meeting : Symbol → Meeting α}

theorem choose_ne_fail {os : List (Nat × Symbol)} (hmem : ∃ i, (i, s) ∈ os)
    (hs : meeting s ≠ .refused) : choose meeting os ≠ .fail := by
  induction os with
  | nil =>
    obtain ⟨i, hi⟩ := hmem
    cases hi
  | cons o os ih =>
    rw [choose_cons]
    refine Meeting.move_ne_fail (fun tape => by simp) fun hm => ih ?_
    obtain ⟨i, hi⟩ := hmem
    rcases List.mem_cons.1 hi with rfl | hi
    · exact absurd hm hs
    · exact ⟨i, hi⟩

theorem resolve_quantified_ne_fail (h : meeting s = .refused → q.demands first = false) :
    resolve E tag meeting first (.quantified q s) ≠ .fail := by
  rw [resolve_quantified]
  refine Meeting.move_ne_fail (fun tape => ?_) fun hm => passOver_ne_fail (h hm)
  split
  · simp
  · next hq =>
    rw [Bool.not_eq_true] at hq
    exact passOver_ne_fail (Quantifier.demands_eq_false hq)

theorem resolve_ne_fail_of_operand {e : Element} (hmem : s ∈ e.operands)
    (hs : meeting s ≠ .refused) : resolve E tag meeting first e ≠ .fail := by
  cases e with
  | choice options => exact choose_ne_fail (mem_trialOrder hmem) hs
  | symbol x =>
    obtain rfl := List.mem_singleton.1 hmem
    rw [resolve_symbol]
    exact Meeting.move_ne_fail (fun tape => by simp) fun hm => absurd hm hs
  | quantified q x =>
    obtain rfl := List.mem_singleton.1 hmem
    exact resolve_quantified_ne_fail fun hm => absurd hm hs

theorem meet_ne_refused {enter : Frame α → Attempt α}
    (henter : ∀ r, E.rule? s = some r → E.grammar.Yields r [] → enter (.start s r) ≠ .failed)
    (h : E.grammar.Yields [.symbol s] []) : meet E enter tag s ≠ .refused := by
  intro hm
  have hsound := meet_sound E tag enter s
  rw [hm] at hsound
  rcases hsound with ⟨hn, -⟩ | ⟨r, hr, hfailed⟩
  · obtain ⟨v, hv, -⟩ := (Grammar.yields_terminal_iff hn).1 h
    cases hv
  · exact henter r hr ((Grammar.yields_symbol_iff hr).1 h) hfailed

variable (blank tag) in
/-- **A frame that waits for what stands for the empty word does not fail**, whatever the token. -/
theorem step_ne_failed (fuel : Nat) {f : Frame α} (below : List (Frame α))
    (hf : f.WellFormed E.grammar Anything) (h : E.grammar.Yields f.remaining []) :
    step E blank tag fuel f below ≠ .failed := by
  induction fuel generalizing f below with
  | zero => simp [step]
  | succ fuel ih =>
    rw [step]
    cases htodo : f.todo with
    | nil => simp
    | cons e es =>
      have hsound :=
        resolve_sound E tag f.lhs (fun k => step E blank tag fuel k (f :: below)) f.isBare e
      have hmeet : ∀ s, E.grammar.Yields [.symbol s] [] →
          meet E (fun k => step E blank tag fuel k (f :: below)) tag s ≠ .refused := by
        intro s hs
        refine meet_ne_refused (fun r hr hword => ?_) hs
        refine ih (f :: below) (Frame.wellFormed_start hr) ?_
        rw [Frame.remaining_start]
        exact hword
      rw [Frame.remaining_of_cons htodo] at h
      obtain ⟨-, hes⟩ := Grammar.yields_append_nil_iff.1 (List.singleton_append ▸ h)
      have hmove : resolve E tag (meet E (fun k => step E blank tag fuel k (f :: below)) tag)
          f.isBare e ≠ .fail := by
        rcases Grammar.yields_pending_iff.1 h with ⟨s, hs, hword⟩ | ⟨q, s, rfl, hq, -⟩
        · rw [← List.singleton_append] at hword
          exact resolve_ne_fail_of_operand hs
            (hmeet s (Grammar.yields_append_nil_iff.1 hword).1)
        · exact resolve_quantified_ne_fail fun _ => hq
      dsimp only
      cases hres : resolve E tag (meet E (fun k => step E blank tag fuel k (f :: below)) tag)
          f.isBare e with
      | fail => exact absurd hres hmove
      | shift | descend | exhausted => simp
      | fill tape =>
        rw [hres] at hsound
        obtain ⟨s, r, inner, hs, -⟩ := hsound
        refine Attempt.after_ne_failed (ih below (hf.put (a := blank) htodo hs trivial) ?_) tape
        rw [Frame.remaining_put hf htodo, Frame.resumed_of_cons htodo]
        exact (Grammar.yields_again e).append hes
      | skip tape =>
        rw [hres] at hsound
        obtain ⟨q, s, rfl, hq, -⟩ := hsound
        refine Attempt.after_ne_failed (ih below (hf.skip htodo hq) ?_) tape
        rw [Frame.remaining_skip htodo]
        exact hes

end Frames

/-! ## Entering a nonterminal -/

/-- The attempt comes to an end, and does not contradict that what was entered can match nothing, or
that it cannot. -/
def Attempt.Shows (nullable : Bool) : Attempt α → Prop
  | .shifted _ _ => True
  | .completed _ => nullable = true
  | .failed => nullable = false
  | .exhausted => False

namespace Grammar

variable {g : Grammar}

/-- **What becomes of a nonterminal that is entered** shows whether it is nullable. -/
theorem step_start_shows (hg : g.leftRecursion? = none) (predicts : Bool) (blank : α)
    (tag : Symbol) {s : Symbol} {r : Rule} (hs : g.rule? s = some r) (below : List (Frame α)) :
    (step (g.engine predicts) blank tag (g.engine predicts).fuel (.start s r) below).Shows
      (g.nullable.contains s) := by
  have hwf : (Frame.start s r : Frame α).WellFormed g Anything := Frame.wellFormed_start hs
  cases h : step (g.engine predicts) blank tag (g.engine predicts).fuel (.start s r) below with
  | shifted => trivial
  | exhausted => exact step_ne_exhausted (E := g.engine predicts) hg hwf below h
  | completed tape =>
    have hword : g.Yields r [] := begins_of_step_start (E := g.engine predicts) hs h
    exact contains_nullable_of_yields ((yields_symbol_iff hs).2 hword)
  | failed =>
    refine Bool.eq_false_iff.2 fun hc => ?_
    refine step_ne_failed (E := g.engine predicts) blank tag _ below hwf ?_ h
    rw [Frame.remaining_start]
    exact (yields_symbol_iff hs).1 (contains_nullable_iff.1 hc)

/-- **The nullable nonterminals are those that derive the empty word.** Whatever order each sweep
visits the rules in, a sweep comes that adds nothing, and the nullable nonterminals are what was
found by then. A parser agrees, whether it predicts or not: a nonterminal that is entered on top of
any frames completes without the token only if it is nullable, and fails only if it is not. -/
theorem nullable_exact {definitions : NameMap Form} (h : build definitions = .ok g) :
    (∀ s, g.nullable.contains s = true ↔ g.Derives s []) ∧
    (∀ orders : Nat → List (Symbol × Rule), (∀ n, (orders n).Perm g.rules.entries) →
      (∃ n ≤ g.rules.size, sweptBy orders (n + 1) = sweptBy orders n) ∧
      ∀ n, sweptBy orders (n + 1) = sweptBy orders n → sweptBy orders n = g.nullable) ∧
    ∀ (predicts : Bool) (blank : α) (tag s : Symbol) (r : Rule) (below : List (Frame α)),
      g.rule? s = some r →
      (step (g.engine predicts) blank tag (g.engine predicts).fuel (.start s r) below).Shows
        (g.nullable.contains s) := by
  refine ⟨fun s => ?_, fun orders horders => ⟨?_, fun n hn => sweptBy_eq_nullable horders hn⟩, ?_⟩
  · rw [derives_iff_yields]
    exact contains_nullable_iff
  · exact exists_sweptBy_succ_eq horders
  · intro predicts blank tag s r below hs
    exact step_start_shows (leftRecursion?_of_build h) predicts blank tag hs below

/-- Definitions in which a repetition that is required may match nothing, and so may the second
option of a choice. -/
def paddedForms : NameMap Form := .ofList [
  ("root", .sequence [Form.apply (.quantifier .plus) ["pad"], Form.apply .choice ["word", "gap"]]),
  ("word", .names ["pad", "x"]),
  ("gap", .name "pad"),
  ("pad", Form.apply (.quantifier .opt) ["blank"])]

/-- The grammar that these definitions come to. -/
def paddedGrammar : Grammar where
  rules := .ofList [
    ("root", [.quantified .plus "pad", .choice ["word", "gap"]]),
    ("word", [.symbol "pad", .symbol "x"]),
    ("gap", [.symbol "pad"]),
    ("pad", [.quantified .opt "blank"])]
  synthetic := []

theorem build_paddedForms : build paddedForms = .ok paddedGrammar :=
  Eq.refl (Except.ok paddedGrammar)

/-- Of a root and a word the parser completes the one and fails the other when it is offered a token
that neither can take. Visited backwards, the rules need two sweeps. -/
theorem nullable_exact_padded : build paddedForms = .ok paddedGrammar ∧
    paddedGrammar.Derives "root" [] ∧ ¬ paddedGrammar.Derives "word" [] ∧
    sweptBy (fun _ => paddedGrammar.rules.entries.reverse) 2 = paddedGrammar.nullable ∧
    (∀ predicts below, (step (paddedGrammar.engine predicts) () "y"
      (paddedGrammar.engine predicts).fuel
      (.start "word" [.symbol "pad", .symbol "x"]) below).Shows false) := by
  obtain ⟨hderives, horders, hengine⟩ := nullable_exact (α := Unit) build_paddedForms
  refine ⟨build_paddedForms, (hderives "root").1 rfl, fun h => ?_, ?_, fun predicts below => ?_⟩
  · exact absurd ((hderives "word").2 h) (by decide +kernel)
  · exact (horders _ fun _ => List.reverse_perm _).2 2 (NameMap.ext (by decide +kernel))
  · exact hengine predicts () "y" "word" _ below rfl

end Grammar

end PushParser
