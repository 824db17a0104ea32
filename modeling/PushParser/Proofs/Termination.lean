import Mathlib.Tactic.Ring
import PushParser.Proofs.Awaited
import PushParser.Proofs.Building
import PushParser.Proofs.LeftRecursion
import PushParser.Proofs.Nullable
import PushParser.Proofs.Session

/-!
# Every token is decided

Offering a token to a frame enters nonterminals, places what matches nothing and passes over what is
not required; **`Visits`** says what one such call does. None of them takes the token, so
the nonterminals entered one inside the other are leftmost steps and all different, and between two
of them a frame only moves along its rule. Both are counted by **`potential`**, which every call
makes smaller, and which the fuel exceeds.

* `exists_visits_of_exhausted`: fuel that runs out was spent on calls inside one another;
* **`Descent`**, `Visits.descent`, `Visited.descent`: what every call keeps, and all of them do;
* **`step_ne_exhausted`**: the fuel for a frame lasts;
* **`Session.observe_terminates`**: every token is decided, whatever came before it.
-/

namespace PushParser

variable {α : Type}

/-! ## Calls -/

section Calls

variable (E : Engine) (blank : α) (tag : Symbol)

/-- **One call inside another**, when the token is offered to the innermost frame of a stack. Any
operand may be entered. -/
inductive Visits : List (Frame α) → List (Frame α) → Prop
  | enter {f : Frame α} {below : List (Frame α)} {e : Element} {es : Rule} {s : Symbol} {r : Rule}
      (hf : f.todo = e :: es) (hs : s ∈ e.operands) (hr : E.rule? s = some r) :
      Visits (f :: below) (.start s r :: f :: below)
  | fill {f : Frame α} {below : List (Frame α)} {e : Element} {es : Rule} {fuel : Nat} {tape : Tape}
      (hf : f.todo = e :: es)
      (h : resolve E tag (meet E (fun k => step E blank tag fuel k (f :: below)) tag) f.isBare e =
        .fill tape) : Visits (f :: below) (f.put blank :: below)
  | skip {f : Frame α} {below : List (Frame α)} {e : Element} {es : Rule} {fuel : Nat} {tape : Tape}
      (hf : f.todo = e :: es)
      (h : resolve E tag (meet E (fun k => step E blank tag fuel k (f :: below)) tag) f.isBare e =
        .skip tape) : Visits (f :: below) (f.skip :: below)

/-- That many calls inside one another. -/
inductive VisitsIn : Nat → List (Frame α) → List (Frame α) → Prop
  | refl {stack : List (Frame α)} : VisitsIn 0 stack stack
  | head {n : Nat} {stack stack' stack'' : List (Frame α)} (h : Visits E blank tag stack stack')
      (hs : VisitsIn n stack' stack'') : VisitsIn (n + 1) stack stack''

variable {E blank tag}

theorem Attempt.after_eq_exhausted {before : Tape} {a : Attempt α}
    (h : a.after before = .exhausted) : a = .exhausted := by
  cases a with
  | exhausted => rfl
  | shifted | completed | failed => cases h

/-- **Fuel that runs out was spent on calls inside one another.** -/
theorem exists_visits_of_exhausted {fuel : Nat} {f : Frame α} {below : List (Frame α)}
    (h : step E blank tag fuel f below = .exhausted) :
    ∃ stack, VisitsIn E blank tag fuel (f :: below) stack := by
  induction fuel generalizing f below with
  | zero => exact ⟨_, .refl⟩
  | succ fuel ih =>
    rw [step] at h
    cases hf : f.todo with
    | nil =>
      rw [hf] at h
      cases h
    | cons e es =>
      have hm :=
        resolve_sound E tag f.lhs (fun k => step E blank tag fuel k (f :: below)) f.isBare e
      rw [hf] at h
      dsimp only at h
      cases hres : resolve E tag (meet E (fun k => step E blank tag fuel k (f :: below)) tag)
          f.isBare e with
      | shift | descend | fail =>
        rw [hres] at h
        cases h
      | exhausted =>
        rw [hres] at hm
        obtain ⟨s, r, hs, hr, he⟩ := hm
        obtain ⟨stack, hstack⟩ := ih he
        exact ⟨stack, .head (.enter hf hs hr) hstack⟩
      | fill tape =>
        rw [hres] at h
        obtain ⟨stack, hstack⟩ := ih (Attempt.after_eq_exhausted h)
        exact ⟨stack, .head (.fill hf hres) hstack⟩
      | skip tape =>
        rw [hres] at h
        obtain ⟨stack, hstack⟩ := ih (Attempt.after_eq_exhausted h)
        exact ⟨stack, .head (.skip hf hres) hstack⟩

end Calls

/-! ## What calls keep -/

namespace Grammar

variable (g : Grammar)

theorem length_le_longestRule {s : Symbol} {r : Rule} (h : g.rule? s = some r) :
    r.length ≤ g.longestRule := by
  have hfold : ∀ (es : List (Symbol × Rule)) (n : Nat),
      n ≤ es.foldl (fun n e => max n e.2.length) n ∧
        ∀ e ∈ es, e.2.length ≤ es.foldl (fun n e => max n e.2.length) n := by
    intro es
    induction es with
    | nil => exact fun n => ⟨Nat.le_refl n, List.forall_mem_nil _⟩
    | cons e es ih =>
      intro n
      obtain ⟨hn, hes⟩ := ih (max n e.2.length)
      rw [List.foldl_cons]
      refine ⟨by omega, fun e' he' => ?_⟩
      rcases List.mem_cons.1 he' with rfl | he'
      · omega
      · exact hes e' he'
  exact (hfold g.rules.entries 0).2 (s, r) (NameMap.find?_eq_some_iff.1 h)

end Grammar

/-- The moves a frame can still make along its rule: two for each position, of which one is spent
once a repetition has gathered. -/
def Frame.weight (f : Frame α) : Nat := 2 * f.todo.length - if f.isBare then 0 else 1

namespace Frame

theorem weight_skip_lt {f : Frame α} {e : Element} {es : Rule} (h : f.todo = e :: es) :
    f.skip.weight < f.weight := by
  have hskip : f.skip.weight = 2 * es.length := by simp [weight, skip, h, isBare]
  rw [hskip, weight, h, List.length_cons]
  split <;> omega

theorem weight_put_lt {f : Frame α} {e : Element} {es : Rule} (h : f.todo = e :: es)
    (hbare : f.isBare = true) (a : α) : (f.put a).weight < f.weight := by
  have hrep : f.repeated = [] := List.isEmpty_iff.1 hbare
  have hweight : f.weight = 2 * es.length + 2 := by
    rw [weight, hbare, h, List.length_cons, if_pos rfl]
    omega
  cases he : e.repeats with
  | true =>
    have hput : (f.put a).weight = 2 * es.length + 1 := by
      simp [weight, put, h, he, isBare]
      omega
    omega
  | false =>
    have hput : (f.put a).weight = 2 * es.length := by simp [weight, put, h, he, isBare, hrep]
    omega

end Frame

/-- **The calls that can still be made**, when the nonterminals of `path` have been entered one
inside the other and `f` is the innermost frame. -/
def potential (g : Grammar) (path : List Symbol) (f : Frame α) : Nat :=
  f.weight + (g.rules.size - path.length) * (2 * g.longestRule + 1)

/-- **What calls keep.** The nonterminals of `path` have been entered one inside the other, on top
of frames for the nonterminals of `base`, and `f` is the innermost frame. -/
structure Descent (g : Grammar) (base path : List Symbol) (f : Frame α) (below : List (Frame α)) :
    Prop where
  shape : (f :: below).map Frame.lhs = path ++ base
  frame : f.WellFormed g Anything
  /-- Each nonterminal is a leftmost step from the one that it was entered in. -/
  steps : path.IsChain fun t s => t ∈ g.leftmost s
  known : path ⊆ g.nonterminals
  /-- What can be entered next is a leftmost step too. -/
  ahead : ∀ s ∈ g.leftmostIn g.nullable f.todo, (s :: path).IsChain fun t s => t ∈ g.leftmost s
  /-- What has gathered in a frame that was entered matched nothing. -/
  idle : path ≠ [] → f.isBare = false → ∀ e es, f.todo = e :: es → e.nullableIn g.nullable = true

section Descents

variable {E : Engine} {blank : α} {tag : Symbol} {base path : List Symbol} {f : Frame α}
  {below stack : List (Frame α)}

theorem Descent.length_le (hE : E.grammar.leftRecursion? = none)
    (hd : Descent E.grammar base path f below) : path.length ≤ E.grammar.rules.size := by
  have hnodup : path.Nodup := Grammar.nodup_of_steps hE hd.steps
  have hle := (hnodup.subperm hd.known).length_le
  rwa [Grammar.nonterminals, NameMap.length_keys] at hle

theorem mem_leftmostIn_of_nullable {g : Grammar} {empty : NameSet} {e : Element} {es : Rule}
    {s : Symbol} (he : e.nullableIn empty = true) (hs : s ∈ g.leftmostIn empty es) :
    s ∈ g.leftmostIn empty (e :: es) := by
  rw [Grammar.leftmostIn, if_pos he]
  exact List.mem_append_right _ hs

theorem nullableIn_of_completed {e : Element} {s : Symbol} {r : Rule} {fuel : Nat} {tape : Tape}
    (hs : s ∈ e.operands) (hr : E.rule? s = some r)
    (h : step E blank tag fuel (.start s r) stack = .completed tape) :
    e.nullableIn E.grammar.nullable = true := by
  have hrule : E.grammar.Yields r [] := begins_of_step_start hr h
  have hempty := Grammar.contains_nullable_of_yields ((Grammar.yields_symbol_iff hr).2 hrule)
  exact Grammar.nullableIn_of_operand hs hempty

/-- Of repetitions only the first may match nothing. -/
theorem first_of_admitsEmpty {e : Element} {first : Bool}
    (hq : ∀ q x, e = .quantified q x → q.admitsEmpty first = true) (hrep : e.repeats = true) :
    first = true := by
  cases e with
  | symbol | choice => cases hrep
  | quantified q x =>
    have hadmits := hq q x rfl
    cases q with
    | star => cases hadmits
    | plus => exact hadmits
    | opt => cases hrep

theorem nullableIn_of_fill {e : Element} {first : Bool} {fuel : Nat} {tape : Tape}
    (h : resolve E tag (meet E (fun k => step E blank tag fuel k stack) tag) first e = .fill tape) :
    (∃ s, s ∈ e.operands) ∧ e.nullableIn E.grammar.nullable = true ∧
      (e.repeats = true → first = true) := by
  have hm := resolve_sound E tag "" (fun k => step E blank tag fuel k stack) first e
  rw [h] at hm
  obtain ⟨s, r, inner, hs, hr, hq, he, -⟩ := hm
  exact ⟨⟨s, hs⟩, nullableIn_of_completed hs hr he, first_of_admitsEmpty hq⟩

/-- A nonterminal that is entered is one more leftmost step. -/
theorem Descent.enter (hE : E.grammar.leftRecursion? = none)
    (hd : Descent E.grammar base path f below) {e : Element} {es r : Rule} {s : Symbol}
    (hf : f.todo = e :: es) (hs : s ∈ e.operands) (hr : E.rule? s = some r) :
    Descent E.grammar base (s :: path) (.start s r) (f :: below) ∧
      potential E.grammar (s :: path) (.start s r : Frame α) < potential E.grammar path f := by
  have hnonterminal : E.grammar.isNonterminal s = true := by
    rw [isNonterminal_eq, hr]
    rfl
  have hmem : s ∈ E.grammar.leftmostIn E.grammar.nullable f.todo := by
    rw [hf, Grammar.leftmostIn]
    exact List.mem_append_left _ (List.mem_filter.2 ⟨hs, hnonterminal⟩)
  have hsteps := hd.ahead s hmem
  have hdescent : Descent E.grammar base (s :: path) (.start s r) (f :: below) := by
    refine ⟨?_, Frame.wellFormed_start hr, hsteps, ?_, fun s' hs' => ?_, fun _ hbare => ?_⟩
    · rw [List.map_cons, hd.shape]
      rfl
    · exact List.cons_subset.2 ⟨Grammar.mem_nonterminals_iff.2 hnonterminal, hd.known⟩
    · refine .cons_cons ?_ hsteps
      rw [Grammar.leftmost_of_rule hr]
      exact hs'
    · cases hbare
  refine ⟨hdescent, ?_⟩
  have hlength : path.length + 1 ≤ E.grammar.rules.size := hdescent.length_le hE
  have hrule : r.length ≤ E.grammar.longestRule := E.grammar.length_le_longestRule hr
  have hweight : (Frame.start s r : Frame α).weight = 2 * r.length := rfl
  -- one nonterminal less is left, and its frame has no more moves than the longest rule gives
  obtain ⟨n, hn⟩ := Nat.exists_eq_add_of_le hlength
  have h₁ : E.grammar.rules.size - (path.length + 1) = n := by omega
  have h₂ : E.grammar.rules.size - path.length = n + 1 := by omega
  have hmul := Nat.add_one_mul n (2 * E.grammar.longestRule + 1)
  rw [potential, potential, hweight, List.length_cons, h₁, h₂]
  omega

theorem Descent.move {k : Frame α} (hd : Descent E.grammar base path f below)
    (hlhs : k.lhs = f.lhs) (hk : k.WellFormed E.grammar Anything)
    (hahead : ∀ s ∈ E.grammar.leftmostIn E.grammar.nullable k.todo,
      path ≠ [] → s ∈ E.grammar.leftmostIn E.grammar.nullable f.todo)
    (hidle : path ≠ [] → k.isBare = false → ∀ e es, k.todo = e :: es →
      e.nullableIn E.grammar.nullable = true) (hweight : k.weight < f.weight) :
    Descent E.grammar base path k below ∧
      potential E.grammar path k < potential E.grammar path f := by
  refine ⟨⟨?_, hk, hd.steps, hd.known, fun s hs => ?_, hidle⟩, ?_⟩
  · rw [List.map_cons, hlhs, ← List.map_cons, hd.shape]
  · by_cases hpath : path = []
    · rw [hpath]
      exact .singleton s
    · exact hd.ahead s (hahead s hs hpath)
  · rw [potential, potential]
    omega

theorem Descent.put (hd : Descent E.grammar base path f below) {e : Element} {es : Rule}
    {s : Symbol} (hf : f.todo = e :: es) (hs : s ∈ e.operands)
    (hempty : e.nullableIn E.grammar.nullable = true) (hfirst : e.repeats = true → f.isBare = true)
    (a : α) :
    Descent E.grammar base path (f.put a) below ∧
      potential E.grammar path (f.put a) < potential E.grammar path f := by
  have hput : (f.put a).WellFormed E.grammar Anything := hd.frame.put hf hs trivial
  cases he : e.repeats with
  | true =>
    -- the repetition gathers and the position stays
    have htodo : (f.put a).todo = e :: es := by simp [Frame.put, hf, he]
    refine hd.move (Frame.lhs_put f a) hput (fun s hs _ => ?_) (fun _ _ e' es' he' => ?_)
      (Frame.weight_put_lt hf (hfirst he) a)
    · rwa [htodo, ← hf] at hs
    · cases htodo.symm.trans he'
      exact hempty
  | false =>
    -- the position is finished
    have hrep : f.repeated = [] := hd.frame.repeated_eq_nil hf he
    have htodo : (f.put a).todo = es := by simp [Frame.put, hf, he]
    have hbare : (f.put a).isBare = true := by simp [Frame.put, hf, he, Frame.isBare, hrep]
    refine hd.move (Frame.lhs_put f a) hput (fun s hs _ => ?_) (fun _ hnot => ?_)
      (Frame.weight_put_lt hf (List.isEmpty_iff.2 hrep) a)
    · rw [htodo] at hs
      rw [hf]
      exact mem_leftmostIn_of_nullable hempty hs
    · cases hbare.symm.trans hnot

theorem Descent.leave (hd : Descent E.grammar base path f below) {q : Quantifier} {s : Symbol}
    {es : Rule} (hf : f.todo = .quantified q s :: es) (hq : q.demands f.isBare = false) :
    Descent E.grammar base path f.skip below ∧
      potential E.grammar path f.skip < potential E.grammar path f := by
  have hskip : f.skip = ⟨f.lhs, .leave (.quantified q s) f.repeated :: f.filled, [], es⟩ := by
    simp [Frame.skip, hf]
  refine hd.move (Frame.lhs_skip f) (hd.frame.skip hf hq) (fun s' hs' hpath => ?_)
    (fun _ hbare => ?_) (Frame.weight_skip_lt hf)
  · rw [hskip] at hs'
    rw [hf]
    refine mem_leftmostIn_of_nullable ?_ hs'
    cases q with
    | star | opt => rfl
    | plus => exact hd.idle hpath hq _ es hf
  · rw [hskip] at hbare
    cases hbare

theorem Descent.fill (hd : Descent E.grammar base path f below) {e : Element} {es : Rule}
    {fuel : Nat} {tape : Tape} (hf : f.todo = e :: es)
    (h : resolve E tag (meet E (fun k => step E blank tag fuel k (f :: below)) tag) f.isBare e =
      .fill tape) :
    Descent E.grammar base path (f.put blank) below ∧
      potential E.grammar path (f.put blank) < potential E.grammar path f := by
  obtain ⟨⟨s, hs⟩, hempty, hfirst⟩ := nullableIn_of_fill h
  exact hd.put hf hs hempty hfirst blank

theorem Descent.skip (hd : Descent E.grammar base path f below) {e : Element} {es : Rule}
    {fuel : Nat} {tape : Tape} (hf : f.todo = e :: es)
    (h : resolve E tag (meet E (fun k => step E blank tag fuel k (f :: below)) tag) f.isBare e =
      .skip tape) :
    Descent E.grammar base path f.skip below ∧
      potential E.grammar path f.skip < potential E.grammar path f := by
  have hm := resolve_sound E tag f.lhs (fun k => step E blank tag fuel k (f :: below)) f.isBare e
  rw [h] at hm
  obtain ⟨q, s, rfl, hq, -⟩ := hm
  exact hd.leave hf hq

/-- **Every call keeps the descent and has less ahead of it.** -/
theorem Visits.descent (hE : E.grammar.leftRecursion? = none)
    (h : Visits E blank tag (f :: below) stack) (hd : Descent E.grammar base path f below) :
    ∃ path' k below', stack = k :: below' ∧ Descent E.grammar base path' k below' ∧
      potential E.grammar path' k < potential E.grammar path f := by
  cases h with
  | enter hf hs hr => exact ⟨_, _, _, rfl, hd.enter hE hf hs hr⟩
  | fill hf h => exact ⟨_, _, _, rfl, hd.fill hf h⟩
  | skip hf h => exact ⟨_, _, _, rfl, hd.skip hf h⟩

/-- **Calls inside one another keep the descent**, and are no more than could be made. -/
theorem VisitsIn.descent (hE : E.grammar.leftRecursion? = none) {n : Nat}
    (h : VisitsIn E blank tag n (f :: below) stack) (hd : Descent E.grammar base path f below) :
    ∃ path' k below', stack = k :: below' ∧ Descent E.grammar base path' k below' ∧
      n + potential E.grammar path' k ≤ potential E.grammar path f := by
  generalize hstart : f :: below = first at h
  induction h generalizing path f below with
  | refl =>
    subst hstart
    exact ⟨path, f, below, rfl, hd, by omega⟩
  | head hv _ ih =>
    subst hstart
    obtain ⟨path', k, below', rfl, hd', hlt⟩ := hv.descent hE hd
    obtain ⟨path'', l, below'', rfl, hd'', hle⟩ := ih hd' rfl
    exact ⟨path'', l, below'', rfl, hd'', by omega⟩

/-! ## The fuel lasts -/

theorem potential_lt_fuel {g : Grammar} {f : Frame α} (hf : f.WellFormed g Anything)
    (path : List Symbol) : potential g path f < g.fuel := by
  obtain ⟨done, hrule, -⟩ := hf.rule
  have hlength := g.length_le_longestRule hrule
  rw [List.length_append] at hlength
  have hweight : f.weight ≤ 2 * f.todo.length := Nat.sub_le _ _
  have hpath : (g.rules.size - path.length) * (2 * g.longestRule + 1) ≤
      g.rules.size * (2 * g.longestRule + 1) := Nat.mul_le_mul_right _ (Nat.sub_le _ _)
  have hfuel : g.fuel = g.rules.size * (2 * g.longestRule + 1) + g.rules.size +
      2 * (2 * g.longestRule + 2) := by
    rw [Grammar.fuel]
    ring
  rw [potential, hfuel]
  omega

theorem descent_resumed {g : Grammar} (hf : f.WellFormed g Anything) (below : List (Frame α)) :
    Descent g ((f :: below).map Frame.lhs) [] f below where
  shape := rfl
  frame := hf
  steps := .nil
  known := List.nil_subset _
  ahead s _ := .singleton s
  idle h := absurd rfl h

theorem descent_root {g : Grammar} {r : Rule} (hr : g.rule? rootName = some r) :
    Descent g [] [rootName] (.start rootName r : Frame α) [] where
  shape := rfl
  frame := Frame.wellFormed_start hr
  steps := .singleton _
  known s hs := by
    rw [List.mem_singleton.1 hs]
    exact NameMap.mem_keys_iff.2 ⟨r, hr⟩
  ahead s hs := by
    refine .cons_cons ?_ (.singleton _)
    rw [Grammar.leftmost_of_rule hr]
    exact hs
  idle _ h := absurd h (by simp [Frame.start, Frame.isBare])

theorem VisitsIn.lt_fuel (hE : E.grammar.leftRecursion? = none) {n : Nat}
    (h : VisitsIn E blank tag n (f :: below) stack) (hf : f.WellFormed E.grammar Anything) :
    n < E.fuel := by
  obtain ⟨path, k, below', -, -, hle⟩ := h.descent hE (descent_resumed hf below)
  have hlt := potential_lt_fuel hf []
  rw [E.fuel_eq]
  omega

theorem step_ne_exhausted (hE : E.grammar.leftRecursion? = none)
    (hf : f.WellFormed E.grammar Anything) (below : List (Frame α)) :
    step E blank tag E.fuel f below ≠ .exhausted := by
  intro h
  obtain ⟨stack, hstack⟩ := exists_visits_of_exhausted h
  exact absurd (hstack.lt_fuel hE hf) (Nat.lt_irrefl _)

end Descents

/-! ## Stacks -/

section Stacks

variable (E : Engine) (blank : α) (tag : Symbol)

/-- **The stacks whose innermost frame is offered the token**, when that many frames completed
before: the stack itself, what is left of it as frames complete, and at last a new root. -/
inductive Offers : Nat → List (Frame α) → List (Frame α) → Prop
  | first {f : Frame α} {below : List (Frame α)} : Offers 0 (f :: below) (f :: below)
  | reduce {n : Nat} {f k : Frame α} {below stack : List (Frame α)} {tape : Tape}
      (h : step E blank tag E.fuel f (k :: below) = .completed tape)
      (hs : Offers n (k.put blank :: below) stack) : Offers (n + 1) (f :: k :: below) stack
  | restart {n : Nat} {f : Frame α} {stack : List (Frame α)} {tape : Tape}
      (h : step E blank tag E.fuel f [] = .completed tape) (hs : Offers n [] stack) :
      Offers (n + 1) [f] stack
  | fresh {r : Rule} (hr : E.rule? rootName = some r) : Offers 0 [] [.start rootName r]

/-- **Offering the token to a stack comes to an end.** -/
structure Decided (stack : List (Frame α)) : Prop where
  verdict : trial E blank tag stack ≠ .exhausted
  /-- Every frame is offered the token at most once, and so is a new root. -/
  offers : ∀ {n stack'}, Offers E blank tag n stack stack' → n ≤ stack.length
  /-- Calls inside one another are fewer than the fuel. -/
  calls : ∀ {n m f below reached}, Offers E blank tag n stack (f :: below) →
    VisitsIn E blank tag m (f :: below) reached → m < E.fuel
  /-- A repetition that takes no token is placed only where none has gathered. -/
  once : ∀ {fuel f below e es tape}, f.todo = e :: es → e.repeats = true →
    resolve E tag (meet E (fun k => step E blank tag fuel k (f :: below)) tag) f.isBare e =
      .fill tape → f.isBare = true
  /-- The nonterminals entered one inside the other are leftmost steps and all different. -/
  entered : ∀ {n m f below reached}, Offers E blank tag n stack (f :: below) →
    VisitsIn E blank tag m (f :: below) reached →
    ∃ path, reached.map Frame.lhs = path ++ (f :: below).map Frame.lhs ∧
      path.IsChain (fun t s => t ∈ E.grammar.leftmost s) ∧ path.Nodup
  /-- So they are from a new root on. -/
  enteredRoot : ∀ {m r reached}, E.rule? rootName = some r →
    VisitsIn E blank tag m [.start rootName r] reached →
    (reached.map Frame.lhs).IsChain (fun t s => t ∈ E.grammar.leftmost s) ∧
      (reached.map Frame.lhs).Nodup

variable {E blank tag} {stack stack' : List (Frame α)} {n : Nat}

theorem Offers.le_length (h : Offers E blank tag n stack stack') : n ≤ stack.length := by
  induction h with
  | first | fresh => exact Nat.zero_le _
  | reduce _ _ ih | restart _ _ ih =>
    simp only [List.length_cons, List.length_nil] at ih ⊢
    omega

theorem Offers.sound (h : Offers E blank tag n stack stack') (hs : Sound E.grammar Anything stack) :
    Sound E.grammar Anything stack' := by
  induction h with
  | first => exact hs
  | fresh hr => exact sound_root hr
  | reduce _ _ ih => exact ih (hs.resume blank)
  | restart _ _ ih => exact ih sound_nil

theorem Verdict.after_eq_exhausted {before : Tape} {v : Verdict α}
    (h : v.after before = .exhausted) : v = .exhausted := by
  cases v with
  | exhausted => rfl
  | accepted | refused => cases h

theorem exists_offers_of_trialFresh (h : trialFresh E blank tag = .exhausted) :
    ∃ f below, Offers E blank tag 0 [] (f :: below) ∧
      step E blank tag E.fuel f below = .exhausted := by
  unfold trialFresh at h
  cases hr : E.rule? rootName with
  | none =>
    rw [hr] at h
    cases h
  | some r =>
    rw [hr] at h
    refine ⟨_, _, .fresh hr, ?_⟩
    dsimp only at h
    split at h
    all_goals first | assumption | cases h

theorem exists_offers_of_trialFrom {f : Frame α} {below : List (Frame α)}
    (h : trialFrom E blank tag f below = .exhausted) :
    ∃ n k below', Offers E blank tag n (f :: below) (k :: below') ∧
      step E blank tag E.fuel k below' = .exhausted := by
  induction below generalizing f with
  | nil =>
    rw [trialFrom] at h
    cases hstep : step E blank tag E.fuel f [] with
    | exhausted => exact ⟨0, f, [], .first, hstep⟩
    | shifted | failed =>
      rw [hstep] at h
      cases h
    | completed tape =>
      rw [hstep] at h
      obtain ⟨k, below', hoffers, hk⟩ :=
        exists_offers_of_trialFresh (Verdict.after_eq_exhausted h)
      exact ⟨_, k, below', .restart hstep hoffers, hk⟩
  | cons k below ih =>
    rw [trialFrom] at h
    cases hstep : step E blank tag E.fuel f (k :: below) with
    | exhausted => exact ⟨0, f, k :: below, .first, hstep⟩
    | shifted | failed =>
      rw [hstep] at h
      cases h
    | completed tape =>
      rw [hstep] at h
      obtain ⟨n, l, below', hoffers, hl⟩ := ih (Verdict.after_eq_exhausted h)
      exact ⟨_, l, below', .reduce hstep hoffers, hl⟩

/-- **The fuel for a stack lasts.** -/
theorem trial_ne_exhausted (hE : E.grammar.leftRecursion? = none)
    (hs : Sound E.grammar Anything stack) : trial E blank tag stack ≠ .exhausted := by
  have hno : ∀ {n f below}, Offers E blank tag n stack (f :: below) →
      step E blank tag E.fuel f below ≠ .exhausted := by
    intro n f below hoffers
    exact step_ne_exhausted hE ((hoffers.sound hs).frames f List.mem_cons_self) below
  intro h
  cases stack with
  | nil =>
    obtain ⟨f, below, hoffers, hstep⟩ := exists_offers_of_trialFresh h
    exact hno hoffers hstep
  | cons f below =>
    obtain ⟨n, k, below', hoffers, hstep⟩ := exists_offers_of_trialFrom h
    exact hno hoffers hstep

/-- **Offering a token comes to an end** on every sound stack, when there is no left recursion. -/
theorem decided_of_sound (hE : E.grammar.leftRecursion? = none)
    (hs : Sound E.grammar Anything stack) : Decided E blank tag stack where
  verdict := trial_ne_exhausted hE hs
  offers h := h.le_length
  calls hoffers h := h.lt_fuel hE ((hoffers.sound hs).frames _ List.mem_cons_self)
  once _ he h := (nullableIn_of_fill h).2.2 he
  entered {n m f below reached} hoffers h := by
    have hf := (hoffers.sound hs).frames f List.mem_cons_self
    obtain ⟨path, k, below', rfl, hd, -⟩ := h.descent hE (descent_resumed hf below)
    exact ⟨path, hd.shape, hd.steps, Grammar.nodup_of_steps hE hd.steps⟩
  enteredRoot {m r reached} hr h := by
    obtain ⟨path, k, below', rfl, hd, -⟩ := h.descent hE (descent_root hr)
    have hshape := hd.shape
    rw [List.append_nil] at hshape
    rw [hshape]
    exact ⟨hd.steps, Grammar.nodup_of_steps hE hd.steps⟩

end Stacks

/-- **The parser decides the token**: the trial comes to an end within fuel that the grammar gives,
and so does the replay of what the trial finds. -/
structure Parser.Decides (q : Parser) (t : Token) : Prop where
  fuel : q.engine.fuel = (2 * q.grammar.longestRule + 2) * (q.grammar.rules.size + 2)
  decided : Decided q.engine Value.null t.tag q.stack
  replayed : ∀ tape, (trial q.engine Value.null t.tag q.stack).tape? = some tape →
    ∃ x, replay q.engine q.settings.actions.algebra t tape q.stack = .ok x

namespace Session

/-- **Every token is decided**, for a grammar that was built and after any calls. -/
theorem observe_terminates {definitions : NameMap Form} {g : Grammar}
    (hg : Grammar.build definitions = .ok g) {settings : List Setting} {p : Parser}
    (hp : Parser.make (some g) settings = .ok p) (calls : List Call) (t : Token) :
    ((start p).run calls).parser.Decides t := by
  obtain ⟨c, hmade, hsound⟩ := exists_sound hp calls
  have hE : ((start p).run calls).parser.engine.grammar = g := by rw [hmade.engine]; rfl
  refine ⟨Engine.fuel_eq _, decided_of_sound ?_ ?_, fun tape htape => ?_⟩
  · rw [hE]
    exact Grammar.leftRecursion?_of_build hg
  · rw [hE]
    exact hsound
  · obtain ⟨c, events, -, hreplay⟩ := exists_takes_of_tape? htape
    exact ⟨_, hreplay⟩

theorem observe_terminates_nested : ∃ p, Grammar.build nestedForms = .ok nestedLists ∧
    Parser.make (some nestedLists) [.predict] = .ok p ∧
    ((start p).run [.observe ⟨"(", .null⟩]).parser.Decides ⟨"x", .null⟩ :=
  ⟨_, build_nestedForms, rfl, @observe_terminates nestedForms nestedLists build_nestedForms
    [.predict] _ rfl [.observe ⟨"(", .null⟩] ⟨"x", .null⟩⟩

end Session

end PushParser
