import PushParser.Proofs.Completeness
import PushParser.Proofs.Rejection
import PushParser.Proofs.Soundness

/-!
# The parse in progress

A parse begins with the token that creates its root frame. When root ends in something that may be
left out, the token that begins the next parse is also the one by which the parse before is seen to
be finished; the two are then **seamless**.

* `root_of_settle_stack`, `root_isSome_of_advance`, `root_eq_none_of_fresh`: what is left of the
  frames tells whether root was reduced;
* **`Current`**, `Session.current`: the tokens of the parse in progress, and whether it follows the
  one before seamlessly;
* `Session.current_induction`: what every call keeps holds after any calls;
* **`Session.done_run`**: when a parser is done, with **`exists_done_in_progress`**: a parser in the
  middle of a parse may be done.
-/

namespace PushParser

variable {α : Type}

/-! ## Root and the frames that are left -/

section Settle

variable {A : Algebra α}

theorem root_of_settleFrom_stack (n : Nat) (f : Frame α) (below : List (Frame α))
    (h : (settleFrom A n f below).1.stack ≠ []) : (settleFrom A n f below).1.root = none := by
  induction below generalizing n f with
  | nil =>
    rw [settleFrom] at h ⊢
    split
    · next hc =>
      rw [if_pos hc] at h
      exact absurd rfl h
    · rfl
  | cons k below ih =>
    rw [settleFrom] at h ⊢
    split
    · next hc =>
      rw [if_pos hc] at h
      exact ih (n - 1) (k.put (f.result A)) h
    · rfl

theorem root_of_settle_stack {stack : List (Frame α)} (h : (settle A stack).1.stack ≠ []) :
    (settle A stack).1.root = none := by
  cases stack with
  | nil => rfl
  | cons f below => exact root_of_settleFrom_stack below.length f below h

variable {E : Engine} {t : Token} {blank : α} {stack : List (Frame α)} {c : Commit α}
  {events : List (Event α)}

theorem root_isSome_of_advance (h : advance E A blank t stack = some (c, events))
    (hc : c.stack = []) : c.root.isSome = true := by
  obtain ⟨c', events', htakes, rfl, rfl⟩ := exists_takes_of_advance h
  have hroot := root_isSome_settle htakes.stack_ne_nil hc
  simp only [Option.isSome_or, hroot, Bool.true_or]

theorem root_eq_none_of_fresh (h : advance E A blank t [] = some (c, events))
    (hc : c.stack ≠ []) : c.root = none := by
  obtain ⟨c', events', htakes, rfl, rfl⟩ := exists_takes_of_advance h
  simp only [root_of_settle_stack hc, htakes.root_eq_none, Option.none_or]

theorem rootValues_isEmpty_of_advance (h : advance E A blank t stack = some (c, events)) :
    (rootValues events).isEmpty = c.root.isNone := by
  rw [root_eq_getLast?_of_advance h]
  cases rootValues events with
  | nil => rfl
  | cons a as => simp

end Settle

/-! ## Where a parse begins -/

/-- **What is known of the parse in progress.** -/
structure Current where
  /-- The tokens accepted since its root frame was created, in order. -/
  tokens : List Token
  /-- Its first token reduced the root frame of the parse before. -/
  seamless : Bool

/-- What is known after a call. A token that is accepted creates a root frame when there is no frame
to go on with, or when it reduces the root frame that there is. -/
def Current.after (known : Current) (x : Session) : Call → Current
  | .reset => ⟨[], false⟩
  | .observe t =>
    let o := x.parser.observe t
    if !o.accepted then known
    else if x.parser.stack.isEmpty then ⟨[t], false⟩
    else if (rootValues o.events).isEmpty then ⟨known.tokens ++ [t], known.seamless⟩
    else ⟨[t], true⟩

namespace Session

variable {g : Grammar} {settings : Settings} {x : Session} {known : Current} {t : Token}

/-- What is known after calls in a row. -/
def currentFrom (x : Session) (known : Current) : List Call → Current
  | [] => known
  | c :: calls => (x.call c).currentFrom (known.after x c) calls

/-- **The parse in progress** after calls on a parser that was not called before. -/
def current (p : Parser) (calls : List Call) : Current := (start p).currentFrom ⟨[], false⟩ calls

/-- **What every call keeps holds after any calls**, of the session and the parse in progress. -/
theorem current_induction {I : Session → Current → Prop} (h : I x known)
    (hcall : ∀ y known c, I y known → I (y.call c) (known.after y c)) (calls : List Call) :
    I (x.run calls) (x.currentFrom known calls) := by
  induction calls generalizing x known with
  | nil => exact h
  | cons c calls ih => exact ih (hcall x known c h)

theorem after_of_commit_none (hx : x.parser.Ready) (ht : x.parser.commit t = none) :
    known.after x (.observe t) = known := by
  have haccepted : (x.parser.observe t).accepted = false := by
    rw [Parser.accepted_observe hx, ht]
    rfl
  simp [Current.after, haccepted]

theorem after_of_commit_some (hx : x.parser.Ready) {c : Commit Value}
    {events : List (Event Value)} (ht : x.parser.commit t = some (c, events)) :
    known.after x (.observe t) =
      if x.parser.stack = [] then ⟨[t], false⟩
      else if c.root = none then ⟨known.tokens ++ [t], known.seamless⟩
      else ⟨[t], true⟩ := by
  have hroot := rootValues_isEmpty_of_advance ht
  rw [Current.after, Parser.observe_of_commit_some hx ht]
  simp [hroot]

/-! ## When a parser is done -/

/-- **The parser is done when it should be**: between two parses if a token was accepted at all, and
during a parse if that follows the one before seamlessly. -/
structure Timely (x : Session) (known : Current) : Prop where
  idle : x.parser.stack = [] → (x.parser.done = true ↔ x.accepted ≠ [])
  active : x.parser.stack ≠ [] → x.parser.done = known.seamless

/-- A token that is taken keeps the parser timely. -/
theorem Timely.take (h : x.Timely known) (hx : x.parser.Ready) {c : Commit Value}
    {events : List (Event Value)} (ht : x.parser.commit t = some (c, events)) :
    (x.call (.observe t)).Timely (known.after x (.observe t)) := by
  rw [call_of_commit_some hx ht, after_of_commit_some hx ht]
  constructor
  · intro hnil
    have hroot := root_isSome_of_advance ht hnil
    simp [Parser.done, Parser.resultAfter, hroot]
  · intro hne
    by_cases hstack : x.parser.stack = []
    · -- a parse begins where none was in progress
      have hroot : c.root = none := by
        rw [Parser.commit, hstack] at ht
        exact root_eq_none_of_fresh ht hne
      simp [Parser.done, Parser.resultAfter, hroot, hstack]
    · cases hroot : c.root with
      | none =>
        have hactive := h.active hstack
        simpa [Parser.done, Parser.resultAfter, hroot, hstack] using hactive
      | some a => simp [Parser.done, Parser.resultAfter, hroot, hstack]

theorem Timely.call (h : x.Timely known) (hx : x.Made g settings) (c : Call) :
    (x.call c).Timely (known.after x c) := by
  cases c with
  | reset =>
    exact ⟨fun _ => by simp [Session.call, Parser.done, Parser.reset], fun h => absurd rfl h⟩
  | observe t =>
    cases ht : x.parser.commit t with
    | none =>
      obtain ⟨r, events, hcall, -⟩ := call_of_commit_none hx.ready ht
      rw [hcall, after_of_commit_none hx.ready ht]
      exact ⟨h.idle, h.active⟩
    | some y => exact h.take hx.ready ht

theorem timely_run {settings : List Setting} {p : Parser}
    (hp : Parser.make (some g) settings = .ok p) (calls : List Call) :
    ((start p).run calls).Timely (current p calls) := by
  obtain ⟨c, rfl⟩ := Parser.eq_of_make hp
  refine (current_induction (I := fun y known => y.Made g c ∧ y.Timely known)
    ⟨made_start, ?_⟩ (fun y known call hy => ?_) calls).2
  · exact ⟨fun _ => by simp [start, Parser.done], fun h => absurd rfl h⟩
  · exact ⟨hy.1.call call, hy.2.call hy.1 call⟩

theorem result_run {settings : List Setting} {p : Parser}
    (hp : Parser.make (some g) settings = .ok p) (calls : List Call) :
    ((start p).run calls).parser.result =
      if ((start p).run calls).parser.done then (rootValues ((start p).run calls).events).getLast?
      else none := by
  obtain ⟨-, -, trees, frames, haccount⟩ := exists_account_of_make hp calls
  rw [haccount.reductions, List.getLast?_map, Parser.done]
  cases hresult : ((start p).run calls).parser.result with
  | none => rfl
  | some v => exact (haccount.result v hresult).symm

/-- **When a parser is done.** While frames are in progress it is done just if their parse follows
the one before seamlessly, so that the token which began it reduced root as well. While it is done
the result is what root was reduced to last, and otherwise there is none. After a token that is
accepted, a parser without frames is done. -/
theorem done_run {settings : List Setting} {p : Parser}
    (hp : Parser.make (some g) settings = .ok p) {calls : List Call}
    (hx : x = (start p).run calls) :
    (0 < x.parser.depth → x.parser.done = (current p calls).seamless) ∧
      (x.parser.result = if x.parser.done then (rootValues x.events).getLast? else none) ∧
      ∀ t, (x.parser.observe t).accepted = true →
        ((x.parser.observe t).parser.done = true ↔ (x.parser.observe t).parser.depth = 0 ∨
          (current p (calls ++ [.observe t])).seamless = true) := by
  refine ⟨fun hdepth => ?_, ?_, fun t ht => ?_⟩
  · have htimely := timely_run hp calls
    rw [← hx] at htimely
    exact htimely.active (List.ne_nil_of_length_pos hdepth)
  · rw [hx]
    exact result_run hp calls
  · have htimely := timely_run hp (calls ++ [.observe t])
    have hrun : (start p).run (calls ++ [.observe t]) = x.call (.observe t) := by
      rw [hx, run, List.foldl_append]
      rfl
    rw [hrun] at htimely
    have haccepted : (x.call (.observe t)).accepted ≠ [] := by simp [Session.call, ht]
    by_cases hnil : (x.call (.observe t)).parser.stack = []
    · have hdepth : (x.parser.observe t).parser.depth = 0 := List.length_eq_zero_iff.2 hnil
      simp only [hdepth, true_or, iff_true]
      exact (htimely.idle hnil).2 haccepted
    · have hdepth : (x.parser.observe t).parser.depth ≠ 0 := fun h =>
        hnil (List.length_eq_zero_iff.1 h)
      rw [← htimely.active hnil]
      simp only [hdepth, false_or]
      rfl

end Session

/-! ## A list without an end -/

/-- The definitions of `a` and perhaps `b` after it. -/
def openForms : NameMap Form := .ofList
  [("root", .sequence [.name "a", Form.apply (.quantifier .opt) ["b"]])]

/-- The grammar of `a` and perhaps `b` after it. -/
def openGrammar : Grammar where
  rules := .ofList [("root", [.symbol "a", .quantified .opt "b"])]
  synthetic := []

theorem build_openForms : Grammar.build openForms = .ok openGrammar :=
  Eq.refl (Except.ok openGrammar)

namespace Session

/-- The second `a` begins a parse and finishes the first, so the parser is done in the middle of the
second. -/
theorem done_run_open : ∃ p x, Parser.make (some openGrammar) [] = .ok p ∧
    x = (start p).run [.observe ⟨"a", .int 1⟩, .observe ⟨"a", .int 2⟩] ∧ x.parser.depth = 1 ∧
    (current p [.observe ⟨"a", .int 1⟩, .observe ⟨"a", .int 2⟩]).seamless = true ∧
    x.parser.done = true ∧
    x.parser.result = some (.list [.token "a" (.int 1), .null]) := by
  obtain ⟨hactive, -⟩ := @done_run openGrammar _ [] _ rfl
    [.observe ⟨"a", .int 1⟩, .observe ⟨"a", .int 2⟩] rfl
  exact ⟨_, _, rfl, rfl, rfl, rfl, hactive Nat.one_pos, rfl⟩

/-- **A parser may be done in the middle of a parse.** -/
theorem exists_done_in_progress : ¬ ∀ (definitions : NameMap Form) (g : Grammar)
    (settings : List Setting) (p : Parser) (calls : List Call),
    Grammar.build definitions = .ok g → Parser.make (some g) settings = .ok p →
    0 < ((start p).run calls).parser.depth →
      ((start p).run calls).parser.done = false ∧ ((start p).run calls).parser.result = none := by
  intro hall
  have h := hall openForms openGrammar [] _ [.observe ⟨"a", .null⟩, .observe ⟨"a", .null⟩]
    build_openForms rfl Nat.one_pos
  exact Bool.noConfusion h.1

end Session

end PushParser
