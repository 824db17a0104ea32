import PushParser.Proofs.Lookahead
import PushParser.Proofs.WellFormed

/-!
# What a stack waits for

A frame waits for the rest of its rule, where a symbol that is required at least once is no longer
required after its first repetition (**`Frame.remaining`**). A stack waits for what its innermost
frame waits for and then for what each of the others will wait for once the frame above it is
reduced (**`awaited`**).

* `Frame.remaining_put`, `Frame.remaining_skip`: what the operations on frames leave to wait for;
* `Grammar.Yields.of_operand`, `Grammar.Begins.of_operand`, `Grammar.yields_pending_iff`: the moves
  of a frame, seen in what it waits for;
* **`step_begins`**: a frame that takes the token waits for what can begin with it, and one that
  completes without the token waits for what stands for the empty word.
-/

namespace PushParser

variable {α β : Type}

/-! ## Frames -/

/-- The element as it still has to be matched, given whether nothing has been matched yet. -/
def Element.pending (first : Bool) : Element → Element
  | .quantified .plus s => .quantified (if first then .plus else .star) s
  | e => e

@[simp] theorem Element.pending_true (e : Element) : e.pending true = e := by
  rcases e with _ | ⟨_ | _ | _, _⟩ | _ <;> rfl

namespace Frame

/-- **What a frame waits for.** -/
def remaining (f : Frame α) : Rule :=
  match f.todo with
  | [] => []
  | e :: es => e.pending f.isBare :: es

/-- What a frame waits for once an operand of its current element is matched. -/
def resumed (f : Frame α) : Rule :=
  match f.todo with
  | [] => []
  | e :: es => e.again ++ es

theorem remaining_of_nil {f : Frame α} (h : f.todo = []) : f.remaining = [] := by
  rw [remaining, h]

theorem remaining_of_cons {f : Frame α} {e : Element} {es : Rule} (h : f.todo = e :: es) :
    f.remaining = e.pending f.isBare :: es := by
  rw [remaining, h]

theorem resumed_of_cons {f : Frame α} {e : Element} {es : Rule} (h : f.todo = e :: es) :
    f.resumed = e.again ++ es := by
  rw [resumed, h]

theorem remaining_of_bare {f : Frame α} (h : f.repeated = []) : f.remaining = f.todo := by
  cases hf : f.todo with
  | nil => exact remaining_of_nil hf
  | cons e es =>
    rw [remaining_of_cons hf, isBare, h]
    simp

@[simp] theorem remaining_start (s : Symbol) (r : Rule) :
    (start s r : Frame α).remaining = r := remaining_of_bare rfl

theorem remaining_skip {f : Frame α} {e : Element} {es : Rule} (h : f.todo = e :: es) :
    f.skip.remaining = es := by
  rw [remaining_of_bare] <;> simp [skip, h]

theorem remaining_put {g : Grammar} {P : Symbol → α → Prop} {f : Frame α} {e : Element} {es : Rule}
    (hf : f.WellFormed g P) (h : f.todo = e :: es) (a : α) : (f.put a).remaining = f.resumed := by
  rw [resumed_of_cons h]
  cases he : e.repeats with
  | true =>
    have hput : f.put a = { f with repeated := a :: f.repeated } := by simp [put, h, he]
    have htodo : (f.put a).todo = e :: es := by rw [hput]; exact h
    have hbare : (f.put a).isBare = false := by rw [hput]; rfl
    rw [remaining_of_cons htodo, hbare]
    rcases e with _ | ⟨_ | _ | _, s⟩ | _
    all_goals first | rfl | cases he
  | false =>
    have hput : f.put a = { f with filled := .one a :: f.filled, todo := es } := by
      simp [put, h, he]
    have hbare : (f.put a).repeated = [] := by
      rw [hput]
      exact hf.repeated_eq_nil h he
    have hagain : e.again = [] := by
      rcases e with _ | ⟨_ | _ | _, s⟩ | _
      all_goals first | rfl | cases he
    rw [remaining_of_bare hbare, hput, hagain]
    rfl

@[simp] theorem remaining_map (h : α → β) (f : Frame α) : (f.map h).remaining = f.remaining := by
  unfold remaining
  rw [todo_map, isBare_map]

end Frame

/-! ## Stacks -/

/-- What the frames below wait for once the frame above them is reduced. -/
def resumption (below : List (Frame α)) : Rule := below.flatMap Frame.resumed

/-- **What a stack waits for**, innermost frame first. -/
def awaited : List (Frame α) → Rule
  | [] => []
  | f :: below => f.remaining ++ resumption below

@[simp] theorem resumption_nil : resumption ([] : List (Frame α)) = [] := rfl

@[simp] theorem resumption_cons (f : Frame α) (below : List (Frame α)) :
    resumption (f :: below) = f.resumed ++ resumption below := rfl

theorem awaited_put {g : Grammar} {P : Symbol → α → Prop} {f : Frame α} {e : Element} {es : Rule}
    (hf : f.WellFormed g P) (h : f.todo = e :: es) (a : α) (below : List (Frame α)) :
    awaited (f.put a :: below) = resumption (f :: below) := by
  rw [awaited, Frame.remaining_put hf h, resumption_cons]

theorem awaited_skip {f : Frame α} {e : Element} {es : Rule} (h : f.todo = e :: es)
    (below : List (Frame α)) : awaited (f.skip :: below) = es ++ resumption below := by
  rw [awaited, Frame.remaining_skip h]

theorem awaited_map (h : α → β) (stack : List (Frame α)) :
    awaited (stack.map (Frame.map h)) = awaited stack := by
  have hbelow : ∀ below : List (Frame α),
      resumption (below.map (Frame.map h)) = resumption below := by
    intro below
    rw [resumption, List.flatMap_map]
    rfl
  cases stack with
  | nil => rfl
  | cons f below => rw [List.map_cons, awaited, Frame.remaining_map, hbelow, awaited]

/-! ## Moves -/

namespace Grammar

variable {g : Grammar} {e : Element} {es : Rule} {s t : Symbol} {w : List Symbol} {first : Bool}

theorem Yields.of_operand (hs : s ∈ e.operands) (h : g.Yields (.symbol s :: (e.again ++ es)) w) :
    g.Yields (e.pending first :: es) w := by
  cases e with
  | symbol x =>
    rw [List.mem_singleton.1 hs] at h
    exact h
  | choice ss => exact .choice hs h
  | quantified q x =>
    rw [List.mem_singleton.1 hs] at h
    cases q with
    | star | opt => exact .once h
    | plus => cases first <;> exact .once h

theorem Yields.of_skip {q : Quantifier} (hq : q.demands first = false) (h : g.Yields es w) :
    g.Yields ((Element.quantified q s).pending first :: es) w := by
  cases q with
  | star | opt => exact .never rfl h
  | plus =>
    cases first with
    | true => cases hq
    | false => exact .never rfl h

/-- **There are no other ways to match an element.** -/
theorem yields_pending_iff : g.Yields (e.pending first :: es) w ↔
    (∃ s ∈ e.operands, g.Yields (.symbol s :: (e.again ++ es)) w) ∨
      ∃ q s, e = .quantified q s ∧ q.demands first = false ∧ g.Yields es w := by
  constructor
  · intro h
    cases e with
    | symbol x => exact Or.inl ⟨x, List.mem_singleton_self x, h⟩
    | choice ss =>
      cases h with
      | choice hs h => exact Or.inl ⟨_, hs, h⟩
    | quantified q x =>
      cases q with
      | star | opt =>
        cases h with
        | once h => exact Or.inl ⟨x, List.mem_singleton_self x, h⟩
        | never _ h => exact Or.inr ⟨_, x, rfl, rfl, h⟩
      | plus =>
        cases first with
        | true =>
          cases h with
          | once h => exact Or.inl ⟨x, List.mem_singleton_self x, h⟩
          | never hq _ => cases hq
        | false =>
          cases h with
          | once h => exact Or.inl ⟨x, List.mem_singleton_self x, h⟩
          | never _ h => exact Or.inr ⟨_, x, rfl, rfl, h⟩
  · rintro (⟨s, hs, h⟩ | ⟨q, s, rfl, hq, h⟩)
    · exact .of_operand hs h
    · exact .of_skip hq h

theorem yields_pending_nil (hs : s ∈ e.operands) (h : g.Yields [.symbol s] []) :
    g.Yields [e.pending first] [] := by
  refine .of_operand hs ?_
  rw [List.append_nil]
  exact h.append (yields_again e)

theorem begins_pending (hs : s ∈ e.operands) (h : g.Begins [.symbol s] t) :
    g.Begins (e.pending first :: es) t := by
  cases e with
  | symbol x =>
    rw [List.mem_singleton.1 hs] at h
    exact begins_cons_iff.2 (Or.inl h)
  | choice ss => exact .choice hs h
  | quantified q x =>
    rw [List.mem_singleton.1 hs] at h
    cases q with
    | star | plus | opt => exact .quantified h

theorem Begins.of_operand (hs : s ∈ e.operands) (h : g.Begins (.symbol s :: (e.again ++ es)) t) :
    g.Begins (e.pending first :: es) t := by
  rcases begins_cons_iff.1 h with h | ⟨hempty, h⟩
  · exact begins_pending hs h
  · rcases begins_of_again h with ⟨s', hs', h⟩ | h
    · exact begins_pending hs' h
    · exact .next (yields_pending_nil hs hempty) h

end Grammar

/-- What an attempt shows of a sequence that was waited for. -/
def Attempt.Begins (g : Grammar) (tag : Symbol) (es : Rule) : Attempt α → Prop
  | .shifted _ _ => g.Begins es tag
  | .completed _ => g.Yields es []
  | .failed | .exhausted => True

theorem Attempt.Begins.after {g : Grammar} {tag : Symbol} {es es' : Rule} {a : Attempt α}
    (ha : a.Begins g tag es) (hbegins : g.Begins es tag → g.Begins es' tag)
    (hyields : g.Yields es [] → g.Yields es' []) (before : Tape) :
    (a.after before).Begins g tag es' := by
  cases a with
  | shifted => exact hbegins ha
  | completed => exact hyields ha
  | failed | exhausted => trivial

/-- **A frame takes the token only if what it waits for can begin with it**, and completes only if
what it waits for stands for the empty word. -/
theorem step_begins (E : Engine) (blank : α) (tag : Symbol) (fuel : Nat) {f : Frame α}
    (below : List (Frame α)) (hf : f.WellFormed E.grammar Anything) :
    (step E blank tag fuel f below).Begins E.grammar tag f.remaining := by
  induction fuel generalizing f below with
  | zero => trivial
  | succ fuel ih =>
    rw [step]
    cases htodo : f.todo with
    | nil =>
      rw [Frame.remaining_of_nil htodo]
      exact .nil
    | cons e es =>
      have hm :=
        resolve_sound E tag f.lhs (fun h => step E blank tag fuel h (f :: below)) f.isBare e
      -- a nonterminal that is entered shows what its rule shows
      have hinner : ∀ {s r a}, E.rule? s = some r →
          step E blank tag fuel (.start s r) (f :: below) = a → a.Begins E.grammar tag r := by
        rintro s r _ hr rfl
        have hstart := ih (f :: below) (Frame.wellFormed_start hr)
        rwa [Frame.remaining_start] at hstart
      rw [Frame.remaining_of_cons htodo]
      dsimp only
      cases hres : resolve E tag (meet E (fun h => step E blank tag fuel h (f :: below)) tag)
          f.isBare e with
      | fail | exhausted => trivial
      | shift tape =>
        rw [hres] at hm
        obtain ⟨hs, hn, -⟩ := hm
        exact Grammar.begins_pending hs (.terminal hn)
      | descend stack tape =>
        rw [hres] at hm
        obtain ⟨s, r, inner, hs, hr, he, -⟩ := hm
        exact Grammar.begins_pending hs ((Grammar.begins_symbol_iff hr).2 (hinner hr he))
      | skip tape =>
        rw [hres] at hm
        obtain ⟨q, s, rfl, hq, -⟩ := hm
        have hskip := ih below (hf.skip htodo hq)
        rw [Frame.remaining_skip htodo] at hskip
        exact hskip.after (.next (.of_skip hq .nil)) (.of_skip hq) tape
      | fill tape =>
        rw [hres] at hm
        obtain ⟨s, r, inner, hs, hr, -, he, -⟩ := hm
        have hsymbol := (Grammar.yields_symbol_iff hr).2 (hinner hr he)
        have hput := ih below (hf.put (a := blank) htodo hs trivial)
        rw [Frame.remaining_put hf htodo, Frame.resumed_of_cons htodo] at hput
        exact hput.after (fun h => .of_operand hs (.next hsymbol h))
          (fun h => .of_operand hs (hsymbol.append h)) tape

theorem begins_of_step_start {E : Engine} {blank : α} {tag s : Symbol} {r : Rule} {fuel : Nat}
    {below : List (Frame α)} {a : Attempt α} (hr : E.rule? s = some r)
    (h : step E blank tag fuel (.start s r) below = a) : a.Begins E.grammar tag r := by
  have hstart := step_begins E blank tag fuel below (Frame.wellFormed_start hr)
  rwa [Frame.remaining_start, h] at hstart

end PushParser
