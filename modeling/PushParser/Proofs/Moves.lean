import PushParser.Proofs.Contents

/-!
# What taking a token can do

The moves of a parser without the search for them: **`Runs`** says how one frame comes to take the
token or to be complete, and **`Takes`** how a stack takes it. They follow no tape, and of the
search they keep only what it found of the nonterminals that are entered (`Engine.Shifts`,
`Engine.Completes`), so what holds of every token taken is proved by induction on the moves.

* `Meeting.move`, `choose_cons`, `resolve_symbol`, `resolve_quantified`: how an element goes by its
  symbols;
* `Move.Sound`, `resolve_sound`: what each move of an element rests on, and what the tape tells a
  replay to do there;
* **`replayStep_of_step`**, `replayFrom_of_trialFrom`, **`replay_of_trial`**: a replay that is given
  the tape of a trial makes the moves of the trial and reads exactly that tape;
* **`takes_of_advance`**: a token that is taken is taken by such moves.
-/

namespace PushParser

variable {α β : Type}

/-! ## Moves -/

/-- A frame entered for the nonterminal takes the token, in some trial. -/
def Engine.Shifts (E : Engine) (tag s : Symbol) (r : Rule) : Prop :=
  ∃ fuel below stack tape, step E () tag fuel (.start s r) below = .shifted stack tape

/-- A frame entered for the nonterminal completes without the token, in some trial. -/
def Engine.Completes (E : Engine) (tag s : Symbol) (r : Rule) : Prop :=
  ∃ fuel below tape, step E () tag fuel (.start s r) below = .completed tape

/-- **How one frame runs** on top of the frames `below` until it has taken the token or is complete.
The frame is the innermost of `depth`. -/
inductive Runs (E : Engine) (A : Algebra α) (t : Token) :
    (depth : Nat) → Frame α → (below : List (Frame α)) → Progress α → List (Event α) → Prop
  /-- There is nothing left to do. -/
  | complete {depth : Nat} {f : Frame α} {below : List (Frame α)} (hf : f.todo = []) :
      Runs E A t depth f below (.completed f) []
  /-- The token is an operand of the current element. -/
  | shift {depth : Nat} {f : Frame α} {below : List (Frame α)} {e : Element} {es : Rule}
      (hf : f.todo = e :: es) (hs : t.tag ∈ e.operands) (hn : E.rule? t.tag = none) :
      Runs E A t depth f below (.shifted (f.put (A.token t) :: below)) [.shift depth f.lhs t]
  /-- A quantified symbol is passed over. -/
  | skip {depth : Nat} {f : Frame α} {below : List (Frame α)} {q : Quantifier} {s : Symbol}
      {es : Rule} {p : Progress α} {events : List (Event α)}
      (hf : f.todo = .quantified q s :: es) (hq : q.demands f.isBare = false)
      (rest : Runs E A t depth f.skip below p events) : Runs E A t depth f below p events
  /-- A nonterminal is entered and takes the token. -/
  | descend {depth : Nat} {f : Frame α} {below : List (Frame α)} {e : Element} {es : Rule}
      {s : Symbol} {r : Rule} {stack : List (Frame α)} {events : List (Event α)}
      (hf : f.todo = e :: es) (hs : s ∈ e.operands) (hr : E.rule? s = some r)
      (htrial : E.Shifts t.tag s r)
      (inner : Runs E A t (depth + 1) (.start s r) (f :: below) (.shifted stack) events) :
      Runs E A t depth f below (.shifted stack) events
  /-- A nonterminal is entered and completes without the token. -/
  | fill {depth : Nat} {f : Frame α} {below : List (Frame α)} {e : Element} {es : Rule}
      {s : Symbol} {r : Rule} {k : Frame α} {p : Progress α} {events events' : List (Event α)}
      (hf : f.todo = e :: es) (hs : s ∈ e.operands) (hr : E.rule? s = some r)
      (hq : ∀ q x, e = .quantified q x → q.admitsEmpty f.isBare = true)
      (htrial : E.Completes t.tag s r)
      (inner : Runs E A t (depth + 1) (.start s r) (f :: below) (.completed k) events)
      (rest : Runs E A t depth (f.put (k.result A)) below p events') :
      Runs E A t depth f below p (events ++ k.reduction A depth :: events')

/-- **How a stack takes a token**, innermost frame first: the frames that complete are reduced one
after the other, and when none is left a new root takes it. -/
inductive Takes (E : Engine) (A : Algebra α) (t : Token) :
    List (Frame α) → Commit α → List (Event α) → Prop
  | fresh {r : Rule} {stack : List (Frame α)} {events : List (Event α)}
      (hr : E.rule? rootName = some r)
      (run : Runs E A t 1 (.start rootName r) [] (.shifted stack) events) :
      Takes E A t [] ⟨stack, none⟩ events
  | shift {f : Frame α} {below stack : List (Frame α)} {events : List (Event α)}
      (run : Runs E A t (below.length + 1) f below (.shifted stack) events) :
      Takes E A t (f :: below) ⟨stack, none⟩ events
  | reduce {f k l : Frame α} {below : List (Frame α)} {c : Commit α}
      {events events' : List (Event α)}
      (run : Runs E A t (below.length + 2) f (k :: below) (.completed l) events)
      (rest : Takes E A t (k.put (l.result A) :: below) c events') :
      Takes E A t (f :: k :: below) c (events ++ l.reduction A (below.length + 1) :: events')
  | restart {f l : Frame α} {c : Commit α} {events events' : List (Event α)}
      (run : Runs E A t 1 f [] (.completed l) events) (rest : Takes E A t [] c events') :
      Takes E A t [f] (c.orRoot (l.result A)) (events ++ l.reduction A 0 :: events')

/-! ## Options in order -/

theorem getElem?_of_mem_numberFrom {n i : Nat} {s : Symbol} {ss : List Symbol}
    (h : (i, s) ∈ numberFrom n ss) : n ≤ i ∧ ss[i - n]? = some s := by
  induction ss generalizing n with
  | nil => cases h
  | cons x ss ih =>
    rw [numberFrom, List.mem_cons] at h
    rcases h with h | h
    · cases h
      simp
    · obtain ⟨hle, hget⟩ := ih h
      refine ⟨by omega, ?_⟩
      rw [show i - n = i - (n + 1) + 1 by omega, List.getElem?_cons_succ, hget]

theorem mem_numberFrom {n : Nat} {s : Symbol} {ss : List Symbol} (h : s ∈ ss) :
    ∃ i, (i, s) ∈ numberFrom n ss := by
  induction ss generalizing n with
  | nil => cases h
  | cons x ss ih =>
    rcases List.mem_cons.1 h with rfl | h
    · exact ⟨n, List.mem_cons_self⟩
    · obtain ⟨i, hi⟩ := ih (n := n + 1) h
      exact ⟨i, List.mem_cons_of_mem _ hi⟩

theorem mem_trialOrder_iff {E : Engine} {tag : Symbol} {options : List Symbol} {o : Nat × Symbol} :
    o ∈ E.trialOrder tag options ↔ o ∈ numberFrom 0 options := by
  unfold Engine.trialOrder
  dsimp only
  split
  · rw [List.mem_append, ← List.mem_partition]
  · rfl

theorem getElem?_of_mem_trialOrder {E : Engine} {tag : Symbol} {options : List Symbol} {i : Nat}
    {s : Symbol} (h : (i, s) ∈ E.trialOrder tag options) : options[i]? = some s :=
  (getElem?_of_mem_numberFrom (mem_trialOrder_iff.1 h)).2

theorem mem_trialOrder {E : Engine} {tag s : Symbol} {options : List Symbol} (h : s ∈ options) :
    ∃ i, (i, s) ∈ E.trialOrder tag options := by
  obtain ⟨i, hi⟩ := mem_numberFrom (n := 0) h
  exact ⟨i, mem_trialOrder_iff.2 hi⟩

/-! ## Elements -/

/-- What is made of the token when a symbol meets it, given what the tape is told of a symbol that
takes it and what is done about one that matches nothing and about one that refuses it. -/
def Meeting.move (here : Tape) (mark : Tape → Tape) (nothing : Tape → Move α) (refused : Move α) :
    Meeting α → Move α
  | .here => .shift here
  | .inside stack tape => .descend stack (mark tape)
  | .nothing tape => nothing tape
  | .refused => refused
  | .exhausted => .exhausted

section Symbols

variable (E : Engine) (tag : Symbol) (meeting : Symbol → Meeting α) (first : Bool)

theorem choose_cons (o : Nat × Symbol) (os : List (Nat × Symbol)) :
    choose meeting (o :: os) = (meeting o.2).move [o.1] (o.1 :: ·) (fun tape => .fill (o.1 :: tape))
      (choose meeting os) := by
  rw [choose]
  cases meeting o.2 with
  | here | inside | nothing | refused | exhausted => rfl

theorem resolve_symbol (s : Symbol) :
    resolve E tag meeting first (.symbol s) = (meeting s).move [] id .fill .fail := by
  rw [resolve]
  cases meeting s with
  | here | inside | nothing | refused | exhausted => rfl

theorem resolve_quantified (q : Quantifier) (s : Symbol) :
    resolve E tag meeting first (.quantified q s) = (meeting s).move [] (1 :: ·)
      (fun tape => if q.admitsEmpty first then .fill (1 :: tape) else passOver E q first s)
      (passOver E q first s) := by
  rw [resolve]
  cases meeting s with
  | here | inside | nothing | refused | exhausted => rfl

end Symbols

section Elements

variable (E : Engine) (tag lhs : Symbol) (enter : Frame α → Attempt α) (first : Bool)

/-- What a move of an element rests on, and what its tape tells a replay to do. -/
def Move.Sound (e : Element) : Move α → Prop
  | .shift tape => tag ∈ e.operands ∧ E.rule? tag = none ∧
      ∀ rest, direct E tag lhs first e (tape ++ rest) = .ok (.shift, rest)
  | .descend stack tape => ∃ s r inner, s ∈ e.operands ∧ E.rule? s = some r ∧
      enter (.start s r) = .shifted stack inner ∧
      ∀ rest, direct E tag lhs first e (tape ++ rest) = .ok (.enter s r, inner ++ rest)
  | .fill tape => ∃ s r inner, s ∈ e.operands ∧ E.rule? s = some r ∧
      (∀ q x, e = .quantified q x → q.admitsEmpty first = true) ∧
      enter (.start s r) = .completed inner ∧
      ∀ rest, direct E tag lhs first e (tape ++ rest) = .ok (.enter s r, inner ++ rest)
  | .skip tape => ∃ q s, e = .quantified q s ∧ q.demands first = false ∧
      ∀ rest, direct E tag lhs first e (tape ++ rest) = .ok (.skip, rest)
  | .fail => True
  | .exhausted => ∃ s r, s ∈ e.operands ∧ E.rule? s = some r ∧ enter (.start s r) = .exhausted

/-- What a meeting of a symbol rests on. -/
def Meeting.Sound (s : Symbol) : Meeting α → Prop
  | .here => s = tag ∧ E.rule? s = none
  | .inside stack tape => ∃ r, E.rule? s = some r ∧ enter (.start s r) = .shifted stack tape
  | .nothing tape => ∃ r, E.rule? s = some r ∧ enter (.start s r) = .completed tape
  | .refused => (E.rule? s = none ∧ s ≠ tag) ∨
      ∃ r, E.rule? s = some r ∧ enter (.start s r) = .failed
  | .exhausted => ∃ r, E.rule? s = some r ∧ enter (.start s r) = .exhausted

theorem meet_sound (s : Symbol) : (meet E enter tag s).Sound E tag enter s := by
  unfold meet
  cases hr : E.rule? s with
  | none =>
    dsimp only
    split
    · next h => exact ⟨h, hr⟩
    · next h => exact Or.inl ⟨hr, h⟩
  | some r =>
    dsimp only
    cases hs : enter (.start s r) with
    | failed => exact Or.inr ⟨r, hr, hs⟩
    | _ => exact ⟨r, hr, hs⟩

theorem isNonterminal_eq (s : Symbol) : E.grammar.isNonterminal s = (E.rule? s).isSome := rfl

theorem passOver_sound {q : Quantifier} {s : Symbol} (hs : E.rule? s = none → s ≠ tag) :
    (passOver E q first s : Move α).Sound E tag lhs enter first (.quantified q s) := by
  unfold passOver
  split
  · trivial
  · next hq =>
    rw [Bool.not_eq_true] at hq
    refine ⟨q, s, rfl, hq, fun rest => ?_⟩
    rw [isNonterminal_eq]
    cases hr : E.rule? s with
    | none => simp [direct, hr, hs hr, hq]
    | some r => simp [direct, hr, hq]

theorem choose_sound {options : List Symbol} {os : List (Nat × Symbol)}
    (hos : ∀ i s, (i, s) ∈ os → options[i]? = some s) :
    (choose (meet E enter tag) os).Sound E tag lhs enter first (.choice options) := by
  induction os with
  | nil => trivial
  | cons o os ih =>
    obtain ⟨i, s⟩ := o
    have hget : options[i]? = some s := hos i s List.mem_cons_self
    have hmem : s ∈ options := List.mem_of_getElem? hget
    have hm := meet_sound E tag enter s
    rw [choose]
    cases h : meet E enter tag s with
    | here =>
      rw [h] at hm
      obtain ⟨rfl, hr⟩ := hm
      exact ⟨hmem, hr, fun rest => by simp [direct, hget, hr]⟩
    | inside stack inner =>
      rw [h] at hm
      obtain ⟨r, hr, he⟩ := hm
      exact ⟨s, r, inner, hmem, hr, he, fun rest => by simp [direct, hget, hr]⟩
    | nothing inner =>
      rw [h] at hm
      obtain ⟨r, hr, he⟩ := hm
      exact ⟨s, r, inner, hmem, hr, by simp, he, fun rest => by simp [direct, hget, hr]⟩
    | refused => exact ih fun i s hs => hos i s (List.mem_cons_of_mem _ hs)
    | exhausted =>
      rw [h] at hm
      obtain ⟨r, hr, he⟩ := hm
      exact ⟨s, r, hmem, hr, he⟩

theorem resolve_sound (e : Element) :
    (resolve E tag (meet E enter tag) first e).Sound E tag lhs enter first e := by
  cases e with
  | choice options =>
    exact choose_sound E tag lhs enter first fun i s hs => getElem?_of_mem_trialOrder hs
  | symbol s =>
    have hm := meet_sound E tag enter s
    have hmem : s ∈ (Element.symbol s).operands := List.mem_singleton_self s
    simp only [resolve]
    cases h : meet E enter tag s with
    | here =>
      rw [h] at hm
      obtain ⟨rfl, hr⟩ := hm
      exact ⟨hmem, hr, fun rest => by simp [direct, hr]⟩
    | inside stack inner =>
      rw [h] at hm
      obtain ⟨r, hr, he⟩ := hm
      exact ⟨s, r, inner, hmem, hr, he, fun rest => by simp [direct, hr]⟩
    | nothing inner =>
      rw [h] at hm
      obtain ⟨r, hr, he⟩ := hm
      exact ⟨s, r, inner, hmem, hr, by simp, he, fun rest => by simp [direct, hr]⟩
    | refused => trivial
    | exhausted =>
      rw [h] at hm
      obtain ⟨r, hr, he⟩ := hm
      exact ⟨s, r, hmem, hr, he⟩
  | quantified q s =>
    have hm := meet_sound E tag enter s
    have hmem : s ∈ (Element.quantified q s).operands := List.mem_singleton_self s
    simp only [resolve]
    cases h : meet E enter tag s with
    | here =>
      rw [h] at hm
      obtain ⟨rfl, hr⟩ := hm
      exact ⟨hmem, hr, fun rest => by simp [direct, hr]⟩
    | inside stack inner =>
      rw [h] at hm
      obtain ⟨r, hr, he⟩ := hm
      exact ⟨s, r, inner, hmem, hr, he, fun rest => by simp [direct, hr]⟩
    | nothing inner =>
      rw [h] at hm
      obtain ⟨r, hr, he⟩ := hm
      dsimp only
      split
      · next hq =>
        refine ⟨s, r, inner, hmem, hr, fun q' x hx => ?_, he, fun rest => by simp [direct, hr]⟩
        cases hx
        exact hq
      · exact passOver_sound E tag lhs enter first fun hn => absurd (hr.symm.trans hn) (by simp)
    | refused =>
      rw [h] at hm
      refine passOver_sound E tag lhs enter first fun hn => ?_
      rcases hm with hm | ⟨r, hr, _⟩
      · exact hm.2
      · exact absurd (hr.symm.trans hn) (by simp)
    | exhausted =>
      rw [h] at hm
      obtain ⟨r, hr, he⟩ := hm
      exact ⟨s, r, hmem, hr, he⟩

end Elements

/-! ## Replays follow trials -/

section Follow

variable (E : Engine) (A : Algebra α) (t : Token)

/-- What a replay of one frame makes of the tape of an attempt, which is on the outline. -/
def Attempt.Replays (fuel depth : Nat) (f : Frame α) (below : List (Frame α)) :
    Attempt Unit → Prop
  | .shifted outline tape => ∃ stack events, stack.map Frame.erase = outline ∧
      Runs E A t depth f below (.shifted stack) events ∧
      ∀ rest, replayStep E A t fuel depth f below (tape ++ rest) =
        .ok ⟨.shifted stack, events, rest⟩
  | .completed tape => ∃ k events, Runs E A t depth f below (.completed k) events ∧
      ∀ rest, replayStep E A t fuel depth f below (tape ++ rest) =
        .ok ⟨.completed k, events, rest⟩
  | .failed | .exhausted => True

theorem Attempt.Replays.after {fuel fuel' depth : Nat} {f f' : Frame α}
    {below : List (Frame α)} {before : Tape} {a : Attempt Unit}
    (ha : a.Replays E A t fuel' depth f' below) (events : List (Event α))
    (hruns : ∀ p events', Runs E A t depth f' below p events' →
      Runs E A t depth f below p (events ++ events'))
    (hstep : ∀ tape x, replayStep E A t fuel' depth f' below tape = .ok x →
      replayStep E A t fuel depth f below (before ++ tape) = .ok (x.after events)) :
    (a.after before).Replays E A t fuel depth f below := by
  cases a with
  | failed | exhausted => trivial
  | shifted outline tape =>
    obtain ⟨stack, events', hs, hr, hx⟩ := ha
    refine ⟨stack, events ++ events', hs, hruns _ _ hr, fun rest => ?_⟩
    rw [List.append_assoc]
    exact hstep _ _ (hx rest)
  | completed tape =>
    obtain ⟨k, events', hr, hx⟩ := ha
    refine ⟨k, events ++ events', hruns _ _ hr, fun rest => ?_⟩
    rw [List.append_assoc]
    exact hstep _ _ (hx rest)

/-- **A replay makes the moves of its trial**, reads exactly its tape and comes to the same
outline. -/
theorem replayStep_of_step (fuel depth : Nat) (f : Frame α) (below : List (Frame α)) :
    (step E () t.tag fuel f.erase (below.map Frame.erase)).Replays E A t fuel depth f below := by
  induction fuel generalizing depth f below with
  | zero => trivial
  | succ fuel ih =>
    have htodo : f.erase.todo = f.todo := rfl
    have hbare : f.erase.isBare = f.isBare := Frame.isBare_map _ f
    rw [step, htodo, hbare]
    cases hf : f.todo with
    | nil => exact ⟨f, [], .complete hf, fun rest => by rw [replayStep, hf]; rfl⟩
    | cons e es =>
      have hm := resolve_sound E t.tag f.lhs
        (fun h => step E () t.tag fuel h (f.erase :: below.map Frame.erase)) f.isBare e
      dsimp only
      cases hres : resolve E t.tag (meet E (fun h => step E () t.tag fuel h
          (f.erase :: below.map Frame.erase)) t.tag) f.isBare e with
      | fail | exhausted => trivial
      | shift tape =>
        rw [hres] at hm
        obtain ⟨hs, hn, hd⟩ := hm
        refine ⟨f.put (A.token t) :: below, [.shift depth f.lhs t], ?_, .shift hf hs hn,
          fun rest => by rw [replayStep, hf]; simp only [hd]⟩
        rw [List.map_cons, Frame.erase, Frame.map_put]
        rfl
      | descend outline tape =>
        rw [hres] at hm
        obtain ⟨s, r, inner, hs, hr, he, hd⟩ := hm
        have hi := ih (depth + 1) (.start s r) (f :: below)
        rw [show step E () t.tag fuel (Frame.start s r : Frame α).erase
          ((f :: below).map Frame.erase) = .shifted outline inner from he] at hi
        obtain ⟨stack, events, hstack, hrun, hx⟩ := hi
        refine ⟨stack, events, hstack, .descend hf hs hr ⟨_, _, _, _, he⟩ hrun, fun rest => ?_⟩
        rw [replayStep, hf]
        simp only [hd, hx]
      | skip tape =>
        rw [hres] at hm
        obtain ⟨q, s, rfl, hq, hd⟩ := hm
        have hi := ih depth f.skip below
        rw [Frame.erase, Frame.map_skip] at hi
        refine hi.after E A t [] (fun p events' hr => .skip hf hq hr) fun tape' x hx => ?_
        rw [replayStep, hf]
        simp only [hd, hx, Replayed.after, List.nil_append]
      | fill tape =>
        rw [hres] at hm
        obtain ⟨s, r, inner, hs, hr, hq, he, hd⟩ := hm
        have hi := ih (depth + 1) (.start s r) (f :: below)
        rw [show step E () t.tag fuel (Frame.start s r : Frame α).erase
          ((f :: below).map Frame.erase) = .completed inner from he] at hi
        obtain ⟨k, events, hrun, hx⟩ := hi
        have hrest := ih depth (f.put (k.result A)) below
        rw [Frame.erase, Frame.map_put] at hrest
        refine hrest.after E A t (events ++ [k.reduction A depth]) (fun p events' hr' => ?_)
          fun tape' x hx' => ?_
        · rw [List.append_assoc]
          exact .fill hf hs hr hq ⟨_, _, _, he⟩ hrun hr'
        · rw [replayStep, hf]
          simp only [hd, hx, hx', Except.map]

/-- What a replay of a stack makes of the tape of a trial, which is on the outline. -/
def Verdict.Replays (stack : List (Frame α)) : Verdict Unit → Prop
  | .accepted outline tape => ∃ c events, c.stack.map Frame.erase = outline ∧
      Takes E A t stack c events ∧
      ∀ rest, replay E A t (tape ++ rest) stack = .ok ⟨c, events, rest⟩
  | .refused | .exhausted => True

theorem replayFresh_of_trialFresh : (trialFresh E () t.tag).Replays E A t [] := by
  unfold trialFresh
  cases hr : E.rule? rootName with
  | none => trivial
  | some r =>
    have hs := replayStep_of_step E A t E.fuel 1 (.start rootName r) []
    dsimp only
    cases he : step E () t.tag E.fuel (.start rootName r) [] with
    | completed | failed | exhausted => trivial
    | shifted outline tape =>
      rw [show step E () t.tag E.fuel (Frame.start rootName r : Frame α).erase
        (List.map Frame.erase []) = .shifted outline tape from he] at hs
      obtain ⟨stack, events, hstack, hrun, hx⟩ := hs
      refine ⟨⟨stack, none⟩, events, hstack, .fresh hr hrun, fun rest => ?_⟩
      rw [replay, replayFresh, hr]
      simp only [hx]

theorem replayFrom_of_trialFrom (f : Frame α) (below : List (Frame α)) :
    (trialFrom E () t.tag f.erase (below.map Frame.erase)).Replays E A t (f :: below) := by
  induction below generalizing f with
  | nil =>
    have hs := replayStep_of_step E A t E.fuel 1 f []
    rw [List.map_nil] at hs ⊢
    rw [trialFrom]
    cases he : step E () t.tag E.fuel f.erase [] with
    | failed | exhausted => trivial
    | shifted outline tape =>
      rw [he] at hs
      obtain ⟨stack, events, hstack, hrun, hx⟩ := hs
      refine ⟨⟨stack, none⟩, events, hstack, .shift hrun, fun rest => ?_⟩
      rw [replay, List.length_nil, replayFrom, hx]
    | completed tape =>
      rw [he] at hs
      obtain ⟨k, events, hrun, hx⟩ := hs
      have hfresh := replayFresh_of_trialFresh E A t
      cases hv : trialFresh E () t.tag with
      | refused | exhausted => trivial
      | accepted outline tape' =>
        rw [hv] at hfresh
        obtain ⟨c, events', hc, htakes, hx'⟩ := hfresh
        refine ⟨c.orRoot (k.result A), events ++ k.reduction A 0 :: events', hc,
          .restart hrun htakes, fun rest => ?_⟩
        have hy := hx' rest
        rw [replay] at hy
        rw [replay, List.length_nil, replayFrom, List.append_assoc, hx]
        simp only [hy]
  | cons k below ih =>
    have hs := replayStep_of_step E A t E.fuel (below.length + 2) f (k :: below)
    rw [List.map_cons] at hs ⊢
    rw [trialFrom]
    cases he : step E () t.tag E.fuel f.erase (k.erase :: below.map Frame.erase) with
    | failed | exhausted => trivial
    | shifted outline tape =>
      rw [he] at hs
      obtain ⟨stack, events, hstack, hrun, hx⟩ := hs
      refine ⟨⟨stack, none⟩, events, hstack, .shift hrun, fun rest => ?_⟩
      rw [replay, List.length_cons, replayFrom, hx]
    | completed tape =>
      rw [he] at hs
      obtain ⟨l, events, hrun, hx⟩ := hs
      have hrest := ih (k.put (l.result A))
      rw [Frame.erase, Frame.map_put] at hrest
      dsimp only
      cases hv : trialFrom E () t.tag (k.erase.put ()) (below.map Frame.erase) with
      | refused | exhausted => trivial
      | accepted outline tape' =>
        rw [show trialFrom E () t.tag ((k.map fun _ => ()).put ()) (below.map Frame.erase) =
          .accepted outline tape' from hv] at hrest
        obtain ⟨c, events', hc, htakes, hx'⟩ := hrest
        refine ⟨c, events ++ l.reduction A (below.length + 1) :: events', hc,
          .reduce hrun htakes, fun rest => ?_⟩
        have hy := hx' rest
        rw [replay] at hy
        rw [replay, List.length_cons, replayFrom, List.append_assoc, hx]
        simp only [Nat.add_sub_cancel, hy, Except.map, Replayed.after, List.append_assoc,
          List.singleton_append]

/-- **A replay of a stack makes the moves of its trial**, reads exactly its tape and comes to the
same outline. -/
theorem replay_of_trial (stack : List (Frame α)) :
    (trial E () t.tag (stack.map Frame.erase)).Replays E A t stack := by
  cases stack with
  | nil => exact replayFresh_of_trialFresh E A t
  | cons f below => exact replayFrom_of_trialFrom E A t f below

variable {E A t}

/-- **What a trial takes on a copy with other contents** is taken by moves, along which its tape
leads a replay to the same outline. -/
theorem exists_takes_of_accepted {blank : β} {copy outline : List (Frame β)}
    {stack : List (Frame α)} {tape : Tape} (hcopy : copy.map Frame.erase = stack.map Frame.erase)
    (h : trial E blank t.tag copy = .accepted outline tape) :
    ∃ c events, c.stack.map Frame.erase = outline.map Frame.erase ∧ Takes E A t stack c events ∧
      ∀ rest, replay E A t (tape ++ rest) stack = .ok ⟨c, events, rest⟩ := by
  have hmap := trial_map E (fun _ => ()) blank t.tag copy
  rw [h] at hmap
  have htrial : trial E () t.tag (stack.map Frame.erase) =
      .accepted (outline.map Frame.erase) tape := by
    rw [← hcopy]
    exact hmap
  have hr := replay_of_trial E A t stack
  rw [htrial] at hr
  exact hr

theorem exists_takes_of_tape? {blank : α} {stack : List (Frame α)} {tape : Tape}
    (h : (trial E blank t.tag stack).tape? = some tape) :
    ∃ c events, Takes E A t stack c events ∧ replay E A t tape stack = .ok ⟨c, events, []⟩ := by
  cases hv : trial E blank t.tag stack with
  | refused | exhausted => rw [hv] at h; cases h
  | accepted outline tape' =>
    rw [hv] at h
    cases h
    obtain ⟨c, events, -, htakes, hx⟩ := exists_takes_of_accepted (A := A) rfl hv
    have hreplay := hx []
    rw [List.append_nil] at hreplay
    exact ⟨c, events, htakes, hreplay⟩

/-- **A token that is taken is taken by moves**, and then the frames it completed are reduced. -/
theorem takes_of_advance {blank : α} {stack : List (Frame α)} {x : Commit α × List (Event α)}
    (h : advance E A blank t stack = some x) :
    ∃ c events, Takes E A t stack c events ∧ x = Replayed.settled A ⟨c, events, []⟩ := by
  rw [advance_eq] at h
  obtain ⟨tape, htape, hx⟩ := Option.bind_eq_some_iff.1 h
  obtain ⟨c, events, htakes, hreplay⟩ := exists_takes_of_tape? (A := A) htape
  rw [hreplay] at hx
  exact ⟨c, events, htakes, (Option.some.inj hx).symm⟩

theorem exists_takes_of_advance {blank : α} {stack : List (Frame α)} {c : Commit α}
    {events : List (Event α)} (h : advance E A blank t stack = some (c, events)) :
    ∃ c' events', Takes E A t stack c' events' ∧
      c = ⟨(settle A c'.stack).1.stack, (settle A c'.stack).1.root.or c'.root⟩ ∧
      events = events' ++ (settle A c'.stack).2 := by
  obtain ⟨c', events', htakes, hx⟩ := takes_of_advance h
  rw [Replayed.settled, Prod.mk.injEq] at hx
  exact ⟨c', events', htakes, hx⟩

theorem advance_isSome (blank : α) (stack : List (Frame α)) :
    (advance E A blank t stack).isSome = (trial E blank t.tag stack).tape?.isSome := by
  rw [advance_eq]
  cases htape : (trial E blank t.tag stack).tape? with
  | none => rfl
  | some tape =>
    obtain ⟨c, events, -, hreplay⟩ := exists_takes_of_tape? (A := A) htape
    rw [Option.bind_some, hreplay]
    rfl

end Follow

end PushParser
