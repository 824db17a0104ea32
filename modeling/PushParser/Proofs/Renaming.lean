import Mathlib.Logic.Function.Basic
import PushParser.Parser.Replay

/-!
# Names and contents do not matter

How a token is taken depends on names only through which of them are equal, and on what frames hold
not at all: trials and replays look at nonterminals, positions and numbers of repetitions. So a map
`ρ` of symbols that keeps them apart and a map `h` of contents commute with them, from one engine to
another that has the same rules in other names.

* `Element.rename`, `Frame.relabel` and `relabel` for each outcome of a trial or a replay;
* **`Engine.Renames`**, `Algebra.Relabels`: what engines and algebras have to agree on;
* `step_relabel`, **`trial_relabel`**: a trial on the image of a stack is the image of the trial;
* `replayStep_relabel`, **`replay_relabel`**, `settle_relabel`: the same for replays and for
  settling;
* **`advance_relabel`**: the same for taking a token, whatever the trials place as blanks.
-/

namespace PushParser

variable {α β : Type}

/-! ## Symbols and frames -/

/-- The element in other names. -/
def Element.rename (ρ : Symbol → Symbol) : Element → Element
  | .symbol s => .symbol (ρ s)
  | .quantified q s => .quantified q (ρ s)
  | .choice ss => .choice (ss.map ρ)

/-- The rule in other names. -/
def Rule.rename (ρ : Symbol → Symbol) (r : Rule) : Rule := r.map (Element.rename ρ)

/-- The token under another tag. Its value is its own. -/
def Token.rename (ρ : Symbol → Symbol) (t : Token) : Token := ⟨ρ t.tag, t.value⟩

section Symbols

variable (ρ : Symbol → Symbol)

@[simp] theorem Element.operands_rename (e : Element) :
    (e.rename ρ).operands = e.operands.map ρ := by
  cases e <;> rfl

@[simp] theorem Element.repeats_rename (e : Element) : (e.rename ρ).repeats = e.repeats := by
  cases e <;> rfl

@[simp] theorem Element.rename_id (e : Element) : e.rename id = e := by
  cases e with
  | symbol | quantified => rfl
  | choice ss => simp [rename]

theorem Slot.map_map {γ : Type} (h : α → β) (k : β → γ) (s : Slot α) :
    (s.map h).map k = s.map (k ∘ h) := by
  cases s with
  | vacant | one => rfl
  | many as => simp [map]

@[simp] theorem Slot.leave_rename (e : Element) (as : List α) :
    Slot.leave (e.rename ρ) as = Slot.leave e as := by
  simp [leave]

end Symbols

namespace Frame

/-- The frame in other names and with other contents. -/
def relabel (ρ : Symbol → Symbol) (h : α → β) (f : Frame α) : Frame β :=
  ⟨ρ f.lhs, f.filled.map (Slot.map h), f.repeated.map h, Rule.rename ρ f.todo⟩

variable (ρ : Symbol → Symbol) (h : α → β)

@[simp] theorem relabel_start (lhs : Symbol) (r : Rule) :
    (start lhs r : Frame α).relabel ρ h = start (ρ lhs) (Rule.rename ρ r) := rfl

@[simp] theorem lhs_relabel (f : Frame α) : (f.relabel ρ h).lhs = ρ f.lhs := rfl

@[simp] theorem todo_relabel (f : Frame α) : (f.relabel ρ h).todo = Rule.rename ρ f.todo := rfl

@[simp] theorem isBare_relabel (f : Frame α) : (f.relabel ρ h).isBare = f.isBare := by
  simp [isBare, relabel]

@[simp] theorem isComplete_relabel (f : Frame α) :
    (f.relabel ρ h).isComplete = f.isComplete := by
  simp [isComplete, relabel, Rule.rename]

theorem relabel_put (f : Frame α) (a : α) :
    (f.put a).relabel ρ h = (f.relabel ρ h).put (h a) := by
  unfold put relabel
  cases hf : f.todo with
  | nil => simp [hf, Rule.rename]
  | cons e es =>
    simp only [Rule.rename, List.map_cons, Element.repeats_rename]
    split <;> simp [Slot.map]

theorem relabel_skip (f : Frame α) : f.skip.relabel ρ h = (f.relabel ρ h).skip := by
  unfold skip relabel
  cases hf : f.todo with
  | nil => simp [hf, Rule.rename]
  | cons e es => simp [Rule.rename, Slot.map_leave]

@[simp] theorem slots_relabel (f : Frame α) :
    (f.relabel ρ h).slots = f.slots.map (Slot.map h) := by
  have hfinished : (f.relabel ρ h).finished = f.finished.map (Slot.map h) := finished_map h f
  unfold slots
  rw [todo_relabel, hfinished]
  cases f.todo with
  | nil => rfl
  | cons e es => simp [Rule.rename, relabel, Slot.map_leave]

theorem map_relabel {γ : Type} (k : β → γ) (f : Frame α) :
    (f.relabel ρ h).map k = f.relabel ρ (k ∘ h) := by
  simp [relabel, map, Slot.map_map]

@[simp] theorem relabel_id (f : Frame α) : f.relabel id h = f.map h := by
  have hid : Element.rename id = id := funext Element.rename_id
  rw [relabel, map, Rule.rename, hid, List.map_id]
  rfl

end Frame

/-! ## Outcomes -/

/-- The attempt in other names and with other contents. -/
def Attempt.relabel (ρ : Symbol → Symbol) (h : α → β) : Attempt α → Attempt β
  | .shifted stack tape => .shifted (stack.map (Frame.relabel ρ h)) tape
  | .completed tape => .completed tape
  | .failed => .failed
  | .exhausted => .exhausted

/-- The meeting in other names and with other contents. -/
def Meeting.relabel (ρ : Symbol → Symbol) (h : α → β) : Meeting α → Meeting β
  | .here => .here
  | .inside stack tape => .inside (stack.map (Frame.relabel ρ h)) tape
  | .nothing tape => .nothing tape
  | .refused => .refused
  | .exhausted => .exhausted

/-- The move in other names and with other contents. -/
def Move.relabel (ρ : Symbol → Symbol) (h : α → β) : Move α → Move β
  | .shift tape => .shift tape
  | .descend stack tape => .descend (stack.map (Frame.relabel ρ h)) tape
  | .fill tape => .fill tape
  | .skip tape => .skip tape
  | .fail => .fail
  | .exhausted => .exhausted

/-- The verdict in other names and with other contents. -/
def Verdict.relabel (ρ : Symbol → Symbol) (h : α → β) : Verdict α → Verdict β
  | .accepted stack tape => .accepted (stack.map (Frame.relabel ρ h)) tape
  | .refused => .refused
  | .exhausted => .exhausted

/-- The choices of a trial that took the token. -/
def Verdict.tape? : Verdict α → Option Tape
  | .accepted _ tape => some tape
  | .refused | .exhausted => none

/-- What the tape tells an element to do, in other names. -/
def Directive.rename (ρ : Symbol → Symbol) : Directive → Directive
  | .shift => .shift
  | .enter s r => .enter (ρ s) (Rule.rename ρ r)
  | .skip => .skip

/-- The divergence in other names. -/
def Divergence.rename (ρ : Symbol → Symbol) : Divergence → Divergence
  | .tapeEnded => .tapeEnded
  | .noSuchOption => .noSuchOption
  | .refused lhs => .refused (ρ lhs)
  | .exhausted => .exhausted

/-- The progress in other names and with other contents. -/
def Progress.relabel (ρ : Symbol → Symbol) (h : α → β) : Progress α → Progress β
  | .shifted stack => .shifted (stack.map (Frame.relabel ρ h))
  | .completed f => .completed (f.relabel ρ h)

/-- The commit in other names and with other contents. -/
def Commit.relabel (ρ : Symbol → Symbol) (h : α → β) (c : Commit α) : Commit β :=
  ⟨c.stack.map (Frame.relabel ρ h), c.root.map h⟩

/-- The event in other names and with other contents. What a rejection has printed stays. -/
def Event.relabel (ρ : Symbol → Symbol) (h : α → β) : Event α → Event β
  | .shift depth lhs t => .shift depth (ρ lhs) (t.rename ρ)
  | .reduce depth lhs slots result => .reduce depth (ρ lhs) (slots.map (Slot.map h)) (h result)
  | .reject depth r => .reject depth ⟨r.token.rename ρ, r.expected⟩
  | .told listener t => .told listener (t.rename ρ)
  | .nested accepted => .nested accepted

/-- What a replay did in other names and with other contents, the outcome changed by `k`. -/
def Replayed.relabel {σ τ : Type} (ρ : Symbol → Symbol) (h : α → β) (k : σ → τ)
    (x : Replayed α σ) : Replayed β τ :=
  ⟨k x.outcome, x.events.map (Event.relabel ρ h), x.tape⟩

/-- The outcome of a replay, either way in other names. -/
def relabelOutcome {σ τ : Type} (ρ : Symbol → Symbol) (h : α → β) (k : σ → τ) :
    Except Divergence (Replayed α σ) → Except Divergence (Replayed β τ)
  | .error d => .error (d.rename ρ)
  | .ok x => .ok (x.relabel ρ h k)

/-- What a replay comes to when the frames that the token completed are reduced. -/
def Replayed.settled (A : Algebra α) (x : Replayed α (Commit α)) : Commit α × List (Event α) :=
  (⟨(settle A x.outcome.stack).1.stack, (settle A x.outcome.stack).1.root.or x.outcome.root⟩,
    x.events ++ (settle A x.outcome.stack).2)

section Outcomes

variable (ρ : Symbol → Symbol) (h : α → β)

theorem Attempt.relabel_after (before : Tape) (a : Attempt α) :
    (a.after before).relabel ρ h = (a.relabel ρ h).after before := by
  cases a <;> rfl

theorem Verdict.relabel_after (before : Tape) (v : Verdict α) :
    (v.after before).relabel ρ h = (v.relabel ρ h).after before := by
  cases v <;> rfl

@[simp] theorem Verdict.tape?_relabel (v : Verdict α) : (v.relabel ρ h).tape? = v.tape? := by
  cases v <;> rfl

theorem Commit.relabel_orRoot (a : α) (c : Commit α) :
    (c.orRoot a).relabel ρ h = (c.relabel ρ h).orRoot (h a) := by
  cases c with
  | mk stack root => cases root <;> rfl

end Outcomes

/-! ## Engines -/

/-- **The engine `E'` is `E` in other names**: `ρ` keeps symbols apart and root where it is, and
takes the rules and the order in which options are tried to those of `E'`. -/
structure Engine.Renames (ρ : Symbol → Symbol) (E E' : Engine) : Prop where
  injective : Function.Injective ρ
  root : ρ rootName = rootName
  rule : ∀ s, E'.rule? (ρ s) = (E.rule? s).map (Rule.rename ρ)
  order : ∀ tag options, E'.trialOrder (ρ tag) (options.map ρ) =
    (E.trialOrder tag options).map fun o => (o.1, ρ o.2)
  fuel : E'.fuel = E.fuel

theorem Engine.renames_id (E : Engine) : E.Renames id E where
  injective := Function.injective_id
  root := rfl
  rule s := by
    have hid : Rule.rename id = id := funext fun r => by
      rw [Rule.rename, show Element.rename id = id from funext Element.rename_id, List.map_id, id]
    rw [hid, Option.map_id]
    rfl
  order tag options := by simp
  fuel := rfl

section Trials

variable {ρ : Symbol → Symbol} {E E' : Engine} (R : E.Renames ρ E') (h : α → β)

include R

theorem Engine.Renames.isNonterminal (s : Symbol) :
    E'.grammar.isNonterminal (ρ s) = E.grammar.isNonterminal s := by
  have hrule : (E'.rule? (ρ s)).isSome = (E.rule? s).isSome := by
    rw [R.rule, Option.isSome_map]
  exact hrule

theorem meet_relabel {enter : Frame α → Attempt α} {enter' : Frame β → Attempt β}
    (he : ∀ f, enter' (f.relabel ρ h) = (enter f).relabel ρ h) (tag s : Symbol) :
    meet E' enter' (ρ tag) (ρ s) = (meet E enter tag s).relabel ρ h := by
  unfold meet
  rw [R.rule]
  cases E.rule? s with
  | none =>
    simp only [Option.map_none, R.injective.eq_iff]
    split <;> rfl
  | some r =>
    have hs := he (.start s r)
    rw [Frame.relabel_start] at hs
    simp only [Option.map_some, hs]
    cases enter (.start s r) <;> rfl

theorem passOver_relabel (q : Quantifier) (first : Bool) (s : Symbol) :
    passOver E' q first (ρ s) = (passOver E q first s : Move α).relabel ρ h := by
  unfold passOver
  rw [R.isNonterminal]
  split <;> rfl

omit R in
theorem choose_relabel {m : Symbol → Meeting α} {m' : Symbol → Meeting β}
    (hm : ∀ s, m' (ρ s) = (m s).relabel ρ h) (os : List (Nat × Symbol)) :
    choose m' (os.map fun o => (o.1, ρ o.2)) = (choose m os).relabel ρ h := by
  induction os with
  | nil => rfl
  | cons o os ih =>
    rw [List.map_cons, choose, choose, hm]
    cases m o.2 with
    | refused => exact ih
    | _ => rfl

theorem resolve_relabel (tag : Symbol) {m : Symbol → Meeting α} {m' : Symbol → Meeting β}
    (hm : ∀ s, m' (ρ s) = (m s).relabel ρ h) (first : Bool) (e : Element) :
    resolve E' (ρ tag) m' first (e.rename ρ) = (resolve E tag m first e).relabel ρ h := by
  cases e with
  | symbol s =>
    simp only [Element.rename, resolve, hm]
    cases m s <;> rfl
  | quantified q s =>
    simp only [Element.rename, resolve, hm]
    cases m s with
    | nothing tape =>
      simp only [Meeting.relabel]
      split
      · rfl
      · exact passOver_relabel R h q first s
    | refused => exact passOver_relabel R h q first s
    | _ => rfl
  | choice options =>
    simp only [Element.rename, resolve, R.order]
    exact choose_relabel h hm _

variable (blank : α) (tag : Symbol)

theorem step_relabel (fuel : Nat) (f : Frame α) (below : List (Frame α)) :
    step E' (h blank) (ρ tag) fuel (f.relabel ρ h) (below.map (Frame.relabel ρ h)) =
      (step E blank tag fuel f below).relabel ρ h := by
  induction fuel generalizing f below with
  | zero => rfl
  | succ fuel ih =>
    have hm : ∀ s, meet E' (fun k => step E' (h blank) (ρ tag) fuel k
          (f.relabel ρ h :: below.map (Frame.relabel ρ h))) (ρ tag) (ρ s) =
        (meet E (fun k => step E blank tag fuel k (f :: below)) tag s).relabel ρ h :=
      meet_relabel R h (fun k => ih k (f :: below)) tag
    rw [step, step, Frame.todo_relabel, Frame.isBare_relabel]
    cases f.todo with
    | nil => rfl
    | cons e es =>
      simp only [Rule.rename, List.map_cons, resolve_relabel R h tag hm]
      cases resolve E tag (meet E (fun k => step E blank tag fuel k (f :: below)) tag)
          f.isBare e with
      | shift tape => simp [Move.relabel, Attempt.relabel, Frame.relabel_put]
      | fill tape =>
        simp only [Move.relabel, Attempt.relabel_after, ← Frame.relabel_put, ih]
      | skip tape =>
        simp only [Move.relabel, Attempt.relabel_after, ← Frame.relabel_skip, ih]
      | _ => rfl

theorem trialFresh_relabel :
    trialFresh E' (h blank) (ρ tag) = (trialFresh E blank tag).relabel ρ h := by
  unfold trialFresh
  have hrule := R.rule rootName
  rw [R.root] at hrule
  rw [hrule, R.fuel]
  cases E.rule? rootName with
  | none => rfl
  | some r =>
    have hs := step_relabel R h blank tag E.fuel (.start rootName r) []
    rw [Frame.relabel_start, List.map_nil, R.root] at hs
    simp only [Option.map_some, hs]
    cases step E blank tag E.fuel (.start rootName r) [] <;> rfl

theorem trialFrom_relabel (f : Frame α) (below : List (Frame α)) :
    trialFrom E' (h blank) (ρ tag) (f.relabel ρ h) (below.map (Frame.relabel ρ h)) =
      (trialFrom E blank tag f below).relabel ρ h := by
  induction below generalizing f with
  | nil =>
    have hs := step_relabel R h blank tag E.fuel f []
    rw [List.map_nil] at hs ⊢
    rw [trialFrom, trialFrom, R.fuel, hs]
    cases step E blank tag E.fuel f [] with
    | completed tape =>
      simp only [Attempt.relabel, Verdict.relabel_after, ← trialFresh_relabel R]
    | _ => rfl
  | cons k below ih =>
    have hs := step_relabel R h blank tag E.fuel f (k :: below)
    rw [List.map_cons] at hs ⊢
    rw [trialFrom, trialFrom, R.fuel, hs]
    cases step E blank tag E.fuel f (k :: below) with
    | completed tape =>
      simp only [Attempt.relabel, Verdict.relabel_after, ← Frame.relabel_put, ih]
    | _ => rfl

/-- **A trial on the image of a stack is the image of the trial.** -/
theorem trial_relabel (stack : List (Frame α)) :
    trial E' (h blank) (ρ tag) (stack.map (Frame.relabel ρ h)) =
      (trial E blank tag stack).relabel ρ h := by
  cases stack with
  | nil => exact trialFresh_relabel R h blank tag
  | cons f below => exact trialFrom_relabel R h blank tag f below

end Trials

/-! ## Replays -/

/-- The map `h` takes what tokens and reductions stand for in `A` to what they stand for in `B`
under other names. -/
structure Algebra.Relabels (ρ : Symbol → Symbol) (h : α → β) (A : Algebra α) (B : Algebra β) :
    Prop where
  token : ∀ t, h (A.token t) = B.token (t.rename ρ)
  node : ∀ lhs slots, h (A.node lhs slots) = B.node (ρ lhs) (slots.map (Slot.map h))

theorem Algebra.Hom.relabels {A : Algebra α} {B : Algebra β} {h : α → β} (H : A.Hom B h) :
    A.Relabels id h B :=
  ⟨H.token, H.node⟩

section Replays

variable {ρ : Symbol → Symbol} {E E' : Engine} {A : Algebra α} {B : Algebra β} {h : α → β}

theorem Frame.result_relabel (H : A.Relabels ρ h B) (f : Frame α) :
    (f.relabel ρ h).result B = h (f.result A) := by
  rw [Frame.result, Frame.result, H.node, Frame.lhs_relabel, Frame.slots_relabel]

theorem Frame.reduction_relabel (H : A.Relabels ρ h B) (f : Frame α) (depth : Nat) :
    (f.relabel ρ h).reduction B depth = (f.reduction A depth).relabel ρ h := by
  rw [Frame.reduction, Frame.reduction, Event.relabel, Frame.result_relabel H, Frame.lhs_relabel,
    Frame.slots_relabel]

variable (R : E.Renames ρ E')

include R in
theorem direct_rename (tag lhs : Symbol) (first : Bool) (e : Element) (tape : Tape) :
    direct E' (ρ tag) (ρ lhs) first (e.rename ρ) tape =
      match direct E tag lhs first e tape with
      | .error d => .error (d.rename ρ)
      | .ok x => .ok (x.1.rename ρ, x.2) := by
  cases e with
  | symbol s =>
    simp only [Element.rename, direct, R.rule, R.injective.eq_iff]
    cases E.rule? s with
    | none =>
      simp only [Option.map_none]
      split <;> rfl
    | some r => rfl
  | quantified q s =>
    simp only [Element.rename, direct, R.rule, R.injective.eq_iff]
    cases E.rule? s with
    | none =>
      simp only [Option.map_none]
      split
      · rfl
      · split <;> rfl
    | some r =>
      rcases tape with _ | ⟨_ | i, tape⟩
      · rfl
      · simp only [Option.map_some]
        split <;> rfl
      · rfl
  | choice options =>
    cases tape with
    | nil => rfl
    | cons i tape =>
      simp only [Element.rename, direct, List.getElem?_map]
      cases options[i]? with
      | none => rfl
      | some s =>
        simp only [Option.map_some, R.rule]
        cases E.rule? s <;> rfl

variable (H : A.Relabels ρ h B) (t : Token)

include R H

theorem replayStep_relabel (fuel depth : Nat) (f : Frame α) (below : List (Frame α))
    (tape : Tape) :
    replayStep E' B (t.rename ρ) fuel depth (f.relabel ρ h) (below.map (Frame.relabel ρ h)) tape =
      relabelOutcome ρ h (Progress.relabel ρ h) (replayStep E A t fuel depth f below tape) := by
  induction fuel generalizing depth f below tape with
  | zero => rfl
  | succ fuel ih =>
    rw [replayStep, replayStep, Frame.todo_relabel, Frame.isBare_relabel, Frame.lhs_relabel]
    cases f.todo with
    | nil => rfl
    | cons e es =>
      have hdirect := direct_rename R t.tag f.lhs f.isBare e tape
      have htag : (t.rename ρ).tag = ρ t.tag := rfl
      simp only [Rule.rename, List.map_cons, htag, hdirect]
      cases direct E t.tag f.lhs f.isBare e tape with
      | error d => rfl
      | ok x =>
        obtain ⟨d, tape⟩ := x
        cases d with
        | shift =>
          simp [Directive.rename, relabelOutcome, Replayed.relabel, Progress.relabel,
            Frame.relabel_put, H.token, Event.relabel]
        | skip => simp only [Directive.rename, ← Frame.relabel_skip, ih]
        | enter s r =>
          have hs := ih (depth + 1) (.start s r) (f :: below) tape
          rw [Frame.relabel_start, List.map_cons] at hs
          simp only [Directive.rename, hs]
          -- the frame entered takes the token, completes or diverges
          rcases replayStep E A t fuel (depth + 1) (.start s r) (f :: below) tape with
            d | ⟨stack | k, events, rest⟩
          · rfl
          · rfl
          · have hp := ih depth (f.put (k.result A)) below rest
            rw [Frame.relabel_put, ← Frame.result_relabel H] at hp
            simp only [relabelOutcome, Replayed.relabel, Progress.relabel] at hp ⊢
            rw [hp, Frame.reduction_relabel H]
            cases replayStep E A t fuel depth (f.put (k.result A)) below rest with
            | error d => rfl
            | ok x => simp [Except.map, Replayed.after]

theorem replayFresh_relabel (tape : Tape) :
    replayFresh E' B (t.rename ρ) tape =
      relabelOutcome ρ h (Commit.relabel ρ h) (replayFresh E A t tape) := by
  unfold replayFresh
  have hrule := R.rule rootName
  rw [R.root] at hrule
  rw [hrule, R.fuel]
  cases E.rule? rootName with
  | none => simp [relabelOutcome, Divergence.rename, R.root]
  | some r =>
    have hs := replayStep_relabel R H t E.fuel 1 (.start rootName r) [] tape
    rw [Frame.relabel_start, List.map_nil, R.root] at hs
    simp only [Option.map_some, hs]
    rcases replayStep E A t E.fuel 1 (.start rootName r) [] tape with
      d | ⟨stack | k, events, rest⟩
    · rfl
    · rfl
    · simp [relabelOutcome, Replayed.relabel, Progress.relabel, Divergence.rename, R.root]

theorem replayFrom_relabel (n : Nat) (f : Frame α) (below : List (Frame α)) (tape : Tape) :
    replayFrom E' B (t.rename ρ) n (f.relabel ρ h) (below.map (Frame.relabel ρ h)) tape =
      relabelOutcome ρ h (Commit.relabel ρ h) (replayFrom E A t n f below tape) := by
  induction below generalizing n f tape with
  | nil =>
    have hs := replayStep_relabel R H t E.fuel (n + 1) f [] tape
    rw [List.map_nil] at hs ⊢
    rw [replayFrom, replayFrom, R.fuel, hs]
    rcases replayStep E A t E.fuel (n + 1) f [] tape with d | ⟨stack | k, events, rest⟩
    · rfl
    · rfl
    · simp only [relabelOutcome, Replayed.relabel, Progress.relabel]
      rw [replayFresh_relabel R H, Frame.result_relabel H, Frame.reduction_relabel H]
      cases replayFresh E A t rest with
      | error d => rfl
      | ok x => simp [relabelOutcome, Replayed.relabel, Commit.relabel_orRoot]
  | cons k below ih =>
    have hs := replayStep_relabel R H t E.fuel (n + 1) f (k :: below) tape
    rw [List.map_cons] at hs ⊢
    rw [replayFrom, replayFrom, R.fuel, hs]
    rcases replayStep E A t E.fuel (n + 1) f (k :: below) tape with d | ⟨stack | l, events, rest⟩
    · rfl
    · rfl
    · have hp := ih (n - 1) (k.put (l.result A)) rest
      rw [Frame.relabel_put, ← Frame.result_relabel H] at hp
      simp only [relabelOutcome, Replayed.relabel, Progress.relabel] at hp ⊢
      rw [hp, Frame.reduction_relabel H]
      cases replayFrom E A t (n - 1) (k.put (l.result A)) below rest with
      | error d => rfl
      | ok x => simp [Except.map, Replayed.after]

/-- **A replay on the image of a stack is the image of the replay.** -/
theorem replay_relabel (tape : Tape) (stack : List (Frame α)) :
    replay E' B (t.rename ρ) tape (stack.map (Frame.relabel ρ h)) =
      relabelOutcome ρ h (Commit.relabel ρ h) (replay E A t tape stack) := by
  cases stack with
  | nil => exact replayFresh_relabel R H t tape
  | cons f below =>
    rw [List.map_cons, replay, replay, List.length_map]
    exact replayFrom_relabel R H t below.length f below tape

omit R t

theorem settleFrom_relabel (n : Nat) (f : Frame α) (below : List (Frame α)) :
    settleFrom B n (f.relabel ρ h) (below.map (Frame.relabel ρ h)) =
      ((settleFrom A n f below).1.relabel ρ h,
        (settleFrom A n f below).2.map (Event.relabel ρ h)) := by
  induction below generalizing n f with
  | nil =>
    rw [List.map_nil, settleFrom, settleFrom, Frame.isComplete_relabel]
    split
    · simp [Commit.relabel, Frame.result_relabel H, Frame.reduction_relabel H]
    · rfl
  | cons k below ih =>
    rw [List.map_cons, settleFrom, settleFrom, Frame.isComplete_relabel]
    split
    · have hp := ih (n - 1) (k.put (f.result A))
      rw [Frame.relabel_put, ← Frame.result_relabel H] at hp
      simp only [hp, Frame.reduction_relabel H, List.map_cons]
    · rfl

theorem settle_relabel (stack : List (Frame α)) :
    settle B (stack.map (Frame.relabel ρ h)) =
      ((settle A stack).1.relabel ρ h, (settle A stack).2.map (Event.relabel ρ h)) := by
  cases stack with
  | nil => rfl
  | cons f below =>
    rw [List.map_cons, settle, settle, List.length_map]
    exact settleFrom_relabel H below.length f below

theorem settled_relabel (x : Replayed α (Commit α)) :
    (x.relabel ρ h (Commit.relabel ρ h)).settled B =
      ((x.settled A).1.relabel ρ h, (x.settled A).2.map (Event.relabel ρ h)) := by
  have hs := settle_relabel H x.outcome.stack
  simp only [Replayed.settled, Replayed.relabel, Commit.relabel, hs, List.map_append]
  cases (settle A x.outcome.stack).1.root <;> rfl

end Replays

/-! ## Taking a token -/

theorem advance_eq (E : Engine) {A : Algebra α} (t : Token) (blank : α) (stack : List (Frame α)) :
    advance E A blank t stack =
      (trial E blank t.tag stack).tape?.bind fun tape =>
        (replay E A t tape stack).toOption.map (Replayed.settled A) := by
  unfold advance
  cases trial E blank t.tag stack with
  | accepted s tape =>
    dsimp only [Verdict.tape?, Option.bind_some]
    cases replay E A t tape stack <;> rfl
  | refused | exhausted => rfl

section Advance

variable {ρ : Symbol → Symbol} {E E' : Engine} (R : E.Renames ρ E') {h : α → β}

include R

/-- The choices of a trial depend on neither names nor contents, and not on the blanks either. -/
theorem tape?_relabel (a : α) (b : β) (tag : Symbol) (stack : List (Frame α)) :
    (trial E' b (ρ tag) (stack.map (Frame.relabel ρ h))).tape? = (trial E a tag stack).tape? := by
  have herase := trial_relabel E'.renames_id (fun _ => ()) b (ρ tag)
    (stack.map (Frame.relabel ρ h))
  have hunit := trial_relabel R (fun _ => ()) a tag stack
  have hstack : (stack.map (Frame.relabel ρ h)).map (Frame.relabel id fun _ => ()) =
      stack.map (Frame.relabel ρ fun _ => ()) := by
    simp [Frame.map_relabel, Function.comp_def]
  rw [hstack, id] at herase
  rw [← Verdict.tape?_relabel id (fun _ => ()), ← herase, hunit, Verdict.tape?_relabel]

/-- **Taking a token commutes with renaming and with a map of algebras**, whatever the trials place
as blanks. -/
theorem advance_relabel {A : Algebra α} {B : Algebra β} (H : A.Relabels ρ h B) (t : Token) (a : α)
    (b : β) (stack : List (Frame α)) :
    advance E' B b (t.rename ρ) (stack.map (Frame.relabel ρ h)) =
      (advance E A a t stack).map fun x =>
        (x.1.relabel ρ h, x.2.map (Event.relabel ρ h)) := by
  have htape : (trial E' b (t.rename ρ).tag (stack.map (Frame.relabel ρ h))).tape? =
      (trial E a t.tag stack).tape? := tape?_relabel R a b t.tag stack
  rw [advance_eq, advance_eq, htape]
  cases (trial E a t.tag stack).tape? with
  | none => rfl
  | some tape =>
    rw [Option.bind_some, Option.bind_some, replay_relabel R H]
    cases replay E A t tape stack with
    | error d => rfl
    | ok x => exact congrArg some (settled_relabel H x)

end Advance

end PushParser
