import PushParser.Proofs.Tables
import PushParser.Proofs.Termination

/-!
# Every word of a deterministic grammar is parsed

A parser enters what can take the token and never goes back. In a deterministic grammar that is
right: as long as what the stack waits for (`awaited`) has a word that begins with the token, the
moves it makes keep a stack that waits for the rest of the word.

* `follows_of_hosted`: what the frames below wait for begins with what can follow the frame above;
* `Attempt.Goes`, **`step_goes`**: one frame goes on with the word;
* **`trialFrom_goes`**, `trialFresh_goes`, `awaited_settle`: a stack takes the token and waits for
  the rest of the word;
* **`Session.run_of_derives`**: a word of root is accepted to its end.
-/

namespace PushParser

variable {α : Type}

open Grammar

/-! ## What comes after -/

section Follow

variable {g : Grammar} {t : Symbol} {w : List Symbol} {below : List (Frame α)}

theorem followsAt_of_yields {lhs : Symbol} {es rest : Rule}
    (hrest : ∀ v, g.Yields rest (t :: v) → g.Follows lhs t) (h : g.Yields (es ++ rest) (t :: w)) :
    g.FollowsAt lhs es t := by
  obtain ⟨u, v, huv, hu, hv⟩ := h.split
  cases u with
  | nil =>
    rw [List.nil_append] at huv
    rw [← huv] at hv
    exact Or.inr ⟨hu, hrest w hv⟩
  | cons a u =>
    cases huv
    exact Or.inl hu.begins

/-- **What the frames below wait for begins with what can follow** the nonterminal above them. -/
theorem follows_of_hosted {s : Symbol} (hhost : Hosted below s)
    (hframes : ∀ k ∈ below, k.WellFormed g Anything)
    (h : g.Yields (resumption below) (t :: w)) : g.Follows s t := by
  induction below generalizing s w with
  | nil => cases h
  | cons k below ih =>
    obtain ⟨⟨e, es, hk, hs⟩, hhost'⟩ := hhost
    obtain ⟨before, hrule, -⟩ := (hframes k List.mem_cons_self).rule
    rw [hk] at hrule
    rw [resumption_cons, Frame.resumed_of_cons hk, List.append_assoc] at h
    obtain ⟨u, v, huv, hu, hv⟩ := h.split
    cases u with
    | nil =>
      rw [List.nil_append] at huv
      rw [← huv] at hv
      have hbelow : ∀ v, g.Yields (resumption below) (t :: v) → g.Follows k.lhs t :=
        fun v hv => ih hhost' (fun l hl => hframes l (List.mem_cons_of_mem _ hl)) hv
      rcases followsAt_of_yields hbelow hv with hbegins | ⟨hempty, hfollows⟩
      · exact .rest hrule hs hbegins
      · exact .parent hrule hs hempty hfollows
    | cons a u =>
      -- another repetition
      cases huv
      have hbegins : g.Begins (e.again ++ []) t := by
        rw [List.append_nil]
        exact hu.begins
      rcases begins_of_again hbegins with ⟨s', hs', hbegins'⟩ | hnil
      · cases e with
        | symbol | choice => exact absurd hu.begins not_begins_nil
        | quantified q x =>
          rw [List.mem_singleton.1 hs', ← List.mem_singleton.1 hs] at hbegins'
          refine .again hrule ?_ hs hbegins'
          cases q with
          | star | plus => rfl
          | opt => exact absurd hu.begins not_begins_nil
      · exact absurd hnil not_begins_nil

end Follow

/-! ## Going on with a word -/

section Goes

variable (g : Grammar) (tag : Symbol) (w : List Symbol)

/-- An attempt goes on with the word `tag :: w`, on top of the frames `below`. -/
def Attempt.Goes (below : List (Frame α)) : Attempt α → Prop
  | .shifted stack _ => g.Yields (awaited stack) w
  | .completed _ => g.Yields (resumption below) (tag :: w)
  | .failed => False
  | .exhausted => True

/-- A meeting goes on with the word, when `rest` comes after the symbol. -/
def Meeting.Goes (rest : Rule) : Meeting α → Prop
  | .here => g.Yields rest w
  | .inside stack _ => g.Yields (awaited stack) w
  | .nothing _ => g.Yields rest (tag :: w)
  | .refused => False
  | .exhausted => True

/-- A move goes on with the word, when `rest` comes after a match and `after` when there is none. -/
def Move.Goes (rest after : Rule) : Move α → Prop
  | .shift _ => g.Yields rest w
  | .descend stack _ => g.Yields (awaited stack) w
  | .fill _ => g.Yields rest (tag :: w)
  | .skip _ => g.Yields after (tag :: w)
  | .fail => False
  | .exhausted => True

/-- What a meeting shows of its symbol. -/
def Meeting.Begins (s : Symbol) : Meeting α → Prop
  | .here | .inside _ _ => g.Begins [.symbol s] tag
  | .nothing _ => g.Yields [.symbol s] []
  | .refused | .exhausted => True

variable {g tag w} {E : Engine} {blank : α} {fuel : Nat}

variable (E blank fuel) in
theorem meet_begins (tag : Symbol) (stack : List (Frame α)) (s : Symbol) :
    (meet E (fun k => step E blank tag fuel k stack) tag s).Begins E.grammar tag s := by
  have hm := meet_sound E tag (fun k => step E blank tag fuel k stack) s
  cases h : meet E (fun k => step E blank tag fuel k stack) tag s with
  | refused | exhausted => trivial
  | here =>
    rw [h] at hm
    obtain ⟨rfl, hn⟩ := hm
    exact .terminal hn
  | inside stack' tape =>
    rw [h] at hm
    obtain ⟨r, hr, he⟩ := hm
    exact (begins_symbol_iff hr).2 (begins_of_step_start hr he)
  | nothing tape =>
    rw [h] at hm
    obtain ⟨r, hr, he⟩ := hm
    exact (yields_symbol_iff hr).2 (begins_of_step_start hr he)

theorem meet_goes {enter : Frame α → Attempt α} {s : Symbol} {below : List (Frame α)}
    (henter : ∀ r, E.rule? s = some r → E.grammar.Yields (r ++ resumption below) (tag :: w) →
      (enter (.start s r)).Goes E.grammar tag w below)
    (h : E.grammar.Yields (.symbol s :: resumption below) (tag :: w)) :
    (meet E enter tag s).Goes E.grammar tag w (resumption below) := by
  unfold meet
  cases hr : E.rule? s with
  | none =>
    obtain ⟨v, hv, hrest⟩ := (yields_terminal_iff hr).1 h
    cases hv
    rw [if_pos rfl]
    exact hrest
  | some r =>
    have hgoes := henter r hr ((yields_rule_iff hr).1 h)
    dsimp only
    cases he : enter (.start s r) with
    | shifted | completed | failed | exhausted =>
      rw [he] at hgoes
      exact hgoes

/-- The option that goes on is chosen when the others refuse the token. -/
theorem choose_goes {meeting : Symbol → Meeting α} {rest after : Rule} {s : Symbol}
    {os : List (Nat × Symbol)} (hmem : ∃ i, (i, s) ∈ os)
    (hs : (meeting s).Goes g tag w rest) (hnothing : ∀ tape, meeting s ≠ .nothing tape)
    (hothers : ∀ i s', (i, s') ∈ os → s' ≠ s → meeting s' = .refused ∨ meeting s' = .exhausted) :
    (choose meeting os).Goes g tag w rest after := by
  induction os with
  | nil =>
    obtain ⟨i, hi⟩ := hmem
    cases hi
  | cons o os ih =>
    obtain ⟨i, s'⟩ := o
    rw [choose]
    by_cases heq : s' = s
    · subst heq
      cases hm : meeting s' with
      | refused =>
        rw [hm] at hs
        exact hs.elim
      | nothing tape => exact absurd hm (hnothing tape)
      | here | inside | exhausted =>
        rw [hm] at hs
        exact hs
    · rcases hothers i s' List.mem_cons_self heq with hm | hm
      · rw [hm]
        refine ih ?_ fun j x hx => hothers j x (List.mem_cons_of_mem _ hx)
        obtain ⟨j, hj⟩ := hmem
        rcases List.mem_cons.1 hj with hj | hj
        · cases hj
          exact absurd rfl heq
        · exact ⟨j, hj⟩
      · rw [hm]
        trivial

variable (blank fuel) in
theorem meet_refuses (stack : List (Frame α)) {s : Symbol}
    (hbegins : ¬ E.grammar.Begins [.symbol s] tag) (hempty : ¬ E.grammar.Yields [.symbol s] []) :
    meet E (fun k => step E blank tag fuel k stack) tag s = .refused ∨
      meet E (fun k => step E blank tag fuel k stack) tag s = .exhausted := by
  have hm := meet_begins E blank fuel tag stack s
  cases h : meet E (fun k => step E blank tag fuel k stack) tag s with
  | refused => exact Or.inl rfl
  | exhausted => exact Or.inr rfl
  | here | inside =>
    rw [h] at hm
    exact absurd hm hbegins
  | nothing =>
    rw [h] at hm
    exact absurd hm hempty

theorem resolve_goes (hg : E.grammar.Deterministic) {f : Frame α} {below : List (Frame α)}
    (hs : Sound E.grammar Anything (f :: below)) {e : Element} {es : Rule} (hf : f.todo = e :: es)
    (henter : ∀ s ∈ e.operands, ∀ r, E.rule? s = some r →
      E.grammar.Yields (r ++ resumption (f :: below)) (tag :: w) →
      (step E blank tag fuel (.start s r) (f :: below)).Goes E.grammar tag w (f :: below))
    (h : E.grammar.Yields (awaited (f :: below)) (tag :: w)) :
    (resolve E tag (meet E (fun k => step E blank tag fuel k (f :: below)) tag) f.isBare e).Goes
      E.grammar tag w (resumption (f :: below)) (es ++ resumption below) := by
  obtain ⟨hwf, hhost, hframes⟩ := sound_cons_iff.1 hs
  obtain ⟨before, hrule, -⟩ := hwf.rule
  rw [hf] at hrule
  have hmem : e ∈ before ++ e :: es := List.mem_append_right _ List.mem_cons_self
  have hsolid : (∀ x, e ≠ .symbol x) → ∀ s ∈ e.operands, ¬ E.grammar.Yields [.symbol s] [] :=
    fun he s hs' hempty => hg.solid hrule hmem he hs' (derives_iff_yields.2 hempty)
  have hrest : resumption (f :: below) = e.again ++ (es ++ resumption below) := by
    rw [resumption_cons, Frame.resumed_of_cons hf, List.append_assoc]
  rw [awaited, Frame.remaining_of_cons hf, List.cons_append] at h
  rcases yields_pending_iff.1 h with ⟨s, hs', hword⟩ | ⟨q, s, rfl, hq, hword⟩
  · -- an operand begins the word
    rw [← hrest] at hword
    have hmeet : (meet E (fun k => step E blank tag fuel k (f :: below)) tag s).Goes E.grammar tag w
        (resumption (f :: below)) := meet_goes (henter s hs') hword
    have hnothing : (∀ x, e ≠ .symbol x) → ∀ tape,
        meet E (fun k => step E blank tag fuel k (f :: below)) tag s ≠ .nothing tape := by
      intro he tape hm
      have hempty := meet_begins E blank fuel tag (f :: below) s
      rw [hm] at hempty
      exact hsolid he s hs' hempty
    cases e with
    | symbol x =>
      obtain rfl := List.mem_singleton.1 hs'
      rw [resolve]
      cases hm : meet E (fun k => step E blank tag fuel k (f :: below)) tag s with
      | here | inside | nothing | refused | exhausted =>
        rw [hm] at hmeet
        exact hmeet
    | choice ss =>
      have hne : ∀ x, Element.choice ss ≠ .symbol x := by simp
      refine choose_goes (mem_trialOrder hs') hmeet (hnothing hne) fun i s' hi hdiff => ?_
      have hs'' : s' ∈ ss := List.mem_of_getElem? (getElem?_of_mem_trialOrder hi)
      -- the word begins like the one option, so not like the other
      have hbegins : E.grammar.Begins [.symbol s] tag := by
        rcases begins_cons_iff.1 hword.begins with hb | ⟨hempty, -⟩
        · exact hb
        · exact absurd hempty (hsolid hne s hs')
      exact meet_refuses blank fuel (f :: below)
        (fun hb => hg.apart hrule hmem hs'' hs' hdiff hb hbegins) (hsolid hne s' hs'')
    | quantified q x =>
      have hne : ∀ y, Element.quantified q x ≠ .symbol y := by simp
      obtain rfl := List.mem_singleton.1 hs'
      rw [resolve]
      cases hm : meet E (fun k => step E blank tag fuel k (f :: below)) tag s with
      | nothing tape => exact absurd hm (hnothing hne tape)
      | refused =>
        rw [hm] at hmeet
        exact hmeet.elim
      | here | inside | exhausted =>
        rw [hm] at hmeet
        exact hmeet
  · -- the word begins after the element
    have hne : ∀ x, Element.quantified q s ≠ .symbol x := by simp
    have hfollows : E.grammar.FollowsAt f.lhs es tag :=
      followsAt_of_yields (fun v hv => follows_of_hosted hhost hframes hv) hword
    rw [resolve]
    rcases meet_refuses blank fuel (f :: below) (fun hb => hg.ahead hrule hb hfollows)
      (hsolid hne s (List.mem_singleton_self s)) with hm | hm
    · rw [hm]
      dsimp only
      rw [passOver, if_neg (by rw [hq]; exact Bool.false_ne_true)]
      exact hword
    · rw [hm]
      trivial

theorem Attempt.Goes.after {below : List (Frame α)} {a : Attempt α} (ha : a.Goes g tag w below)
    (before : Tape) : (a.after before).Goes g tag w below := by
  cases a with
  | shifted | completed | failed | exhausted => exact ha

/-- **One frame goes on with the word.** -/
theorem step_goes (hg : E.grammar.Deterministic) {f : Frame α} {below : List (Frame α)}
    (hs : Sound E.grammar Anything (f :: below))
    (h : E.grammar.Yields (awaited (f :: below)) (tag :: w)) :
    (step E blank tag fuel f below).Goes E.grammar tag w below := by
  induction fuel generalizing f below with
  | zero => trivial
  | succ fuel ih =>
    rw [step]
    cases hf : f.todo with
    | nil =>
      rw [awaited, Frame.remaining_of_nil hf, List.nil_append] at h
      exact h
    | cons e es =>
      have hm :=
        resolve_sound E tag f.lhs (fun k => step E blank tag fuel k (f :: below)) f.isBare e
      have henter : ∀ s ∈ e.operands, ∀ r, E.rule? s = some r →
          E.grammar.Yields (r ++ resumption (f :: below)) (tag :: w) →
          (step E blank tag fuel (.start s r) (f :: below)).Goes E.grammar tag w (f :: below) := by
        intro s hs' r hr hword
        refine ih (hs.enter hf hs' hr) ?_
        rw [awaited, Frame.remaining_start]
        exact hword
      have hgoes := resolve_goes hg hs hf henter h
      have hwf := hs.frames f List.mem_cons_self
      dsimp only
      cases hres : resolve E tag (meet E (fun k => step E blank tag fuel k (f :: below)) tag)
          f.isBare e with
      | fail =>
        rw [hres] at hgoes
        exact hgoes.elim
      | exhausted => trivial
      | descend stack tape =>
        rw [hres] at hgoes
        exact hgoes
      | shift tape =>
        rw [hres] at hgoes
        refine (?_ : E.grammar.Yields (awaited (f.put blank :: below)) w)
        rw [awaited_put hwf hf]
        exact hgoes
      | fill tape =>
        rw [hres] at hgoes hm
        obtain ⟨s, r, inner, hs', -⟩ := hm
        have hput := hs.replace (hwf.put (a := blank) hf hs' trivial) (Frame.lhs_put f blank)
        refine Attempt.Goes.after (ih hput ?_) tape
        rw [awaited_put hwf hf]
        exact hgoes
      | skip tape =>
        rw [hres] at hgoes hm
        obtain ⟨q, s, rfl, hq, -⟩ := hm
        have hskip := hs.replace (hwf.skip hf hq) (Frame.lhs_skip f)
        refine Attempt.Goes.after (ih hskip ?_) tape
        rw [awaited_skip hf]
        exact hgoes

end Goes

/-! ## Taking a token of the word -/

section Take

variable {E : Engine} {blank : α} {tag : Symbol} {w : List Symbol}

variable (blank) in
theorem step_decides (hg : E.grammar.Deterministic) (hE : E.grammar.leftRecursion? = none)
    {f : Frame α} {below : List (Frame α)} (hs : Sound E.grammar Anything (f :: below))
    (h : E.grammar.Yields (awaited (f :: below)) (tag :: w)) :
    (∃ stack tape, step E blank tag E.fuel f below = .shifted stack tape ∧
      E.grammar.Yields (awaited stack) w) ∨
    ∃ tape, step E blank tag E.fuel f below = .completed tape ∧
      E.grammar.Yields (resumption below) (tag :: w) := by
  have hgoes : (step E blank tag E.fuel f below).Goes E.grammar tag w below := step_goes hg hs h
  cases hstep : step E blank tag E.fuel f below with
  | shifted stack tape =>
    rw [hstep] at hgoes
    exact Or.inl ⟨stack, tape, rfl, hgoes⟩
  | completed tape =>
    rw [hstep] at hgoes
    exact Or.inr ⟨tape, rfl, hgoes⟩
  | failed =>
    rw [hstep] at hgoes
    exact hgoes.elim
  | exhausted => exact absurd hstep (step_ne_exhausted hE (hs.frames f List.mem_cons_self) below)

variable (blank) in
/-- **A stack takes the token** and waits for the rest of the word. -/
theorem trialFrom_goes (hg : E.grammar.Deterministic) (hE : E.grammar.leftRecursion? = none)
    {f : Frame α} {below : List (Frame α)} (hs : Sound E.grammar Anything (f :: below))
    (h : E.grammar.Yields (awaited (f :: below)) (tag :: w)) :
    ∃ stack tape, trialFrom E blank tag f below = .accepted stack tape ∧
      E.grammar.Yields (awaited stack) w := by
  induction below generalizing f with
  | nil =>
    rcases step_decides blank hg hE hs h with ⟨stack, tape, hstep, hword⟩ | ⟨tape, -, hword⟩
    · exact ⟨stack, tape, by rw [trialFrom, hstep], hword⟩
    · cases hword
  | cons k below ih =>
    rcases step_decides blank hg hE hs h with ⟨stack, tape, hstep, hword⟩ | ⟨tape, hstep, hword⟩
    · exact ⟨stack, tape, by rw [trialFrom, hstep], hword⟩
    · obtain ⟨-, ⟨⟨e, es, hk, -⟩, -⟩, hframes⟩ := sound_cons_iff.1 hs
      rw [← awaited_put (hframes k List.mem_cons_self) hk blank] at hword
      obtain ⟨stack, tape', htrial, hword'⟩ := ih (hs.resume blank) hword
      refine ⟨stack, tape ++ tape', ?_, hword'⟩
      rw [trialFrom, hstep]
      dsimp only
      rw [htrial]
      rfl

variable (blank) in
theorem trialFresh_goes (hg : E.grammar.Deterministic) (hE : E.grammar.leftRecursion? = none)
    {r : Rule} (hr : E.rule? rootName = some r)
    (h : E.grammar.Yields [.symbol rootName] (tag :: w)) :
    ∃ stack tape, trialFresh E blank tag = .accepted stack tape ∧
      E.grammar.Yields (awaited stack) w := by
  have hs : Sound E.grammar Anything [(.start rootName r : Frame α)] := sound_root hr
  have hword : E.grammar.Yields (awaited [(.start rootName r : Frame α)]) (tag :: w) := by
    rw [awaited, Frame.remaining_start, resumption_nil]
    exact (yields_rule_iff hr).1 h
  rcases step_decides blank hg hE hs hword with ⟨stack, tape, hstep, hrest⟩ | ⟨tape, -, hrest⟩
  · exact ⟨stack, tape, by rw [trialFresh, hr]; simp only [hstep], hrest⟩
  · cases hrest

end Take

/-! ## Reducing and going on -/

section Settle

variable {g : Grammar} {A : Algebra α}

theorem awaited_settleFrom {f : Frame α} {below : List (Frame α)}
    (hs : Sound g Anything (f :: below)) (n : Nat) :
    awaited (settleFrom A n f below).1.stack = awaited (f :: below) := by
  induction below generalizing n f with
  | nil =>
    rw [settleFrom]
    split
    · next hc => rw [awaited, awaited, Frame.remaining_of_nil (List.isEmpty_iff.1 hc)]; rfl
    · rfl
  | cons k below ih =>
    rw [settleFrom]
    split
    · next hc =>
      obtain ⟨-, ⟨⟨e, es, hk, -⟩, -⟩, hframes⟩ := sound_cons_iff.1 hs
      have hput := awaited_put (hframes k List.mem_cons_self) hk (f.result A) below
      rw [ih (hs.resume (f.result A)) (n - 1), hput, awaited,
        Frame.remaining_of_nil (List.isEmpty_iff.1 hc), List.nil_append]
    · rfl

/-- **Reducing complete frames leaves what is waited for.** -/
theorem awaited_settle {stack : List (Frame α)} (hs : Sound g Anything stack) :
    awaited (settle A stack).1.stack = awaited stack := by
  cases stack with
  | nil => rfl
  | cons f below => exact awaited_settleFrom hs below.length

theorem root_isSome_settleFrom (n : Nat) (f : Frame α) (below : List (Frame α))
    (h : (settleFrom A n f below).1.stack = []) :
    (settleFrom A n f below).1.root.isSome = true := by
  induction below generalizing n f with
  | nil =>
    rw [settleFrom] at h ⊢
    split
    · rfl
    · next hc =>
      rw [if_neg hc] at h
      cases h
  | cons k below ih =>
    rw [settleFrom] at h ⊢
    split
    · next hc =>
      rw [if_pos hc] at h
      exact ih (n - 1) (k.put (f.result A)) h
    · next hc =>
      rw [if_neg hc] at h
      cases h

theorem root_isSome_settle {stack : List (Frame α)} (hne : stack ≠ [])
    (h : (settle A stack).1.stack = []) : (settle A stack).1.root.isSome = true := by
  cases stack with
  | nil => exact absurd rfl hne
  | cons f below => exact root_isSome_settleFrom below.length f below h

end Settle

theorem Runs.stack_ne_nil {E : Engine} {A : Algebra α} {t : Token} {depth : Nat} {f : Frame α}
    {below : List (Frame α)} {p : Progress α} {events : List (Event α)}
    (h : Runs E A t depth f below p events) : p ≠ .shifted [] := by
  induction h with
  | complete | shift => simp
  | skip _ _ _ ih => exact ih
  | descend _ _ _ _ _ ih => exact ih
  | fill _ _ _ _ _ _ _ _ ih => exact ih

theorem Takes.stack_ne_nil {E : Engine} {A : Algebra α} {t : Token} {stack : List (Frame α)}
    {c : Commit α} {events : List (Event α)} (h : Takes E A t stack c events) : c.stack ≠ [] := by
  induction h with
  | fresh _ run | shift run =>
    rintro rfl
    exact run.stack_ne_nil rfl
  | reduce _ _ ih | restart _ _ ih => exact ih

/-- **A token of the word is taken for good**: what is waited for then is the rest of the word, and
root was reduced if nothing is in progress any more. -/
theorem advance_goes {E : Engine} {A : Algebra α} {blank : α} {t : Token} {w : List Symbol}
    {stack : List (Frame α)} (hs : Sound E.grammar Anything stack)
    (h : ∃ outline tape, trial E blank t.tag stack = .accepted outline tape ∧
      E.grammar.Yields (awaited outline) w) :
    ∃ c events, advance E A blank t stack = some (c, events) ∧
      E.grammar.Yields (awaited c.stack) w ∧ (c.stack = [] → c.root.isSome = true) := by
  obtain ⟨outline, tape, htrial, hword⟩ := h
  obtain ⟨c, events, hc, htakes, hx⟩ := exists_takes_of_accepted (A := A) rfl htrial
  have hreplay := hx []
  rw [List.append_nil] at hreplay
  have hadvance : advance E A blank t stack = some (Replayed.settled A ⟨c, events, []⟩) := by
    rw [advance_eq, htrial]
    dsimp only [Verdict.tape?, Option.bind_some]
    rw [hreplay]
    rfl
  have hsound : Sound E.grammar Anything c.stack := (htakes.sound (respects_anything A _) hs).1
  have hawaited : awaited c.stack = awaited outline := by
    rw [← awaited_map (fun _ => ()) c.stack, ← awaited_map (fun _ => ()) outline]
    exact congrArg awaited hc
  refine ⟨_, _, hadvance, ?_, fun hnil => ?_⟩
  · rw [awaited_settle hsound, hawaited]
    exact hword
  · obtain ⟨a, ha⟩ := Option.isSome_iff_exists.1 (root_isSome_settle htakes.stack_ne_nil hnil)
    show ((settle A c.stack).1.root.or c.root).isSome = true
    rw [ha]
    rfl

/-! ## Sessions -/

/-- **Nothing more is required**: root was reduced and nothing is in progress, or what every frame
still waits for stands for the empty word. That is what comes after its current element, and in the
innermost frame that element too, unless it was matched and may only be repeated. -/
def Parser.Satisfied (q : Parser) : Prop :=
  match q.stack with
  | [] => q.done = true
  | f :: below => q.grammar.Yields f.remaining [] ∧ ∀ k ∈ below, q.grammar.Yields k.todo.tail []

namespace Session

variable {g : Grammar} {settings : Settings} {x : Session} {t : Token} {w : List Symbol}

/-- A session goes on with a word: the stack waits for it, and root was reduced if nothing is in
progress. -/
structure Going (g : Grammar) (settings : Settings) (w : List Symbol) (x : Session) : Prop where
  made : x.Made g settings
  sound : Sound g Anything x.parser.stack
  awaits : g.Yields (awaited x.parser.stack) w
  done : x.parser.stack = [] → x.parser.done = true

theorem yields_tail_of_hosted {below : List (Frame α)} {s : Symbol} (hhost : Hosted below s)
    (h : g.Yields (resumption below) []) : ∀ k ∈ below, g.Yields k.todo.tail [] := by
  induction below generalizing s with
  | nil => exact List.forall_mem_nil _
  | cons k below ih =>
    obtain ⟨⟨e, es, hk, -⟩, hhost'⟩ := hhost
    rw [resumption_cons, Frame.resumed_of_cons hk, yields_append_nil_iff,
      yields_append_nil_iff] at h
    intro l hl
    rcases List.mem_cons.1 hl with rfl | hl
    · rw [hk]
      exact h.1.2
    · exact ih hhost' h.2 l hl

theorem Going.satisfied (hx : x.Going g settings []) : x.parser.Satisfied := by
  have hg : x.parser.grammar = g := by rw [Parser.grammar, hx.made.engine]; rfl
  have hawaits := hx.awaits
  rw [Parser.Satisfied, hg]
  cases hstack : x.parser.stack with
  | nil => exact hx.done hstack
  | cons f below =>
    rw [hstack, awaited, yields_append_nil_iff] at hawaits
    exact ⟨hawaits.1, yields_tail_of_hosted (hx.sound.hosted f below hstack) hawaits.2⟩

theorem Made.going_call (hx : x.Made g settings) (hs : Sound g Anything x.parser.stack)
    (h : ∃ c events, x.parser.commit t = some (c, events) ∧ g.Yields (awaited c.stack) w ∧
      (c.stack = [] → c.root.isSome = true)) :
    (x.call (.observe t)).accepted = x.accepted ++ [t] ∧
      (x.call (.observe t)).Going g settings w := by
  obtain ⟨c, events, hc, hword, hroot⟩ := h
  have hmade := hx.call (.observe t)
  have hsound := hx.sound_call hs (.observe t)
  rw [call_of_commit_some hx.ready hc] at hmade hsound ⊢
  refine ⟨rfl, hmade, hsound, hword, fun hnil => ?_⟩
  obtain ⟨a, ha⟩ := Option.isSome_iff_exists.1 (hroot hnil)
  rw [Parser.done, Parser.resultAfter, ha]
  rfl

theorem Made.going_first (hdet : g.Deterministic) (hrec : g.leftRecursion? = none) {r : Rule}
    (hr : g.rule? rootName = some r) (hx : x.Made g settings) (hidle : x.parser.stack = [])
    (hword : g.Yields [.symbol rootName] (t.tag :: w)) :
    (x.call (.observe t)).accepted = x.accepted ++ [t] ∧
      (x.call (.observe t)).Going g settings w := by
  have hE : x.parser.engine.grammar = g := by rw [hx.engine]; rfl
  subst hE
  refine hx.going_call (by rw [hidle]; exact sound_nil) ?_
  rw [Parser.commit, hidle]
  exact advance_goes sound_nil (trialFresh_goes _ hdet hrec hr hword)

theorem Going.next (hdet : g.Deterministic) (hrec : g.leftRecursion? = none)
    (hx : x.Going g settings (t.tag :: w)) :
    (x.call (.observe t)).accepted = x.accepted ++ [t] ∧
      (x.call (.observe t)).Going g settings w := by
  have hE : x.parser.engine.grammar = g := by rw [hx.made.engine]; rfl
  subst hE
  refine hx.made.going_call hx.sound (advance_goes hx.sound ?_)
  have hawaits := hx.awaits
  have hsound := hx.sound
  cases hstack : x.parser.stack with
  | nil =>
    rw [hstack] at hawaits
    cases hawaits
  | cons f below =>
    rw [hstack] at hawaits hsound
    exact trialFrom_goes _ hdet hrec hsound hawaits

theorem Going.run_append (hdet : g.Deterministic) (hrec : g.leftRecursion? = none) {ts : List Token}
    (hx : x.Going g settings (Token.tags ts ++ w)) :
    (x.run (ts.map .observe)).accepted = x.accepted ++ ts ∧
      (x.run (ts.map .observe)).Going g settings w := by
  induction ts generalizing x with
  | nil => exact ⟨(List.append_nil _).symm, hx⟩
  | cons t ts ih =>
    obtain ⟨hacc, hnext⟩ := hx.next hdet hrec
    obtain ⟨hacc', hgoing⟩ := ih hnext
    refine ⟨?_, hgoing⟩
    rw [List.map_cons]
    refine hacc'.trans ?_
    rw [hacc, List.append_assoc]
    rfl

theorem Going.run (hdet : g.Deterministic) (hrec : g.leftRecursion? = none) {ts : List Token}
    (hx : x.Going g settings (Token.tags ts)) :
    (x.run (ts.map .observe)).accepted = x.accepted ++ ts ∧
      (x.run (ts.map .observe)).Going g settings [] :=
  Going.run_append hdet hrec (by rwa [List.append_nil])

/-- **A word of a deterministic grammar is accepted to its end.** From any state without frames in
progress, all tokens of a non-empty word of root are accepted, and then nothing more is required. -/
theorem run_of_derives {definitions : NameMap Form} (hg : Grammar.build definitions = .ok g)
    (hdet : g.Deterministic) {settings : List Setting} {p : Parser}
    (hp : Parser.make (some g) settings = .ok p) {calls : List Call}
    (hidle : ((start p).run calls).parser.stack = []) {ts : List Token} (hne : ts ≠ [])
    (hword : g.Derives rootName (Token.tags ts)) :
    ((start p).run (calls ++ ts.map .observe)).accepted = ((start p).run calls).accepted ++ ts ∧
      ((start p).run (calls ++ ts.map .observe)).parser.Satisfied := by
  obtain ⟨c, hmade, -⟩ := exists_sound hp calls
  obtain ⟨r, hr⟩ := exists_rule_root hg
  have hrec := leftRecursion?_of_build hg
  have hrun : (start p).run (calls ++ ts.map .observe) =
      ((start p).run calls).run (ts.map .observe) := List.foldl_append
  rw [hrun]
  cases ts with
  | nil => exact absurd rfl hne
  | cons t ts =>
    obtain ⟨hacc, hgoing⟩ := hmade.going_first hdet hrec hr hidle (derives_iff_yields.1 hword)
    obtain ⟨hacc', hend⟩ := hgoing.run hdet hrec
    refine ⟨?_, hend.satisfied⟩
    rw [List.map_cons]
    refine hacc'.trans ?_
    rw [hacc, List.append_assoc]
    rfl

/-! ## Lists of two items -/

/-- What can begin the nonterminals of nested lists. -/
def nestedFirsts : NameMap (List Symbol) := .ofList
  [("root", ["("]), ("items", ["x", "("]), ("more", [","]), ("item", ["x", "("])]

/-- What can follow the symbols of nested lists. -/
def nestedFollows : NameMap (List Symbol) := .ofList
  [("root", [",", ")"]), ("items", [")"]), ("more", [",", ")"]), ("item", [",", ")"]),
    ("x", [",", ")"]), ("(", ["x", "(", ")"]), (")", [",", ")"]), (",", ["x", "("])]

theorem deterministic_nestedLists : nestedLists.Deterministic :=
  @Certified.deterministic nestedLists nestedFirsts nestedFollows (by decide +kernel)

/-- The tokens of a list of two items. -/
def pairTokens : List Token :=
  [⟨"(", .null⟩, ⟨"x", .null⟩, ⟨",", .null⟩, ⟨"x", .null⟩, ⟨")", .null⟩]

theorem derives_pairTokens : nestedLists.Derives rootName (Token.tags pairTokens) := by
  have hroot : nestedLists.rule? "root" =
      some [.symbol "(", .quantified .opt "items", .symbol ")"] := rfl
  have hitems : nestedLists.rule? "items" = some [.symbol "item", .quantified .star "more"] := rfl
  have hmore : nestedLists.rule? "more" = some [.symbol ",", .symbol "item"] := rfl
  have hitem : nestedLists.rule? "item" = some [.choice ["x", "root"]] := rfl
  have hx : ∀ {es w}, nestedLists.Yields es w →
      nestedLists.Yields (.symbol "item" :: es) ("x" :: w) :=
    fun h => .rule hitem (.choice List.mem_cons_self (.terminal rfl h))
  refine derives_iff_yields.2 (.rule hroot (.terminal rfl (.once (.rule hitems ?_))))
  exact hx (.once (.rule hmore (.terminal rfl (hx (.never rfl (.terminal rfl .nil))))))

theorem run_of_derives_nested : ∃ p, Grammar.build nestedForms = .ok nestedLists ∧
    nestedLists.Deterministic ∧ Parser.make (some nestedLists) [.predict] = .ok p ∧
    ((start p).run [.observe ⟨"x", .null⟩]).parser.stack = [] ∧ pairTokens ≠ [] ∧
    nestedLists.Derives rootName (Token.tags pairTokens) ∧
    ((start p).run ([.observe ⟨"x", .null⟩] ++ pairTokens.map .observe)).accepted =
      ((start p).run [.observe ⟨"x", .null⟩]).accepted ++ pairTokens ∧
    ((start p).run ([.observe ⟨"x", .null⟩] ++ pairTokens.map .observe)).parser.Satisfied :=
  ⟨_, build_nestedForms, deterministic_nestedLists, rfl, rfl, List.cons_ne_nil _ _,
    derives_pairTokens, @run_of_derives nestedLists nestedForms build_nestedForms
      deterministic_nestedLists [.predict] _ rfl [.observe ⟨"x", .null⟩] rfl pairTokens
      (List.cons_ne_nil _ _) derives_pairTokens⟩

end Session

end PushParser
