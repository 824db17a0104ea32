import PushParser.Proofs.Termination
import PushParser.Proofs.Traversal

/-!
# The top of the stack

A token that is taken may complete frames, begin a new root and enter nonterminals one inside the
other. It does so at the top of the stack: the frames that are neither taken off nor put on stay as
they were, but for the innermost of them, which moves on along its rule.

* `Frame.Continues`: a frame that moved on;
* **`Kept`**, `Parts`, **`ActsKeeping.parts`**: what moves in a row leave of a stack, one lemma for
  each kind of move;
* `lowest`, `ActsKeeping.lowest_eq`: how many frames that is;
* `EndsIn`, **`Takes.exists_endsIn`**: taking a token is reductions and then one run from the stack
  that they leave;
* **`Runs.exists_path`**: the nonterminals entered by a run are leftmost steps;
* **`Session.observe_keeps`**: a token accepted after any calls.
-/

namespace PushParser

variable {α : Type}

/-! ## Frames that move on -/

namespace Frame

variable {f k l : Frame α}

/-- **The frame moved on**: it is of the same nonterminal, its position is no earlier, and before
the position it had it holds what it held. -/
structure Continues (f k : Frame α) : Prop where
  lhs : k.lhs = f.lhs
  position : f.position ≤ k.position
  slots : k.slots.take f.position = f.slots.take f.position

theorem take_slots {i : Nat} (h : i ≤ f.position) : f.slots.take i = f.finished.take i := by
  rw [← length_finished] at h
  rw [slots]
  split
  · rfl
  · rw [List.take_append_of_le_length h]

theorem continues_of_finished (hlhs : k.lhs = f.lhs) (h : f.finished <+: k.finished) :
    f.Continues k := by
  have hposition : f.position ≤ k.position := by
    rw [← length_finished, ← length_finished]
    exact h.length_le
  refine ⟨hlhs, hposition, ?_⟩
  rw [take_slots hposition, take_slots (Nat.le_refl _), ← length_finished, List.take_length]
  exact (List.prefix_iff_eq_take.1 h).symm

theorem Continues.refl (f : Frame α) : f.Continues f := ⟨rfl, Nat.le_refl _, rfl⟩

theorem Continues.trans (h : f.Continues k) (h' : k.Continues l) : f.Continues l := by
  refine ⟨h'.lhs.trans h.lhs, h.position.trans h'.position, ?_⟩
  have hmin : min f.position k.position = f.position := Nat.min_eq_left h.position
  calc l.slots.take f.position
      = (l.slots.take k.position).take f.position := by rw [List.take_take, hmin]
    _ = (k.slots.take k.position).take f.position := by rw [h'.slots]
    _ = k.slots.take f.position := by rw [List.take_take, hmin]
    _ = f.slots.take f.position := h.slots

theorem continues_put (f : Frame α) (a : α) : f.Continues (f.put a) := by
  refine continues_of_finished (lhs_put f a) ?_
  cases htodo : f.todo with
  | nil => simp [put, htodo]
  | cons e es =>
    cases he : e.repeats with
    | true => simp [put, htodo, he, finished]
    | false =>
      rw [finished_put htodo he]
      exact List.prefix_append _ _

theorem continues_skip (f : Frame α) : f.Continues f.skip := by
  refine continues_of_finished (lhs_skip f) ?_
  cases htodo : f.todo with
  | nil => simp [skip, htodo]
  | cons e es =>
    rw [finished_skip htodo]
    exact List.prefix_append _ _

end Frame

/-! ## What moves leave of a stack -/

/-- **What is left of a stack**, innermost frame first, after moves that make the events known:
nothing, if there was nothing or root was reduced; or else frames as they were, below one that moved
on. -/
inductive Kept (stack : List (Frame α)) (events : List (Event α)) : List (Frame α) → Prop
  | nothing (h : stack = [] ∨ rootValues events ≠ []) : Kept stack events []
  | below {inner below : List (Frame α)} {f k : Frame α} (hstack : stack = inner ++ f :: below)
      (hk : f.Continues k) : Kept stack events (k :: below)

/-- The stack reached consists of frames that were created and of what is left, which is `kept`
frames. -/
def Parts (stack : List (Frame α)) (events : List (Event α)) (kept : Nat)
    (reached : List (Frame α)) : Prop :=
  ∃ created rest, reached = created ++ rest ∧ rest.length = kept ∧ Kept stack events rest

section Parts

variable {stack reached below : List (Frame α)} {events : List (Event α)} {n : Nat}
  {f k : Frame α}

theorem parts_refl (stack : List (Frame α)) : Parts stack [] stack.length stack := by
  refine ⟨[], stack, rfl, rfl, ?_⟩
  cases stack with
  | nil => exact .nothing (.inl rfl)
  | cons f below => exact .below (List.nil_append _).symm (.refl f)

theorem Parts.append (h : Parts stack events n reached) (events' : List (Event α)) :
    Parts stack (events ++ events') n reached := by
  obtain ⟨created, rest, hreached, hlength, hkept⟩ := h
  refine ⟨created, rest, hreached, hlength, ?_⟩
  cases hkept with
  | nothing h =>
    refine .nothing (h.imp_right fun hroot => ?_)
    rw [rootValues_append]
    exact List.append_ne_nil_of_left_ne_nil hroot _
  | below hstack hk => exact .below hstack hk

theorem Parts.push (h : Parts stack events n reached) (f : Frame α) :
    Parts stack events n (f :: reached) := by
  obtain ⟨created, rest, rfl, hlength, hkept⟩ := h
  exact ⟨f :: created, rest, rfl, hlength, hkept⟩

theorem Parts.top (h : Parts stack events n (f :: below)) (hk : f.Continues k) :
    Parts stack events n (k :: below) := by
  obtain ⟨created, rest, hreached, hlength, hkept⟩ := h
  cases created with
  | cons c created =>
    cases hreached
    exact ⟨k :: created, rest, rfl, hlength, hkept⟩
  | nil =>
    cases hkept with
    | nothing => cases hreached
    | below hstack hl =>
      cases hreached
      exact ⟨[], _, rfl, hlength, .below hstack (hl.trans hk)⟩

theorem Parts.pop (h : Parts stack events n (f :: k :: below)) :
    Parts stack events (min n (k :: below).length) (k :: below) := by
  obtain ⟨created, rest, hreached, rfl, hkept⟩ := h
  cases created with
  | cons c created =>
    obtain ⟨-, hbelow⟩ := List.cons.inj hreached
    have hle : rest.length ≤ (k :: below).length := by simp [hbelow]
    rw [Nat.min_eq_left hle]
    exact ⟨created, rest, hbelow, rfl, hkept⟩
  | nil =>
    cases hkept with
    | nothing => cases hreached
    | @below inner _ f' _ hstack _ =>
      cases hreached
      have hinner : stack = (inner ++ [f']) ++ k :: below := by
        rw [hstack, List.append_assoc, List.singleton_append]
      exact ⟨[], k :: below, rfl, by simp, .below hinner (.refl k)⟩

theorem parts_finish (A : Algebra α) (f : Frame α) :
    Parts stack (events ++ [f.reduction A 0]) 0 [] := by
  refine ⟨[], [], rfl, rfl, .nothing (.inr ?_)⟩
  rw [rootValues_append]
  exact List.append_ne_nil_of_right_ne_nil _ (List.cons_ne_nil _ _)

theorem ActsKeeping.parts {g : Grammar} {A : Algebra α}
    (h : ActsKeeping g A n stack events reached) : Parts stack events n reached := by
  induction h with
  | refl => exact parts_refl _
  | @tail n stack stack' stack'' events events' h move ih =>
    have hle := h.le_right
    cases move with
    | fresh hr =>
      rw [List.append_nil, Nat.min_eq_left (hle.trans (Nat.zero_le _))]
      exact ih.push _
    | @enter f below e es s r =>
      have hmin : min n (Frame.start s r :: f :: below).length = n :=
        Nat.min_eq_left (hle.trans (Nat.le_succ _))
      rw [List.append_nil, hmin]
      exact ih.push _
    | @skip f below =>
      have hmin : min n (f.skip :: below).length = n := Nat.min_eq_left hle
      rw [List.append_nil, hmin]
      exact ih.top (Frame.continues_skip f)
    | @shift f below e es t =>
      have hmin : min n (f.put (A.token t) :: below).length = n := Nat.min_eq_left hle
      rw [hmin]
      exact (ih.append _).top (Frame.continues_put f _)
    | reduce => exact (ih.append _).pop.top (Frame.continues_put _ _)
    | finish =>
      rw [List.length_nil, Nat.min_zero]
      exact parts_finish A _

end Parts

/-! ## How many frames are kept -/

/-- **The least number of frames that reductions leave**, when there are `n` at first. -/
def lowest (n : Nat) : List (Event α) → Nat
  | [] => n
  | .reduce depth _ _ _ :: events => lowest (min n depth) events
  | _ :: events => lowest n events

theorem lowest_append (n : Nat) (events events' : List (Event α)) :
    lowest n (events ++ events') = lowest (lowest n events) events' := by
  induction events generalizing n with
  | nil => rfl
  | cons e events ih =>
    rw [List.cons_append]
    cases e with
    | reduce depth => exact ih (min n depth)
    | shift | reject | told | nested => exact ih n

/-- **What was made known tells how many frames are kept.** -/
theorem ActsKeeping.lowest_eq {g : Grammar} {A : Algebra α} {n : Nat}
    {stack reached : List (Frame α)} {events : List (Event α)}
    (h : ActsKeeping g A n stack events reached) : lowest stack.length events = n := by
  induction h with
  | refl => rfl
  | @tail n stack stack' stack'' events events' h move ih =>
    have hle := h.le_right
    rw [lowest_append, ih]
    cases move with
    | fresh => exact (Nat.min_eq_left (hle.trans (Nat.zero_le _))).symm
    | enter => exact (Nat.min_eq_left (hle.trans (Nat.le_succ _))).symm
    | skip | shift => exact (Nat.min_eq_left hle).symm
    | reduce | finish => rfl

/-! ## Reductions and a last run -/

section Taking

variable {E : Engine} {A : Algebra α} {t : Token} {stack rest : List (Frame α)} {c : Commit α}
  {events : List (Event α)}

/-- **A last run that takes the token**: of the innermost frame, or of a new root. -/
inductive EndsIn (E : Engine) (A : Algebra α) (t : Token) :
    List (Frame α) → List (Frame α) → List (Event α) → Prop
  | fresh {r : Rule} {stack : List (Frame α)} {events : List (Event α)}
      (hr : E.rule? rootName = some r)
      (run : Runs E A t 1 (.start rootName r) [] (.shifted stack) events) :
      EndsIn E A t [] stack events
  | resumed {f : Frame α} {below stack : List (Frame α)} {events : List (Event α)}
      (run : Runs E A t (below.length + 1) f below (.shifted stack) events) :
      EndsIn E A t (f :: below) stack events

/-- **Taking a token is reductions and then one run** from the stack that they leave. -/
theorem Takes.exists_endsIn (htakes : Takes E A t stack c events) :
    ∃ rest events₁ events₂, events = events₁ ++ events₂ ∧
      ActsKeeping E.grammar A rest.length stack events₁ rest ∧
      EndsIn E A t rest c.stack events₂ := by
  induction htakes with
  | fresh hr run => exact ⟨[], [], _, rfl, .refl, .fresh hr run⟩
  | shift run => exact ⟨_, [], _, rfl, .refl, .resumed run⟩
  | reduce run _ ih =>
    obtain ⟨hacts, hl⟩ := run.actsKeeping rfl
    obtain ⟨rest, events₁, events₂, rfl, hrest, hlast⟩ := ih
    have hle := hrest.le_left
    rw [List.length_cons] at hle
    have hreduced := hrest.head (.reduce (hl _ rfl)) (Nat.min_eq_right (hle.trans (by simp)))
    have hall := hacts.trans hreduced (Nat.min_eq_right (hle.trans (by simp)))
    exact ⟨rest, _, events₂, by simp, hall, hlast⟩
  | restart run _ ih =>
    obtain ⟨hacts, hl⟩ := run.actsKeeping rfl
    obtain ⟨rest, events₁, events₂, rfl, hrest, hlast⟩ := ih
    have hle := hrest.le_left
    have hfinished := hrest.head (.finish (hl _ rfl)) (Nat.min_eq_right (hle.trans (Nat.zero_le _)))
    have hall := hacts.trans hfinished (Nat.min_eq_right (hle.trans (Nat.zero_le _)))
    exact ⟨rest, _, events₂, by simp, hall, hlast⟩

/-- **The nonterminals entered by a run** until it takes the token are leftmost steps. -/
theorem Runs.exists_path (hE : E.grammar.leftRecursion? = none) {depth : Nat} {f : Frame α}
    {below : List (Frame α)} {p : Progress α} (hrun : Runs E A t depth f below p events)
    {base path : List Symbol} (hd : Descent E.grammar base path f below)
    (hp : p = .shifted stack) :
    ∃ path', stack.map Frame.lhs = path' ++ base ∧
      path'.IsChain fun t s => t ∈ E.grammar.leftmost s := by
  induction hrun generalizing path with
  | complete => cases hp
  | shift =>
    cases hp
    refine ⟨path, ?_, hd.steps⟩
    rw [← hd.shape, List.map_cons, List.map_cons, Frame.lhs_put]
  | skip hf hq _ ih => exact ih (hd.leave hf hq).1 hp
  | descend hf hs hr _ _ ih =>
    cases hp
    exact ih (hd.enter hE hf hs hr).1 rfl
  | fill hf hs hr hq htrial _ _ _ ih' =>
    obtain ⟨fuel, trialBelow, tape, hcompleted⟩ := htrial
    have hempty := nullableIn_of_completed hs hr hcompleted
    exact ih' (hd.put hf hs hempty (first_of_admitsEmpty hq) _).1 hp

/-- The last run keeps the stack that it starts from, and enters leftmost steps above it. -/
theorem EndsIn.exists_path (hE : E.grammar.leftRecursion? = none)
    (h : EndsIn E A t rest stack events) (hs : Sound E.grammar Anything rest) :
    ActsKeeping E.grammar A rest.length rest events stack ∧
      ∃ path, stack.map Frame.lhs = path ++ rest.map Frame.lhs ∧
        path.IsChain fun t s => t ∈ E.grammar.leftmost s := by
  cases h with
  | fresh hr run =>
    have hacts := (run.actsKeeping rfl).1
    exact ⟨hacts.head (.fresh hr) (Nat.zero_min _), run.exists_path hE (descent_root hr) rfl⟩
  | @resumed f below stack events run =>
    have hf := hs.frames f List.mem_cons_self
    exact ⟨(run.actsKeeping rfl).1, run.exists_path hE (descent_resumed hf below) rfl⟩

theorem settleFrom_suffix (n : Nat) (f : Frame α) (below : List (Frame α)) :
    (settleFrom A n f below).1.stack.map Frame.lhs <:+ (f :: below).map Frame.lhs := by
  induction below generalizing n f with
  | nil =>
    rw [settleFrom]
    split
    · exact List.nil_suffix
    · exact List.suffix_rfl
  | cons k below ih =>
    rw [settleFrom]
    split
    · have hrest := ih (n - 1) (k.put (f.result A))
      rw [List.map_cons, Frame.lhs_put, ← List.map_cons] at hrest
      exact hrest.trans (List.suffix_cons _ _)
    · exact List.suffix_rfl

theorem settle_suffix (stack : List (Frame α)) :
    (settle A stack).1.stack.map Frame.lhs <:+ stack.map Frame.lhs := by
  cases stack with
  | nil => exact List.suffix_rfl
  | cons f below => exact settleFrom_suffix below.length f below

theorem suffix_of_append {created rest path base : List Symbol}
    (h : created ++ rest <:+ path ++ base)
    (hlength : rest.length = min base.length (created ++ rest).length) : created <:+ path := by
  obtain ⟨before, hbefore⟩ := h
  rcases Nat.le_total base.length (created ++ rest).length with hle | hle
  · rw [Nat.min_eq_left hle] at hlength
    rw [← List.append_assoc] at hbefore
    exact ⟨before, (List.append_inj' hbefore hlength).1⟩
  · -- no frame is left that was created
    rw [Nat.min_eq_right hle, List.length_append] at hlength
    have hnil : created = [] := List.eq_nil_of_length_eq_zero (by omega)
    rw [hnil]
    exact List.nil_suffix

/-- **A token that is taken leaves a stack in parts**, and the frames created for it are leftmost
steps, one inside the other. -/
theorem exists_parts_of_advance (hE : E.grammar.leftRecursion? = none) {blank : α}
    (h : advance E A blank t stack = some (c, events)) (hs : Sound E.grammar Anything stack) :
    ∃ created rest, c.stack = created ++ rest ∧
      ActsKeeping E.grammar A rest.length stack events c.stack ∧ Kept stack events rest ∧
      (created.map Frame.lhs).IsChain fun t s => t ∈ E.grammar.leftmost s := by
  obtain ⟨c', events', htakes, rfl, rfl⟩ := exists_takes_of_advance h
  obtain ⟨base, events₁, events₂, rfl, hreductions, hlast⟩ := htakes.exists_endsIn
  have hbase := (hreductions.actsAll.sound (respects_anything A E.grammar) hs).1
  obtain ⟨hrun, path, hpath, hsteps⟩ := hlast.exists_path hE hbase
  have htaken := hreductions.trans hrun (Nat.min_self _)
  have hall := htaken.trans (actsKeeping_settle c'.stack) rfl
  obtain ⟨created, rest, hreached, hlength, hkept⟩ := hall.parts
  refine ⟨created, rest, hreached, hlength ▸ hall, hkept, ?_⟩
  have hsuffix := settle_suffix (A := A) c'.stack
  rw [hreached, hpath, List.map_append] at hsuffix
  refine hsteps.suffix (suffix_of_append hsuffix ?_)
  rw [List.length_map, hlength, hreached, List.length_append, List.length_map, List.length_append,
    List.length_map, List.length_map]

end Taking

/-! ## Sessions -/

theorem length_le_nonterminals {g : Grammar} {P : Symbol → α → Prop} {frames : List (Frame α)}
    (hframes : ∀ f ∈ frames, f.WellFormed g P) (hnodup : (frames.map Frame.lhs).Nodup) :
    frames.length ≤ g.nonterminals.length := by
  have hsub : frames.map Frame.lhs ⊆ g.nonterminals := by
    intro s hs
    obtain ⟨f, hf, rfl⟩ := List.mem_map.1 hs
    obtain ⟨done, hrule, -⟩ := (hframes f hf).rule
    exact NameMap.mem_keys_iff.2 ⟨_, hrule⟩
  have hle := (hnodup.subperm hsub).length_le
  rwa [List.length_map] at hle

namespace Session

/-- **A token touches only the top of the stack.** Let a token be accepted after any calls. The
frames in progress then are those created by its moves, above those that were there all the time,
which are as many as the reductions left at least. None are left if there was no frame or root was
reduced; otherwise they are as they were, slots included, but for the innermost, which moved on. The
frames created are of different nonterminals, which bounds the depth. -/
theorem observe_keeps {definitions : NameMap Form} {g : Grammar}
    (hg : Grammar.build definitions = .ok g) {settings : List Setting} {p : Parser}
    (hp : Parser.make (some g) settings = .ok p) {calls : List Call} {x : Session}
    (hx : x = (start p).run calls) {t : Token} (h : (x.parser.observe t).accepted = true) :
    ∃ created rest, (x.parser.observe t).parser.stack = created ++ rest ∧
      ActsKeeping g x.parser.settings.actions.algebra rest.length x.parser.stack
        (x.parser.observe t).events (x.parser.observe t).parser.stack ∧
      rest.length = lowest x.parser.depth (x.parser.observe t).events ∧
      Kept x.parser.stack (x.parser.observe t).events rest ∧
      (created.map Frame.lhs).Nodup ∧
      (x.parser.observe t).parser.depth ≤ x.parser.depth + g.nonterminals.length := by
  obtain ⟨c, hmade, hsound⟩ := exists_sound hp calls
  rw [← hx] at hmade hsound
  have hnone := Grammar.leftRecursion?_of_build hg
  have hE : x.parser.engine.grammar = g := by rw [hmade.engine]; rfl
  cases hc : x.parser.commit t with
  | none =>
    obtain ⟨hrefused, -⟩ := Parser.observe_of_commit_none hmade.ready hc
    cases h.symm.trans hrefused
  | some y =>
    obtain ⟨c', events⟩ := y
    rw [← hE] at hnone hsound
    obtain ⟨created, rest, hstack, hacts, hkept, hsteps⟩ := exists_parts_of_advance hnone hc hsound
    have hnodup := Grammar.nodup_of_steps hnone hsteps
    have hframes := (advance_sound (respects_anything _ _) hc hsound).frames
    rw [hE] at hacts hframes
    rw [Parser.observe_of_commit_some hmade.ready hc]
    refine ⟨created, rest, hstack, hacts, hacts.lowest_eq.symm, hkept, hnodup, ?_⟩
    have hcreated : created.length ≤ g.nonterminals.length := by
      refine length_le_nonterminals (fun f hf => hframes f ?_) hnodup
      rw [hstack]
      exact List.mem_append_left _ hf
    calc c'.stack.length = created.length + rest.length := by rw [hstack, List.length_append]
      _ ≤ x.parser.stack.length + g.nonterminals.length := by
        have hle := hacts.le_left
        omega

/-- In `((x),` the comma enters one more frame, on top of the list and the root that it belongs
to. -/
theorem observe_keeps_nested : ∃ p x,
    Grammar.build nestedForms = .ok nestedLists ∧
    Parser.make (some nestedLists) [.predict] = .ok p ∧
    x = (start p).run [.observe ⟨"(", .null⟩, .observe ⟨"(", .null⟩, .observe ⟨"x", .null⟩,
      .observe ⟨")", .null⟩] ∧
    (x.parser.observe ⟨",", .null⟩).accepted = true ∧
    x.parser.stack.map Frame.lhs = ["items", "root"] ∧
    (x.parser.observe ⟨",", .null⟩).parser.stack.map Frame.lhs = ["more", "items", "root"] ∧
    ∃ created rest, (x.parser.observe ⟨",", .null⟩).parser.stack = created ++ rest ∧
      ActsKeeping nestedLists x.parser.settings.actions.algebra rest.length x.parser.stack
        (x.parser.observe ⟨",", .null⟩).events (x.parser.observe ⟨",", .null⟩).parser.stack ∧
      rest.length = lowest x.parser.depth (x.parser.observe ⟨",", .null⟩).events ∧
      Kept x.parser.stack (x.parser.observe ⟨",", .null⟩).events rest ∧
      (created.map Frame.lhs).Nodup ∧
      (x.parser.observe ⟨",", .null⟩).parser.depth ≤
        x.parser.depth + nestedLists.nonterminals.length :=
  ⟨_, _, build_nestedForms, rfl, rfl, rfl, rfl, rfl,
    @observe_keeps nestedForms nestedLists build_nestedForms [.predict] _ rfl _ _ rfl
      ⟨",", .null⟩ rfl⟩

end Session

end PushParser
