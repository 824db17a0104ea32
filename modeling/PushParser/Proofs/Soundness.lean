import PushParser.Parser.Tree
import PushParser.Proofs.Session

/-!
# Every parse is a derivation

Parsed in the algebra of trees, the frames of a stack hold the trees matched so far, and root is
reduced to derivation trees of the grammar. No token is lost, doubled or moved on the way. Every
other algebra sees the image of that (`advance_map`), so the values a parser yields are those of
derivation trees.

* `Tree.respects`: what trees are reduced to derives its nonterminal;
* `held`: the tokens that a stack holds, outermost frame first;
* `Runs.held_eq`, `Takes.held_eq`, `held_settle`: where the tokens go when one is taken;
* `rootValues`: what root was reduced to;
* **`advance_tree`**: one token, parsed to trees;
* **`Session.Account`**, **`Session.exists_account`**: a session adds up to derivation trees.
-/

namespace PushParser

variable {α β : Type}

/-! ## Trees that derive -/

theorem Fits.of_slotFits {g : Grammar} {e : Element} {slot : Slot Tree}
    (h : SlotFits (Derivation g) e slot) : Fits g e slot := by
  cases h with
  | symbol h => exact .symbol h
  | choice hs h => exact .choice hs h
  | absent => exact .absent
  | present h => exact .present h
  | star h => exact .star h
  | plus h hne => exact .plus h hne

theorem Matches.of_forall₂ {g : Grammar} {r : Rule} {slots : List (Slot Tree)}
    (h : List.Forall₂ (SlotFits (Derivation g)) r slots) : Matches g r slots := by
  induction h with
  | nil => exact .nil
  | cons h _ ih => exact .cons (.of_slotFits h) ih

/-- **A reduction to a tree derives its nonterminal.** -/
theorem Tree.respects (g : Grammar) : Tree.algebra.Respects g (Derivation g) where
  token _ h := .leaf h
  node hr hs := .node hr (.of_forall₂ hs)

/-! ## Tokens in slots -/

namespace Tree

@[simp] theorem leavesOfSlots_append (ss ss' : List (Slot Tree)) :
    leavesOfSlots (ss ++ ss') = leavesOfSlots ss ++ leavesOfSlots ss' := by
  simp [leavesOfSlots_eq]

@[simp] theorem leavesOfSlots_leave (es : Rule) :
    leavesOfSlots (es.map fun e => (.leave e [] : Slot Tree)) = [] := by
  induction es with
  | nil => rfl
  | cons e es ih =>
    have he : leavesOfSlot (.leave e [] : Slot Tree) = [] := by
      unfold Slot.leave
      split <;> rfl
    rw [List.map_cons, leavesOfSlots, he, ih, List.nil_append]

end Tree

open PushParser.Tree (leavesOfSlots leavesOfSlot leavesOfTrees)

theorem Frame.leaves_slots {f : Frame Tree} {e : Element} {es : Rule} (h : f.todo = e :: es) :
    leavesOfSlots f.slots =
      leavesOfSlots f.finished ++ leavesOfSlot (.leave e f.repeated.reverse) := by
  rw [slots, h]
  simp [leavesOfSlots]

theorem Frame.leaves_slots_of_bare {f : Frame Tree} (h : f.repeated = []) :
    leavesOfSlots f.slots = leavesOfSlots f.finished := by
  cases hf : f.todo with
  | nil => rw [slots, hf]
  | cons e es =>
    have he : leavesOfSlot (.leave e [] : Slot Tree) = [] := by
      unfold Slot.leave
      split <;> rfl
    rw [leaves_slots hf, h, List.reverse_nil, he, List.append_nil]

/-- **A match adds its tokens at the end.** -/
theorem Frame.leaves_slots_put {g : Grammar} {P : Symbol → Tree → Prop} {f : Frame Tree}
    {e : Element} {es : Rule} (hf : f.WellFormed g P) (h : f.todo = e :: es) (a : Tree) :
    leavesOfSlots (f.put a).slots = leavesOfSlots f.slots ++ a.leaves := by
  cases he : e.repeats with
  | true =>
    have hput : f.put a = { f with repeated := a :: f.repeated } := by simp [put, h, he]
    have hfin : (f.put a).finished = f.finished := by rw [hput]; rfl
    have htodo : (f.put a).todo = e :: es := by rw [hput]; exact h
    have hrep : (f.put a).repeated = a :: f.repeated := by rw [hput]
    rw [leaves_slots htodo, leaves_slots h, hfin, hrep, Slot.leave, if_pos he, Slot.leave,
      if_pos he]
    simp [leavesOfSlot, Tree.leavesOfTrees_eq]
  | false =>
    have hrep : f.repeated = [] := hf.repeated_eq_nil h he
    have hput : (f.put a).repeated = [] := by simp [put, h, he, hrep]
    rw [leaves_slots_of_bare hput, leaves_slots_of_bare hrep, finished_put h he]
    simp [leavesOfSlots, leavesOfSlot]

/-- **The tokens a stack holds**, outermost frame first. -/
def held (stack : List (Frame Tree)) : List Token :=
  stack.reverse.flatMap fun f => leavesOfSlots f.slots

@[simp] theorem held_nil : held [] = [] := rfl

@[simp] theorem held_cons (f : Frame Tree) (below : List (Frame Tree)) :
    held (f :: below) = held below ++ leavesOfSlots f.slots := by
  simp [held]

theorem leaves_result (f : Frame Tree) :
    (f.result Tree.algebra).leaves = leavesOfSlots f.slots := by
  rw [Frame.result, Tree.algebra, Tree.leaves]

@[simp] theorem leaves_slots_start (s : Symbol) (r : Rule) :
    leavesOfSlots (Frame.start s r : Frame Tree).slots = [] := by
  rw [Frame.leaves_slots_of_bare rfl]
  rfl

/-! ## Where the tokens go -/

section Held

variable {E : Engine} {t : Token}

/-- What becomes of the tokens when a frame runs on top of `below`. -/
def Progress.Holds (t : Token) (f : Frame Tree) (below : List (Frame Tree)) :
    Progress Tree → Prop
  | .shifted stack => held stack = held (f :: below) ++ [t]
  | .completed k => leavesOfSlots k.slots = leavesOfSlots f.slots

/-- **A run adds the token at the end**, or completes a frame with the tokens it had. -/
theorem Runs.held_eq {depth : Nat} {f : Frame Tree} {below : List (Frame Tree)} {p : Progress Tree}
    {events : List (Event Tree)} (hrun : Runs E Tree.algebra t depth f below p events)
    (h : Sound E.grammar (Derivation E.grammar) (f :: below)) : p.Holds t f below := by
  have hA := Tree.respects E.grammar
  induction hrun with
  | complete hf => exact rfl
  | @shift depth f below e es hf hs hn =>
    have hput := Frame.leaves_slots_put (h.frames f List.mem_cons_self) hf (Tree.algebra.token t)
    have htoken : (Tree.algebra.token t).leaves = [t] := by rw [Tree.algebra, Tree.leaves]
    rw [Progress.Holds, held_cons, held_cons, hput, htoken, List.append_assoc]
  | @skip depth f below q s es p events hf hq _ ih =>
    have hskip := (h.frames f List.mem_cons_self).skip hf hq
    have hp := ih (h.replace hskip (Frame.lhs_skip _))
    cases p with
    | shifted stack => rwa [Progress.Holds, held_cons, Frame.slots_skip, ← held_cons] at hp
    | completed k => rwa [Progress.Holds, Frame.slots_skip] at hp
  | @descend depth f below e es s r stack events hf hs hr _ _ ih =>
    have hp := ih (h.enter hf hs hr)
    rwa [Progress.Holds, held_cons, leaves_slots_start, List.append_nil] at hp
  | @fill depth f below e es s r k p events events' hf hs hr hq _ inner _ ih ih' =>
    have henter := h.enter hf hs hr
    obtain ⟨hk, -, hsound⟩ := inner.sound hA henter
    have hp := ih' (hsound.reduce hA hk)
    have hleaves : leavesOfSlots k.slots = [] := (ih henter).trans (leaves_slots_start s r)
    have hput := Frame.leaves_slots_put (h.frames f List.mem_cons_self) hf
      (k.result Tree.algebra)
    rw [leaves_result, hleaves, List.append_nil] at hput
    cases p with
    | shifted stack => rwa [Progress.Holds, held_cons, hput, ← held_cons] at hp
    | completed l => rwa [Progress.Holds, hput] at hp

theorem Takes.root_eq_none {A : Algebra α} {c : Commit α} {events : List (Event α)}
    (h : Takes E A t [] c events) : c.root = none := by
  cases h with
  | fresh => rfl

/-- **A stack that takes a token holds it last**, apart from what root was reduced to. -/
theorem Takes.held_eq {stack : List (Frame Tree)} {c : Commit Tree} {events : List (Event Tree)}
    (htakes : Takes E Tree.algebra t stack c events)
    (h : Sound E.grammar (Derivation E.grammar) stack) :
    c.root.toList.flatMap Tree.leaves ++ held c.stack =
      held stack ++ [t] := by
  have hA := Tree.respects E.grammar
  induction htakes with
  | fresh hr run =>
    have hp := run.held_eq (sound_root hr)
    rw [Progress.Holds, held_cons, leaves_slots_start] at hp
    simpa using hp
  | shift run => exact run.held_eq h
  | @reduce f k l below c events events' run _ ih =>
    obtain ⟨hl, -, hsound⟩ := run.sound hA h
    have hleaves : leavesOfSlots l.slots = leavesOfSlots f.slots := run.held_eq h
    obtain ⟨e, es, hk, -⟩ := (sound_cons_iff.1 h).2.1.1
    have hput := Frame.leaves_slots_put (h.frames k (by simp)) hk (l.result Tree.algebra)
    rw [leaves_result, hleaves] at hput
    rw [ih (hsound.reduce hA hl), held_cons, hput, held_cons, held_cons]
    simp only [List.append_assoc]
  | @restart f l c events events' run rest ih =>
    have hleaves : leavesOfSlots l.slots = leavesOfSlots f.slots := run.held_eq h
    have hc := ih sound_nil
    rw [rest.root_eq_none] at hc
    have hroot : (c.orRoot (l.result Tree.algebra)).root = some (l.result Tree.algebra) := by
      rw [Commit.orRoot, rest.root_eq_none]
      rfl
    have hstack : (c.orRoot (l.result Tree.algebra)).stack = c.stack := rfl
    rw [hroot, hstack, show held c.stack = [t] by simpa using hc]
    simp [leaves_result, hleaves]

theorem held_settleFrom {g : Grammar} {f : Frame Tree} {below : List (Frame Tree)}
    (h : Sound g (Derivation g) (f :: below)) (n : Nat) :
    (settleFrom Tree.algebra n f below).1.root.toList.flatMap Tree.leaves ++
      held (settleFrom Tree.algebra n f below).1.stack =
        held (f :: below) := by
  induction below generalizing n f with
  | nil =>
    rw [settleFrom]
    split
    · simp [leaves_result]
    · simp
  | cons k below ih =>
    rw [settleFrom]
    split
    · next hc =>
      obtain ⟨e, es, hk, -⟩ := (sound_cons_iff.1 h).2.1.1
      have hput := Frame.leaves_slots_put (h.frames k (by simp)) hk (f.result Tree.algebra)
      rw [leaves_result] at hput
      have hs := h.reduce (Tree.respects g) (List.isEmpty_iff.1 hc)
      rw [ih hs (n - 1), held_cons, hput, held_cons, held_cons, List.append_assoc]
    · simp

theorem held_settle {g : Grammar} {stack : List (Frame Tree)}
    (h : Sound g (Derivation g) stack) :
    (settle Tree.algebra stack).1.root.toList.flatMap Tree.leaves ++
      held (settle Tree.algebra stack).1.stack = held stack := by
  cases stack with
  | nil => rfl
  | cons f below => exact held_settleFrom h below.length

end Held

/-! ## What root was reduced to -/

/-- What root was reduced to, if the event is a reduction that leaves no frame. -/
def Event.rootValue? : Event α → Option α
  | .reduce 0 _ _ a => some a
  | _ => none

/-- **What root was reduced to**, in order. -/
def rootValues (events : List (Event α)) : List α := events.filterMap Event.rootValue?

@[simp] theorem rootValues_append (es es' : List (Event α)) :
    rootValues (es ++ es') = rootValues es ++ rootValues es' := List.filterMap_append

theorem rootValues_map (h : α → β) (events : List (Event α)) :
    rootValues (events.map (Event.map h)) = (rootValues events).map h := by
  have he : Event.rootValue? ∘ Event.map h = fun e : Event α => e.rootValue?.map h := by
    funext e
    rcases e with _ | ⟨_ | _, _, _, _⟩ | _ | _ | _ <;> rfl
  rw [rootValues, rootValues, List.filterMap_map, he, List.map_filterMap]

theorem rootValues_of_isRejection {events : List (Event α)}
    (h : ∀ e ∈ events, e.isRejection = true) : rootValues events = [] := by
  refine List.filterMap_eq_nil_iff.2 fun e he => ?_
  have hr := h e he
  cases e with
  | shift | reduce => cases hr
  | reject | told | nested => rfl

section Roots

variable {E : Engine} {A : Algebra α} {t : Token}

theorem rootValues_reduction (f : Frame α) (depth : Nat) (events : List (Event α)) :
    rootValues (f.reduction A depth :: events) =
      (if depth = 0 then [f.result A] else []) ++ rootValues events := by
  cases depth <;> rfl

theorem Runs.rootValues_eq {depth : Nat} {f : Frame α} {below : List (Frame α)} {p : Progress α}
    {events : List (Event α)} (hrun : Runs E A t depth f below p events) (hd : depth ≠ 0) :
    rootValues events = [] := by
  induction hrun with
  | complete | shift => rfl
  | skip _ _ _ ih => exact ih hd
  | descend _ _ _ _ _ ih => exact ih (Nat.succ_ne_zero _)
  | fill _ _ _ _ _ _ _ ih ih' =>
    rw [rootValues_append, ih (Nat.succ_ne_zero _), rootValues_reduction, if_neg hd, ih' hd]
    rfl

theorem Takes.rootValues_eq {stack : List (Frame α)} {c : Commit α} {events : List (Event α)}
    (htakes : Takes E A t stack c events) : rootValues events = c.root.toList := by
  induction htakes with
  | fresh _ run => exact run.rootValues_eq Nat.one_ne_zero
  | shift run => exact run.rootValues_eq (Nat.succ_ne_zero _)
  | reduce run _ ih =>
    rw [rootValues_append, run.rootValues_eq (Nat.succ_ne_zero _), rootValues_reduction,
      if_neg (Nat.succ_ne_zero _), ih]
    rfl
  | restart run rest ih =>
    rw [rootValues_append, run.rootValues_eq Nat.one_ne_zero, rootValues_reduction, if_pos rfl, ih,
      Commit.orRoot, rest.root_eq_none]
    rfl

theorem rootValues_settleFrom (f : Frame α) (below : List (Frame α)) :
    rootValues (settleFrom A below.length f below).2 =
      (settleFrom A below.length f below).1.root.toList := by
  induction below generalizing f with
  | nil =>
    rw [List.length_nil, settleFrom]
    split <;> rfl
  | cons k below ih =>
    rw [List.length_cons, settleFrom]
    split
    · exact ih (k.put (f.result A))
    · rfl

theorem rootValues_settle (stack : List (Frame α)) :
    rootValues (settle A stack).2 = (settle A stack).1.root.toList := by
  cases stack with
  | nil => rfl
  | cons f below => exact rootValues_settleFrom f below

/-- The last value of root is the one a commit keeps. -/
theorem root_eq_getLast?_of_advance {blank : α} {stack : List (Frame α)} {c : Commit α}
    {events : List (Event α)} (h : advance E A blank t stack = some (c, events)) :
    c.root = (rootValues events).getLast? := by
  obtain ⟨c', events', htakes, rfl, rfl⟩ := exists_takes_of_advance h
  rw [rootValues_append, htakes.rootValues_eq, rootValues_settle]
  cases (settle A c'.stack).1.root <;> cases c'.root <;> rfl

end Roots

/-! ## One token -/

/-- **A token that is taken, parsed to trees**: the stack stays sound, root is reduced to
derivation trees, and the trees and the stack hold the tokens held before and then the new one. -/
theorem advance_tree {E : Engine} {t : Token} {blank : Tree} {stack : List (Frame Tree)}
    {c : Commit Tree} {events : List (Event Tree)}
    (h : advance E Tree.algebra blank t stack = some (c, events))
    (hs : Sound E.grammar (Derivation E.grammar) stack) :
    Sound E.grammar (Derivation E.grammar) c.stack ∧
      (∀ a ∈ rootValues events, Derivation E.grammar rootName a) ∧
      (rootValues events).flatMap Tree.leaves ++ held c.stack = held stack ++ [t] := by
  have hA := Tree.respects E.grammar
  obtain ⟨c', events', htakes, rfl, rfl⟩ := exists_takes_of_advance h
  obtain ⟨hstack, hroot⟩ := htakes.sound hA hs
  obtain ⟨hstack', hroot'⟩ := settle_sound hA hstack
  rw [rootValues_append, htakes.rootValues_eq, rootValues_settle]
  refine ⟨hstack', fun a ha => ?_, ?_⟩
  · rcases List.mem_append.1 ha with ha | ha
    · exact hroot a (Option.mem_toList.1 ha)
    · exact hroot' a (Option.mem_toList.1 ha)
  · rw [List.flatMap_append, List.append_assoc, held_settle hstack, htakes.held_eq hs]

/-! ## Sessions -/

namespace Session

/-- **What a session adds up to**: the trees of the root reductions since the last reset, in order,
and the partial trees of the frames in progress. -/
structure Account (g : Grammar) (x : Session) (trees : List Tree) (frames : List (Frame Tree)) :
    Prop where
  /-- Root was reduced to derivation trees of root. -/
  derivation : ∀ a ∈ trees, Derivation g rootName a
  /-- The values root was reduced to are those of the trees. -/
  reductions : rootValues x.events = trees.map (Tree.fold x.parser.settings.actions.algebra)
  /-- The frames hold the values of partial trees. -/
  stack : x.parser.stack = frames.map (Frame.map (Tree.fold x.parser.settings.actions.algebra))
  /-- The partial trees are derivations as far as they go. -/
  sound : Sound g (Derivation g) frames
  /-- The leaves of the trees and then of the partial trees are the tokens accepted. -/
  leaves : trees.flatMap Tree.leaves ++ held frames = x.accepted
  /-- The result is the value of the last tree. -/
  result : ∀ v, x.parser.result = some v →
    trees.getLast?.map (Tree.fold x.parser.settings.actions.algebra) = some v
  /-- Between two parses there is no other result. -/
  idle : x.parser.stack = [] →
    x.parser.result = trees.getLast?.map (Tree.fold x.parser.settings.actions.algebra)

variable {g : Grammar} {settings : Settings} {x : Session} {trees : List Tree}
  {frames : List (Frame Tree)}

theorem account_start {p : Parser} (hstack : p.stack = []) (hresult : p.result = none) :
    Account g (start p) [] [] where
  derivation := List.forall_mem_nil _
  reductions := rfl
  stack := hstack
  sound := sound_nil
  leaves := rfl
  result _ hv := absurd (hresult.symm.trans hv) (by simp)
  idle _ := hresult

/-- **A token that is taken on values is taken on the trees that they are of.** -/
theorem exists_commit_tree {p : Parser}
    (hstack : p.stack = frames.map (Frame.map (Tree.fold p.settings.actions.algebra))) {t : Token}
    {c : Commit Value} {events : List (Event Value)} (hc : p.commit t = some (c, events)) :
    ∃ c' events', advance p.engine Tree.algebra default t frames = some (c', events') ∧
      c = c'.map (Tree.fold p.settings.actions.algebra) ∧
      events = events'.map (Event.map (Tree.fold p.settings.actions.algebra)) := by
  rw [Parser.commit, hstack, advance_map p.engine (Tree.hom_fold _) t default] at hc
  obtain ⟨⟨c', events'⟩, hadv, heq⟩ := Option.map_eq_some_iff.1 hc
  rw [Prod.mk.injEq] at heq
  exact ⟨c', events', hadv, heq.1.symm, heq.2.symm⟩

theorem Account.take (hx : x.Made g settings) (h : Account g x trees frames) {t : Token}
    {c : Commit Value} {events : List (Event Value)}
    (hc : x.parser.commit t = some (c, events)) :
    ∃ new frames', Account g (x.call (.observe t)) (trees ++ new) frames' := by
  have hE : x.parser.engine.grammar = g := by rw [hx.engine]; rfl
  -- the token is taken on the partial trees, and the values are their image
  obtain ⟨c', events', hadv, rfl, rfl⟩ := exists_commit_tree h.stack hc
  obtain ⟨hsound, hder, hheld⟩ := advance_tree hadv (by rw [hE]; exact h.sound)
  rw [hE] at hsound hder
  have hroot := root_eq_getLast?_of_advance hadv
  have hlast : (trees ++ rootValues events').getLast? = c'.root.or trees.getLast? := by
    rw [List.getLast?_append, ← hroot]
  rw [call_of_commit_some hx.ready hc]
  refine ⟨rootValues events', c'.stack, ⟨?_, ?_, rfl, hsound, ?_, ?_, ?_⟩⟩
  · intro a ha
    rcases List.mem_append.1 ha with ha | ha
    · exact h.derivation a ha
    · exact hder a ha
  · dsimp only
    rw [rootValues_append, h.reductions, rootValues_map, List.map_append]
  · rw [List.flatMap_append, List.append_assoc, hheld, ← List.append_assoc, h.leaves]
  · intro v hv
    rw [hlast]
    cases hr : c'.root with
    | some a =>
      simp only [Parser.resultAfter, Commit.map, hr, Option.map_some, Option.some_or] at hv
      exact hv
    | none =>
      simp only [Parser.resultAfter, Commit.map, hr, Option.map_none, Option.none_or] at hv
      split at hv
      · cases hv
      · exact h.result v hv
  · intro hidle
    rw [hlast]
    cases hr : c'.root with
    | some a =>
      simp only [Parser.resultAfter, Commit.map, hr, Option.map_some, Option.some_or]
    | none =>
      -- a token that is taken is in a tree or on the stack
      have hnil : c'.stack = [] := List.map_eq_nil_iff.1 hidle
      have hempty : rootValues events' = [] := List.getLast?_eq_none_iff.1 (hroot.symm.trans hr)
      rw [hnil, hempty] at hheld
      exact absurd hheld.symm (by simp)

theorem Account.call (hx : x.Made g settings) (h : Account g x trees frames) (c : Call) :
    ∃ trees' frames', Account g (x.call c) trees' frames' := by
  cases c with
  | reset =>
    refine ⟨[], [], ⟨List.forall_mem_nil _, rfl, rfl, sound_nil, rfl, fun v hv => ?_,
      fun _ => rfl⟩⟩
    cases hv
  | observe t =>
    cases hc : x.parser.commit t with
    | some y =>
      obtain ⟨new, frames', h'⟩ := h.take hx hc
      exact ⟨trees ++ new, frames', h'⟩
    | none =>
      obtain ⟨r, events, hcall, hevents⟩ := call_of_commit_none hx.ready hc
      have hroot := rootValues_of_isRejection hevents
      refine ⟨trees, frames, ?_⟩
      rw [hcall]
      refine ⟨h.derivation, ?_, h.stack, h.sound, h.leaves, h.result, h.idle⟩
      dsimp only
      rw [rootValues_append, hroot, List.append_nil]
      exact h.reductions

theorem exists_account_of_make {settings : List Setting} {p : Parser}
    (hp : Parser.make (some g) settings = .ok p) (calls : List Call) :
    ∃ c, ((start p).run calls).Made g c ∧
      ∃ trees frames, Account g ((start p).run calls) trees frames := by
  obtain ⟨c, rfl⟩ := Parser.eq_of_make hp
  refine ⟨c, run_induction (I := fun x => x.Made g c ∧ ∃ trees frames, Account g x trees frames)
    ⟨made_start, [], [], account_start rfl rfl⟩ (fun y call hy => ?_) calls⟩
  obtain ⟨hmade, trees, frames, h⟩ := hy
  exact ⟨hmade.call call, h.call hmade call⟩

theorem result_observe_of_rootValues {p : Parser} (hp : p.Ready) {t : Token} {v : Value}
    (h : (rootValues (p.observe t).events).getLast? = some v) :
    (p.observe t).parser.result = some v := by
  cases hc : p.commit t with
  | none =>
    obtain ⟨-, -, hevents⟩ := Parser.observe_of_commit_none hp hc
    rw [rootValues_of_isRejection hevents] at h
    cases h
  | some y =>
    obtain ⟨c, events⟩ := y
    rw [Parser.observe_of_commit_some hp hc] at h ⊢
    have hroot := root_eq_getLast?_of_advance hc
    dsimp only at h ⊢
    rw [Parser.resultAfter, hroot, h, Option.some_or]

/-- **Every parse is a derivation.** After any calls, root was reduced to the values of derivation
trees and the frames in progress hold those of partial ones; the leaves of all of them are the
tokens accepted since the last reset, in order; and the value that the result takes from a token is
that of the last tree. -/
theorem exists_account {settings : List Setting} {p : Parser}
    (hp : Parser.make (some g) settings = .ok p) (calls : List Call) :
    (∃ trees frames, Account g ((start p).run calls) trees frames) ∧
      ∀ t v, (rootValues (((start p).run calls).parser.observe t).events).getLast? = some v →
        (((start p).run calls).parser.observe t).parser.result = some v := by
  obtain ⟨c, hmade, haccount⟩ := exists_account_of_make hp calls
  exact ⟨haccount, fun t v h => result_observe_of_rootValues hmade.ready h⟩

/-- A list that is begun and given up, then one that is read to its end, with a token refused on
the way. -/
def nestedCalls : List Call := [.observe ⟨"(", .null⟩, .reset, .observe ⟨"(", .null⟩,
  .observe ⟨",", .null⟩, .observe ⟨"x", .null⟩, .observe ⟨")", .null⟩]

theorem exists_account_nested : ∃ p, Parser.make (some nestedLists) [.predict] = .ok p ∧
    (∃ trees frames, Account nestedLists ((start p).run nestedCalls) trees frames) ∧
    ∀ t v, (rootValues (((start p).run nestedCalls).parser.observe t).events).getLast? = some v →
      (((start p).run nestedCalls).parser.observe t).parser.result = some v :=
  ⟨_, rfl, @exists_account nestedLists [.predict] _ rfl nestedCalls⟩

end Session

end PushParser
