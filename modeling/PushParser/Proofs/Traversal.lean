import PushParser.Proofs.Rejection
import PushParser.Proofs.Representation
import PushParser.Proofs.Soundness

/-!
# Events in the order of the trees

What a parser makes known of a parse is the traversal of its derivation trees, children first and
from left to right: one event for each token and one for each reduction, and none for a choice that
came to nothing.

* `Frame.contents`, `Frame.contents_put`: what a frame holds, in order;
* `Tree.traversal`, `traversed`: the events of a tree, and of the partial trees of a stack;
* **`Acts`**, `ActsAll`, `ActsKeeping`: what one move does to the frames in progress and makes
  known, and moves in a row;
* `Runs.actsKeeping`, `Takes.actsAll`, `actsKeeping_settle`, `actsAll_of_advance`: taking a token is
  such moves, with the events that it makes known;
* `Acts.lift`: a move on the image of some frames is the image of a move;
* **`Acts.traversed_eq`**, `ActsAll.traversed_eq`: a move makes known what it adds to the traversal;
* `shifts`, `Takes.shifts_eq`: a token that is taken is shifted once;
* **`Session.exists_traversal`**: what a session makes known since the last reset.
-/

namespace PushParser

variable {α β : Type}

/-! ## What a frame holds -/

namespace Slot

/-- The matches in a slot, in order. -/
def contents : Slot α → List α
  | .vacant => []
  | .one a => [a]
  | .many as => as

@[simp] theorem contents_leave (e : Element) (as : List α) :
    (leave e as).contents = if e.repeats then as else [] := by
  unfold leave
  split <;> rfl

end Slot

namespace Frame

variable {g : Grammar} {P : Symbol → α → Prop} {f : Frame α}

/-- **The matches that a frame holds**, in order. -/
def contents (f : Frame α) : List α := f.slots.flatMap Slot.contents

@[simp] theorem contents_start (s : Symbol) (r : Rule) : (start s r : Frame α).contents = [] := by
  cases r <;> simp [contents, slots, start, finished]

@[simp] theorem contents_skip (f : Frame α) : f.skip.contents = f.contents := by
  rw [contents, slots_skip, contents]

theorem contents_eq (hf : f.WellFormed g P) :
    f.contents = f.finished.flatMap Slot.contents ++ f.repeated.reverse := by
  rw [contents, slots]
  cases htodo : f.todo with
  | nil =>
    -- nothing gathers behind the last position
    have hrep : f.repeated = [] := by
      refine List.eq_nil_iff_forall_not_mem.2 fun a ha => ?_
      obtain ⟨q, s, es, h, -⟩ := hf.gathered a ha
      rw [htodo] at h
      cases h
    simp [hrep]
  | cons e es =>
    cases he : e.repeats with
    | true => simp [he]
    | false => simp [he, hf.repeated_eq_nil htodo he]

/-- **A match is the last that a frame holds.** -/
theorem contents_put {e : Element} {es : Rule} (hf : f.WellFormed g P) (htodo : f.todo = e :: es)
    {s : Symbol} (hs : s ∈ e.operands) {a : α} (ha : P s a) :
    (f.put a).contents = f.contents ++ [a] := by
  rw [contents_eq (hf.put htodo hs ha), contents_eq hf]
  cases he : e.repeats with
  | true => simp [put, htodo, he, finished]
  | false =>
    have hrep : (f.put a).repeated = f.repeated := by simp [put, htodo, he]
    rw [finished_put htodo he, hrep, hf.repeated_eq_nil htodo he]
    simp [Slot.contents]

end Frame

/-! ## Traversals -/

namespace Tree

mutual

/-- **The events of matching a tree** on top of `depth` frames, children first and from left to
right. A leaf is taken by the innermost of the frames, which is one of `host`. -/
def traversal (depth : Nat) (host : Symbol) : Tree → List (Event Tree)
  | .leaf t => [.shift depth host t]
  | .node lhs slots =>
    traversalOfSlots (depth + 1) lhs slots ++ [.reduce depth lhs slots (.node lhs slots)]

/-- The events of matching the slots of the innermost frame. -/
def traversalOfSlots (depth : Nat) (host : Symbol) : List (Slot Tree) → List (Event Tree)
  | [] => []
  | s :: ss => traversalOfSlot depth host s ++ traversalOfSlots depth host ss

/-- The events of matching a slot of the innermost frame. -/
def traversalOfSlot (depth : Nat) (host : Symbol) : Slot Tree → List (Event Tree)
  | .vacant => []
  | .one t => t.traversal depth host
  | .many ts => traversalOfTrees depth host ts

/-- The events of matching trees one after the other. -/
def traversalOfTrees (depth : Nat) (host : Symbol) : List Tree → List (Event Tree)
  | [] => []
  | t :: ts => t.traversal depth host ++ traversalOfTrees depth host ts

end

variable (depth : Nat) (host : Symbol)

theorem traversalOfTrees_eq (ts : List Tree) :
    traversalOfTrees depth host ts = ts.flatMap (traversal depth host) := by
  induction ts with
  | nil => rfl
  | cons t ts ih => rw [traversalOfTrees, ih, List.flatMap_cons]

theorem traversalOfSlot_eq (s : Slot Tree) :
    traversalOfSlot depth host s = s.contents.flatMap (traversal depth host) := by
  cases s with
  | vacant => rfl
  | one t => rw [traversalOfSlot, Slot.contents, List.flatMap_singleton]
  | many ts => exact traversalOfTrees_eq depth host ts

theorem traversalOfSlots_eq (ss : List (Slot Tree)) :
    traversalOfSlots depth host ss =
      (ss.flatMap Slot.contents).flatMap (traversal depth host) := by
  induction ss with
  | nil => rfl
  | cons s ss ih =>
    rw [traversalOfSlots, ih, traversalOfSlot_eq, List.flatMap_cons, List.flatMap_append]

theorem traversalOfSlots_slots (f : Frame Tree) :
    traversalOfSlots depth host f.slots = f.contents.flatMap (traversal depth host) :=
  traversalOfSlots_eq depth host f.slots

end Tree

/-- **The events of matching the partial trees of a stack**, outermost frame first. -/
def traversed : List (Frame Tree) → List (Event Tree)
  | [] => []
  | f :: below => traversed below ++ Tree.traversalOfSlots (below.length + 1) f.lhs f.slots

@[simp] theorem traversed_start (s : Symbol) (r : Rule) (below : List (Frame Tree)) :
    traversed (.start s r :: below) = traversed below := by
  rw [traversed, Tree.traversalOfSlots_slots, Frame.contents_start]
  simp

@[simp] theorem traversed_skip (f : Frame Tree) (below : List (Frame Tree)) :
    traversed (f.skip :: below) = traversed (f :: below) := by
  simp [traversed]

theorem traversed_put {g : Grammar} {P : Symbol → Tree → Prop} {f : Frame Tree} {e : Element}
    {es : Rule} {s : Symbol} {a : Tree} (hf : f.WellFormed g P) (htodo : f.todo = e :: es)
    (hs : s ∈ e.operands) (ha : P s a) (below : List (Frame Tree)) :
    traversed (f.put a :: below) =
      traversed (f :: below) ++ a.traversal (below.length + 1) f.lhs := by
  rw [traversed, traversed, Tree.traversalOfSlots_slots, Tree.traversalOfSlots_slots,
    Frame.contents_put hf htodo hs ha, Frame.lhs_put]
  simp

/-! ## Moves with their events -/

/-- **One move of the frames in progress**, innermost frame first, and the events that it makes
known. A reduction makes the slots of the frame known that it takes away. -/
inductive Acts (g : Grammar) (A : Algebra α) :
    List (Frame α) → List (Event α) → List (Frame α) → Prop
  | fresh {r : Rule} (hr : g.rule? rootName = some r) : Acts g A [] [] [.start rootName r]
  | enter {f : Frame α} {below : List (Frame α)} {e : Element} {es : Rule} {s : Symbol} {r : Rule}
      (hf : f.todo = e :: es) (hs : s ∈ e.operands) (hr : g.rule? s = some r) :
      Acts g A (f :: below) [] (.start s r :: f :: below)
  | skip {f : Frame α} {below : List (Frame α)} {q : Quantifier} {s : Symbol} {es : Rule}
      (hf : f.todo = .quantified q s :: es) (hq : q.demands f.isBare = false) :
      Acts g A (f :: below) [] (f.skip :: below)
  | shift {f : Frame α} {below : List (Frame α)} {e : Element} {es : Rule} {t : Token}
      (hf : f.todo = e :: es) (hs : t.tag ∈ e.operands) (hn : g.rule? t.tag = none) :
      Acts g A (f :: below) [.shift (below.length + 1) f.lhs t] (f.put (A.token t) :: below)
  | reduce {f k : Frame α} {below : List (Frame α)} (hf : f.todo = []) :
      Acts g A (f :: k :: below) [f.reduction A (below.length + 1)] (k.put (f.result A) :: below)
  | finish {f : Frame α} (hf : f.todo = []) : Acts g A [f] [f.reduction A 0] []

/-- **Moves in a row**, with all that they make known. -/
inductive ActsAll (g : Grammar) (A : Algebra α) :
    List (Frame α) → List (Event α) → List (Frame α) → Prop
  | refl {stack : List (Frame α)} : ActsAll g A stack [] stack
  | tail {stack stack' stack'' : List (Frame α)} {events events' : List (Event α)}
      (h : ActsAll g A stack events stack') (move : Acts g A stack' events' stack'') :
      ActsAll g A stack (events ++ events') stack''

namespace ActsAll

variable {g : Grammar} {A : Algebra α} {stack stack' stack'' : List (Frame α)}
  {events events' : List (Event α)}

theorem single (h : Acts g A stack events stack') : ActsAll g A stack events stack' :=
  .tail .refl h

theorem trans (h : ActsAll g A stack events stack') (h' : ActsAll g A stack' events' stack'') :
    ActsAll g A stack (events ++ events') stack'' := by
  induction h' with
  | refl => rwa [List.append_nil]
  | tail _ move ih =>
    rw [← List.append_assoc]
    exact .tail ih move

theorem head (h : Acts g A stack events stack') (h' : ActsAll g A stack' events' stack'') :
    ActsAll g A stack (events ++ events') stack'' := (single h).trans h'

end ActsAll

/-- **Moves in a row, and the least number of frames that there are meanwhile.** That many frames,
the outermost, are there before and after; those above them at the end were created by the moves. -/
inductive ActsKeeping (g : Grammar) (A : Algebra α) :
    (kept : Nat) → List (Frame α) → List (Event α) → List (Frame α) → Prop
  | refl {stack : List (Frame α)} : ActsKeeping g A stack.length stack [] stack
  | tail {kept : Nat} {stack stack' stack'' : List (Frame α)} {events events' : List (Event α)}
      (h : ActsKeeping g A kept stack events stack') (move : Acts g A stack' events' stack'') :
      ActsKeeping g A (min kept stack''.length) stack (events ++ events') stack''

namespace ActsKeeping

variable {g : Grammar} {A : Algebra α} {stack stack' stack'' : List (Frame α)}
  {events events' : List (Event α)} {m n k : Nat}

theorem actsAll (h : ActsKeeping g A n stack events stack') : ActsAll g A stack events stack' := by
  induction h with
  | refl => exact .refl
  | tail _ move ih => exact .tail ih move

theorem le_left (h : ActsKeeping g A n stack events stack') : n ≤ stack.length := by
  induction h with
  | refl => exact Nat.le_refl _
  | tail _ _ ih => exact (Nat.min_le_left _ _).trans ih

theorem le_right (h : ActsKeeping g A n stack events stack') : n ≤ stack'.length := by
  cases h with
  | refl => exact Nat.le_refl _
  | tail => exact Nat.min_le_right _ _

theorem trans (h : ActsKeeping g A m stack events stack')
    (h' : ActsKeeping g A n stack' events' stack'') (hk : min m n = k) :
    ActsKeeping g A k stack (events ++ events') stack'' := by
  subst hk
  induction h' with
  | refl => rwa [List.append_nil, Nat.min_eq_left h.le_right]
  | tail _ move ih =>
    rw [← List.append_assoc, ← Nat.min_assoc]
    exact .tail (ih h) move

theorem head (move : Acts g A stack events stack') (h : ActsKeeping g A n stack' events' stack'')
    (hk : min stack.length n = k) : ActsKeeping g A k stack (events ++ events') stack'' := by
  refine (ActsKeeping.refl.tail move).trans h ?_
  rw [Nat.min_assoc, Nat.min_eq_right h.le_left, hk]

end ActsKeeping

/-! ## Taking a token is moves -/

section Taking

variable {E : Engine} {A : Algebra α} {t : Token}

/-- **A run of a frame is moves** above the frames below it, and a frame that they leave is
complete. -/
theorem Runs.actsKeeping {depth : Nat} {f : Frame α} {below : List (Frame α)} {p : Progress α}
    {events : List (Event α)} (hrun : Runs E A t depth f below p events)
    (hdepth : depth = below.length + 1) :
    ActsKeeping E.grammar A (below.length + 1) (f :: below) events (p.stack below) ∧
      ∀ k, p = .completed k → k.todo = [] := by
  induction hrun with
  | @complete depth f below hf =>
    have hrefl : ActsKeeping E.grammar A (f :: below).length (f :: below) [] (f :: below) := .refl
    refine ⟨hrefl, fun k hk => ?_⟩
    cases hk
    exact hf
  | shift hf hs hn =>
    subst hdepth
    exact ⟨.head (.shift hf hs hn) .refl (Nat.min_self _), fun k hk => by cases hk⟩
  | skip hf hq _ ih =>
    obtain ⟨hacts, hk⟩ := ih hdepth
    exact ⟨.head (.skip hf hq) hacts (Nat.min_self _), hk⟩
  | descend hf hs hr _ _ ih =>
    obtain ⟨hacts, -⟩ := ih (by simp [hdepth])
    exact ⟨.head (.enter hf hs hr) hacts (by simp), fun k hk => by cases hk⟩
  | fill hf hs hr _ _ _ _ ih ih' =>
    obtain ⟨hacts, hk⟩ := ih (by simp [hdepth])
    obtain ⟨hacts', hk'⟩ := ih' hdepth
    subst hdepth
    have hreduced := hacts'.head (.reduce (hk _ rfl)) (Nat.min_eq_right (by simp))
    have hentered := hacts.trans hreduced (Nat.min_eq_right (by simp))
    have hmoves := hentered.head (.enter hf hs hr) (Nat.min_self _)
    exact ⟨hmoves, hk'⟩

theorem Runs.actsAll {depth : Nat} {f : Frame α} {below : List (Frame α)} {p : Progress α}
    {events : List (Event α)} (hrun : Runs E A t depth f below p events)
    (hdepth : depth = below.length + 1) :
    ActsAll E.grammar A (f :: below) events (p.stack below) ∧
      ∀ k, p = .completed k → k.todo = [] :=
  ⟨(hrun.actsKeeping hdepth).1.actsAll, (hrun.actsKeeping hdepth).2⟩

theorem Takes.actsAll {stack : List (Frame α)} {c : Commit α} {events : List (Event α)}
    (htakes : Takes E A t stack c events) : ActsAll E.grammar A stack events c.stack := by
  induction htakes with
  | fresh hr run => exact .head (.fresh hr) (run.actsAll rfl).1
  | shift run => exact (run.actsAll rfl).1
  | reduce run _ ih =>
    obtain ⟨hacts, hl⟩ := run.actsAll rfl
    exact hacts.trans (.head (.reduce (hl _ rfl)) ih)
  | restart run _ ih =>
    obtain ⟨hacts, hl⟩ := run.actsAll rfl
    exact hacts.trans (.head (.finish (hl _ rfl)) ih)

theorem actsKeeping_settleFrom {g : Grammar} (f : Frame α) (below : List (Frame α)) :
    ActsKeeping g A (settleFrom A below.length f below).1.stack.length (f :: below)
      (settleFrom A below.length f below).2 (settleFrom A below.length f below).1.stack := by
  induction below generalizing f with
  | nil =>
    rw [List.length_nil, settleFrom]
    split
    · next hf => exact .head (.finish (List.isEmpty_iff.1 hf)) .refl (Nat.min_zero _)
    · exact .refl
  | cons k below ih =>
    rw [List.length_cons, settleFrom]
    split
    · next hf =>
      have hrest := ih (k.put (f.result A))
      have hle := hrest.le_left
      rw [List.length_cons] at hle
      exact hrest.head (.reduce (List.isEmpty_iff.1 hf))
        (Nat.min_eq_right (hle.trans (by simp)))
    · exact .refl

/-- **Reducing the frames that the token completed is moves** that create no frame. -/
theorem actsKeeping_settle {g : Grammar} (stack : List (Frame α)) :
    ActsKeeping g A (settle A stack).1.stack.length stack (settle A stack).2
      (settle A stack).1.stack := by
  cases stack with
  | nil => exact .refl
  | cons f below => exact actsKeeping_settleFrom f below

/-- **A token that is taken is moves**, and what they make known is what happened. -/
theorem actsAll_of_advance {blank : α} {stack : List (Frame α)} {c : Commit α}
    {events : List (Event α)} (h : advance E A blank t stack = some (c, events)) :
    ActsAll E.grammar A stack events c.stack := by
  obtain ⟨c', events', htakes, rfl, rfl⟩ := exists_takes_of_advance h
  exact htakes.actsAll.trans (actsKeeping_settle c'.stack).actsAll

end Taking

/-! ## What moves keep -/

section Moves

variable {g : Grammar} {A : Algebra α} {B : Algebra β} {h : α → β}

/-- **A move on the image of some frames is the image of a move.** -/
theorem Acts.lift (H : A.Hom B h) {frames : List (Frame α)} {stack : List (Frame β)}
    {events : List (Event β)} (hacts : Acts g B (frames.map (Frame.map h)) events stack) :
    ∃ frames' events', Acts g A frames events' frames' ∧
      stack = frames'.map (Frame.map h) ∧ events = events'.map (Event.map h) := by
  generalize himage : frames.map (Frame.map h) = image at hacts
  cases hacts with
  | fresh hr =>
    obtain rfl := List.map_eq_nil_iff.1 himage
    exact ⟨_, _, .fresh hr, rfl, rfl⟩
  | enter hf hs hr =>
    obtain ⟨f, below, rfl, rfl, rfl⟩ := List.map_eq_cons_iff.1 himage
    exact ⟨_, _, .enter hf hs hr, rfl, rfl⟩
  | skip hf hq =>
    obtain ⟨f, below, rfl, rfl, rfl⟩ := List.map_eq_cons_iff.1 himage
    rw [Frame.isBare_map] at hq
    refine ⟨_, _, .skip hf hq, ?_, rfl⟩
    rw [List.map_cons, Frame.map_skip]
  | shift hf hs hn =>
    obtain ⟨f, below, rfl, rfl, rfl⟩ := List.map_eq_cons_iff.1 himage
    refine ⟨_, _, .shift hf hs hn, ?_, ?_⟩
    · rw [List.map_cons, Frame.map_put, H.token]
    · rw [List.length_map]
      rfl
  | reduce hf =>
    obtain ⟨f, rest, rfl, rfl, hrest⟩ := List.map_eq_cons_iff.1 himage
    obtain ⟨k, below, rfl, rfl, rfl⟩ := List.map_eq_cons_iff.1 hrest
    refine ⟨_, _, .reduce hf, ?_, ?_⟩
    · rw [List.map_cons, Frame.map_put, Frame.result_map H]
    · rw [List.length_map, Frame.reduction_map H]
      rfl
  | finish hf =>
    obtain ⟨f, rest, rfl, rfl, hrest⟩ := List.map_eq_cons_iff.1 himage
    obtain rfl := List.map_eq_nil_iff.1 hrest
    refine ⟨_, _, .finish hf, rfl, ?_⟩
    rw [Frame.reduction_map H]
    rfl

theorem ActsAll.lift (H : A.Hom B h) (frames : List (Frame α)) {stack : List (Frame β)}
    {events : List (Event β)} (hacts : ActsAll g B (frames.map (Frame.map h)) events stack) :
    ∃ frames' events', ActsAll g A frames events' frames' ∧
      stack = frames'.map (Frame.map h) ∧ events = events'.map (Event.map h) := by
  generalize himage : frames.map (Frame.map h) = image at hacts
  induction hacts with
  | refl => exact ⟨frames, [], .refl, himage.symm, rfl⟩
  | tail _ move ih =>
    obtain ⟨frames', events', hacts, rfl, rfl⟩ := ih
    obtain ⟨frames'', events'', hmove, rfl, rfl⟩ := move.lift H
    exact ⟨frames'', events' ++ events'', .tail hacts hmove, rfl, List.map_append.symm⟩

theorem Acts.isRejection_eq_false {stack stack' : List (Frame α)} {events : List (Event α)}
    (hacts : Acts g A stack events stack') : ∀ e ∈ events, e.isRejection = false := by
  cases hacts with
  | fresh | enter | skip => exact List.forall_mem_nil _
  | shift | reduce | finish => exact List.forall_mem_singleton.2 rfl

theorem ActsAll.isRejection_eq_false {stack stack' : List (Frame α)} {events : List (Event α)}
    (hacts : ActsAll g A stack events stack') : ∀ e ∈ events, e.isRejection = false := by
  induction hacts with
  | refl => exact List.forall_mem_nil _
  | tail _ move ih => exact List.forall_mem_append.2 ⟨ih, move.isRejection_eq_false⟩

/-- **A move keeps stacks sound**, and what it reduces root to stands for root. -/
theorem Acts.sound {P : Symbol → α → Prop} (hA : A.Respects g P) {stack stack' : List (Frame α)}
    {events : List (Event α)} (hacts : Acts g A stack events stack') (hs : Sound g P stack) :
    Sound g P stack' ∧ ∀ a ∈ rootValues events, P rootName a := by
  cases hacts with
  | fresh hr => exact ⟨sound_root hr, List.forall_mem_nil _⟩
  | enter hf hmem hr => exact ⟨hs.enter hf hmem hr, List.forall_mem_nil _⟩
  | @skip f below q s es hf hq =>
    have hskip := (hs.frames f List.mem_cons_self).skip hf hq
    exact ⟨hs.replace hskip (Frame.lhs_skip f), List.forall_mem_nil _⟩
  | @shift f below e es t hf hmem hn =>
    have hput := (hs.frames f List.mem_cons_self).put hf hmem (hA.token t hn)
    exact ⟨hs.replace hput (Frame.lhs_put f _), List.forall_mem_nil _⟩
  | reduce hf => exact ⟨hs.reduce hA hf, List.forall_mem_nil _⟩
  | @finish f hf =>
    obtain ⟨hwf, hroot, -⟩ := sound_cons_iff.1 hs
    have hresult : P f.lhs (f.result A) := hwf.result hA hf
    rw [show f.lhs = rootName from hroot] at hresult
    exact ⟨sound_nil, List.forall_mem_singleton.2 hresult⟩

theorem ActsAll.sound {P : Symbol → α → Prop} (hA : A.Respects g P) {stack stack' : List (Frame α)}
    {events : List (Event α)} (hacts : ActsAll g A stack events stack') (hs : Sound g P stack) :
    Sound g P stack' ∧ ∀ a ∈ rootValues events, P rootName a := by
  induction hacts with
  | refl => exact ⟨hs, List.forall_mem_nil _⟩
  | tail _ move ih =>
    obtain ⟨hsound, hroots⟩ := ih
    obtain ⟨hsound', hroots'⟩ := move.sound hA hsound
    rw [rootValues_append]
    exact ⟨hsound', List.forall_mem_append.2 ⟨hroots, hroots'⟩⟩

end Moves

/-- **A move makes known what it adds to the traversal** of the trees that root was reduced to and
of those in progress. -/
theorem Acts.traversed_eq {g : Grammar} {stack stack' : List (Frame Tree)}
    {events : List (Event Tree)} (hacts : Acts g Tree.algebra stack events stack')
    (hs : Sound g (Derivation g) stack) :
    traversed stack ++ events =
      (rootValues events).flatMap (Tree.traversal 0 rootName) ++ traversed stack' := by
  have hA := Tree.respects g
  cases hacts with
  | fresh | enter => simp [rootValues]
  | skip => simp [rootValues]
  | @shift f below e es t hf hmem hn =>
    have hput := traversed_put (hs.frames f List.mem_cons_self) hf hmem (hA.token t hn) below
    rw [hput]
    rfl
  | @reduce f k below hf =>
    obtain ⟨hwf, ⟨⟨e, es, hk, hmem⟩, -⟩, hbelow⟩ := sound_cons_iff.1 hs
    have hput := traversed_put (hbelow k List.mem_cons_self) hk hmem (hwf.result hA hf) below
    rw [hput, traversed, List.append_assoc]
    rfl
  | @finish f hf =>
    have hroot : rootValues [f.reduction Tree.algebra 0] = [.node f.lhs f.slots] := rfl
    rw [hroot, List.flatMap_singleton, Tree.traversal]
    simp [traversed, Frame.reduction, Frame.result, Tree.algebra]

/-- **Moves in a row make known what they add to the traversal**, and what they reduce root to are
derivation trees of root. -/
theorem ActsAll.traversed_eq {g : Grammar} {stack stack' : List (Frame Tree)}
    {events : List (Event Tree)} (hacts : ActsAll g Tree.algebra stack events stack')
    (hs : Sound g (Derivation g) stack) :
    Sound g (Derivation g) stack' ∧ (∀ a ∈ rootValues events, Derivation g rootName a) ∧
      traversed stack ++ events =
        (rootValues events).flatMap (Tree.traversal 0 rootName) ++ traversed stack' := by
  have hA := Tree.respects g
  refine ⟨(hacts.sound hA hs).1, (hacts.sound hA hs).2, ?_⟩
  induction hacts with
  | refl => simp [rootValues]
  | tail h move ih =>
    rw [← List.append_assoc, ih, List.append_assoc, move.traversed_eq (h.sound hA hs).1,
      rootValues_append, List.flatMap_append, List.append_assoc]

/-! ## Tokens that were shifted -/

/-- The token, if the event is that it was taken. -/
def Event.shifted? : Event α → Option Token
  | .shift _ _ t => some t
  | _ => none

/-- **The tokens that were shifted**, in order. -/
def shifts (events : List (Event α)) : List Token := events.filterMap Event.shifted?

@[simp] theorem shifts_append (es es' : List (Event α)) :
    shifts (es ++ es') = shifts es ++ shifts es' := List.filterMap_append

@[simp] theorem shifts_reduction (A : Algebra α) (f : Frame α) (depth : Nat)
    (events : List (Event α)) : shifts (f.reduction A depth :: events) = shifts events := rfl

theorem shifts_filter_isRejection (events : List (Event α)) :
    shifts (events.filter fun e => !e.isRejection) = shifts events := by
  rw [shifts, List.filterMap_filter, shifts]
  congr 1
  funext e
  cases e <;> rfl

section Shifts

variable {E : Engine} {A : Algebra α} {t : Token}

/-- The tokens that are shifted by a run with the given outcome. -/
def Progress.shifts (t : Token) : Progress α → List Token
  | .shifted _ => [t]
  | .completed _ => []

theorem Runs.shifts_eq {depth : Nat} {f : Frame α} {below : List (Frame α)} {p : Progress α}
    {events : List (Event α)} (hrun : Runs E A t depth f below p events) :
    shifts events = p.shifts t := by
  induction hrun with
  | complete | shift => rfl
  | skip _ _ _ ih | descend _ _ _ _ _ ih => exact ih
  | fill _ _ _ _ _ _ _ ih ih' => rw [shifts_append, shifts_reduction, ih, ih']; rfl

/-- **A token that is taken is shifted once.** -/
theorem Takes.shifts_eq {stack : List (Frame α)} {c : Commit α} {events : List (Event α)}
    (htakes : Takes E A t stack c events) : shifts events = [t] := by
  induction htakes with
  | fresh _ run | shift run => exact run.shifts_eq
  | reduce run _ ih | restart run _ ih =>
    rw [shifts_append, shifts_reduction, run.shifts_eq, ih]
    rfl

theorem shifts_settleFrom (n : Nat) (f : Frame α) (below : List (Frame α)) :
    shifts (settleFrom A n f below).2 = [] := by
  induction below generalizing n f with
  | nil =>
    rw [settleFrom]
    split <;> rfl
  | cons k below ih =>
    rw [settleFrom]
    split
    · exact ih (n - 1) (k.put (f.result A))
    · rfl

theorem shifts_settle (stack : List (Frame α)) : shifts (settle A stack).2 = [] := by
  cases stack with
  | nil => rfl
  | cons f below => exact shifts_settleFrom below.length f below

theorem shifts_of_advance {blank : α} {stack : List (Frame α)} {c : Commit α}
    {events : List (Event α)} (h : advance E A blank t stack = some (c, events)) :
    shifts events = [t] := by
  obtain ⟨c', events', htakes, rfl, rfl⟩ := exists_takes_of_advance h
  rw [shifts_append, htakes.shifts_eq, shifts_settle]
  rfl

end Shifts

/-! ## Sessions -/

theorem Settings.log_filter_isRejection (c : Settings) (events : List (Event Value)) :
    (c.log events).filter (fun n => !n.isRejection) =
      c.log (events.filter fun e => !e.isRejection) := by
  induction events with
  | nil => rfl
  | cons e events ih =>
    have hlog : c.log (e :: events) = c.notes e ++ c.log events := rfl
    rw [hlog, List.filter_append, ih]
    cases e with
    | shift | reduce =>
      simp [Event.isRejection, Settings.log, Settings.notes, Entry.isRejection, List.filter_map,
        Function.comp_def]
    | reject | told | nested =>
      simp [Event.isRejection, Settings.log, Settings.notes, Entry.isRejection]

namespace Session

variable {g : Grammar} {settings : Settings} {x : Session}

/-- What the listeners noted down of shifts and reductions since the last reset. -/
def noted (x : Session) : List Entry :=
  (x.parser.settings.log x.events).filter fun n => !n.isRejection

theorem noted_eq (x : Session) : x.noted = x.parser.settings.log x.progress :=
  x.parser.settings.log_filter_isRejection x.events

theorem progress_of_commit_none (hx : x.parser.Ready) {t : Token} (hc : x.parser.commit t = none) :
    (x.call (.observe t)).progress = x.progress := by
  obtain ⟨r, events, hcall, hevents⟩ := call_of_commit_none hx hc
  have hnone : events.filter (fun e => !e.isRejection) = [] :=
    List.filter_eq_nil_iff.2 fun e he => by simp [hevents e he]
  rw [hcall, progress, List.filter_append, hnone, List.append_nil]
  rfl

theorem progress_of_commit_some (hx : x.parser.Ready) {t : Token} {c : Commit Value}
    {events : List (Event Value)} (hc : x.parser.commit t = some (c, events)) :
    (x.call (.observe t)).progress = x.progress ++ events := by
  have hmoves := actsAll_of_advance hc
  have hall : events.filter (fun e => !e.isRejection) = events :=
    List.filter_eq_self.2 fun e he => by simp [hmoves.isRejection_eq_false e he]
  rw [call_of_commit_some hx hc, progress, List.filter_append, hall]
  rfl

theorem Made.actsAll_call (hx : x.Made g settings)
    (h : ActsAll g settings.actions.algebra [] x.progress x.parser.stack) (c : Call) :
    ActsAll g settings.actions.algebra [] (x.call c).progress (x.call c).parser.stack := by
  cases c with
  | reset => exact .refl
  | observe t =>
    cases hc : x.parser.commit t with
    | none =>
      obtain ⟨r, events, hcall, -⟩ := call_of_commit_none hx.ready hc
      rw [progress_of_commit_none hx.ready hc, hcall]
      exact h
    | some y =>
      obtain ⟨c, events⟩ := y
      have hmoves := actsAll_of_advance hc
      rw [hx.engine, hx.settings] at hmoves
      rw [progress_of_commit_some hx.ready hc, call_of_commit_some hx.ready hc]
      exact h.trans hmoves

theorem Made.shifts_call (hx : x.Made g settings) (h : shifts x.events = x.accepted) (c : Call) :
    shifts (x.call c).events = (x.call c).accepted := by
  cases c with
  | reset => rfl
  | observe t =>
    cases hc : x.parser.commit t with
    | none =>
      obtain ⟨r, events, hcall, hevents⟩ := call_of_commit_none hx.ready hc
      have hnone : shifts events = [] := by
        rw [← shifts_filter_isRejection,
          List.filter_eq_nil_iff.2 fun e he => by simp [hevents e he]]
        rfl
      rw [hcall]
      dsimp only
      rw [shifts_append, hnone, List.append_nil, h]
    | some y =>
      rw [call_of_commit_some hx.ready hc]
      dsimp only
      rw [shifts_append, shifts_of_advance hc, h]

/-- **What a session makes known is a traversal**: of the trees of the root reductions since the
last reset, in order, and then of the partial trees of the frames in progress. -/
structure Traversed (g : Grammar) (x : Session) (trees : List Tree) (frames : List (Frame Tree)) :
    Prop where
  /-- Root was reduced to derivation trees of root. -/
  derivation : ∀ a ∈ trees, Derivation g rootName a
  /-- The values root was reduced to are those of the trees. -/
  reductions : rootValues x.progress = trees.map (Tree.fold x.parser.settings.actions.algebra)
  /-- The frames hold the values of partial trees. -/
  stack : x.parser.stack = frames.map (Frame.map (Tree.fold x.parser.settings.actions.algebra))
  /-- The partial trees are derivations as far as they go. -/
  sound : Sound g (Derivation g) frames
  /-- The shifts and reductions, in order, are the traversals, read in the actions. -/
  events : x.progress = (trees.flatMap (Tree.traversal 0 rootName) ++ traversed frames).map
    (Event.map (Tree.fold x.parser.settings.actions.algebra))
  /-- The listeners noted down each of them, and nothing else but rejections. -/
  notes : x.noted = x.parser.settings.log
    ((trees.flatMap (Tree.traversal 0 rootName) ++ traversed frames).map
      (Event.map (Tree.fold x.parser.settings.actions.algebra)))

theorem traversed_of_actsAll {events : List (Event Tree)} {frames : List (Frame Tree)}
    (hmoves : ActsAll g Tree.algebra [] events frames)
    (hstack : x.parser.stack = frames.map (Frame.map (Tree.fold x.parser.settings.actions.algebra)))
    (hevents : x.progress = events.map (Event.map (Tree.fold x.parser.settings.actions.algebra))) :
    x.Traversed g (rootValues events) frames := by
  obtain ⟨hsound, hroots, htraversed⟩ := hmoves.traversed_eq sound_nil
  have hprogress : x.progress =
      ((rootValues events).flatMap (Tree.traversal 0 rootName) ++ traversed frames).map
        (Event.map (Tree.fold x.parser.settings.actions.algebra)) := by
    rw [hevents, ← htraversed]
    rfl
  refine ⟨hroots, ?_, hstack, hsound, hprogress, ?_⟩
  · rw [hevents, rootValues_map]
  · rw [noted_eq, hprogress]

theorem exists_traversed_of_actsAll
    (h : ActsAll g x.parser.settings.actions.algebra [] x.progress x.parser.stack) :
    ∃ trees frames, x.Traversed g trees frames := by
  obtain ⟨frames, events, hmoves, hstack, hevents⟩ :=
    ActsAll.lift (Tree.hom_fold x.parser.settings.actions.algebra) [] h
  exact ⟨rootValues events, frames, traversed_of_actsAll hmoves hstack hevents⟩

/-- **Shifts and reductions are made known once, in the order of the trees.** After any calls, what
was made known since the last reset, rejections apart, and what the listeners noted down of it, is
the traversal, children first and from left to right, of the derivation trees that root was reduced
to and then of the partial trees in progress. The tokens shifted are those accepted, in order, and
each reduction made known is the one move that took its frame, with those slots, off the stack. -/
theorem exists_traversal {settings : List Setting} {p : Parser}
    (hp : Parser.make (some g) settings = .ok p) {calls : List Call}
    (hx : x = (start p).run calls) :
    (∃ trees frames, x.Traversed g trees frames) ∧ shifts x.progress = x.accepted ∧
      ActsAll g x.parser.settings.actions.algebra [] x.progress x.parser.stack := by
  obtain ⟨c, rfl⟩ := Parser.eq_of_make hp
  obtain ⟨hmade, hshifts, hmoves⟩ := run_induction (I := fun y => y.Made g c ∧
      shifts y.events = y.accepted ∧ ActsAll g c.actions.algebra [] y.progress y.parser.stack)
    ⟨made_start, rfl, .refl⟩
    (fun y call hy => ⟨hy.1.call call, hy.1.shifts_call hy.2.1 call, hy.1.actsAll_call hy.2.2 call⟩)
    calls
  rw [← hx] at hmade hshifts hmoves
  rw [← hmade.settings] at hmoves
  exact ⟨exists_traversed_of_actsAll hmoves, (shifts_filter_isRejection _).trans hshifts, hmoves⟩

/-- After `(x`, with a comma refused on the way, a list is in progress of which one item was
reduced. -/
theorem exists_traversal_nested : ∃ p x,
    Parser.make (some nestedLists) [.onShift "s", .onReduce "r", .onReject (.note "n")] = .ok p ∧
    x = (start p).run [.observe ⟨"(", .null⟩, .observe ⟨",", .null⟩, .observe ⟨"x", .null⟩] ∧
    x.noted = [.shift "s" ⟨"(", .null⟩, .shift "s" ⟨"x", .null⟩,
      .reduce "r" "item" [.token "x" .null]] ∧
    (∃ trees frames, x.Traversed nestedLists trees frames) ∧ shifts x.progress = x.accepted ∧
    ActsAll nestedLists x.parser.settings.actions.algebra [] x.progress x.parser.stack :=
  ⟨_, _, rfl, rfl, rfl, @exists_traversal nestedLists _
    [.onShift "s", .onReduce "r", .onReject (.note "n")] _ rfl
    [.observe ⟨"(", .null⟩, .observe ⟨",", .null⟩, .observe ⟨"x", .null⟩] rfl⟩

end Session

end PushParser
