import PushParser.Parser.Machine
import PushParser.Proofs.Representation

/-!
# Frames as they are kept

A frame in progress is kept by position, and a trial runs on copies that count repetitions beside
the lists which they share. What is placed in a frame and what is left changes both in the same way,
and a copy counts as many repetitions as have gathered in the frame.

* **`Frame.stored_put`**, `Frame.stored_skip`: frames in progress;
* `SlotFrame.Step`, **`Parser.stored_commit`**: what a token does to the frames as they are kept;
* **`SlotFrame.Counts`**: a frame by position that may be a copy, and the frame whose repetitions it
  counts;
* **`SlotFrame.Counts.put`**, `SlotFrame.Counts.skip`: this is kept;
* **`SlotFrame.counts_copy`**: it holds of the copies that a trial begins with.
-/

namespace PushParser

variable {α β : Type}

/-! ## Frames in progress -/

namespace Frame

variable {g : Grammar} {P : Symbol → α → Prop} {f : Frame α} {r : Rule}

theorem slots_eq {e : Element} {es : Rule} (htodo : f.todo = e :: es) :
    f.slots = f.finished ++ .leave e f.repeated.reverse :: es.map (.leave · []) := by
  rw [slots, htodo]

theorem put_of_repeats {e : Element} {es : Rule} (htodo : f.todo = e :: es)
    (hrep : e.repeats = true) (a : α) : f.put a = { f with repeated := a :: f.repeated } := by
  simp [put, htodo, hrep]

theorem put_of_single {e : Element} {es : Rule} (htodo : f.todo = e :: es)
    (hrep : e.repeats = false) (hbare : f.repeated = []) (a : α) :
    f.put a = ⟨f.lhs, .one a :: f.filled, [], es⟩ := by
  simp [put, htodo, hrep, hbare]

theorem slots_put_of_repeats {e : Element} {es : Rule} (htodo : f.todo = e :: es)
    (hrep : e.repeats = true) (a : α) :
    (f.put a).slots = f.slots.modify f.position (·.gather a) := by
  have hmodify := List.modifyTailIdx_add (List.modifyHead (Slot.gather a)) 0 f.finished
    (.leave e f.repeated.reverse :: es.map (.leave · []))
  rw [Nat.add_zero, length_finished, ← slots_eq htodo] at hmodify
  rw [List.modify, hmodify, put_of_repeats htodo hrep,
    slots_eq (f := { f with repeated := a :: f.repeated }) htodo]
  simp only [Slot.leave, hrep, if_true, List.reverse_cons]
  rfl

theorem slots_put_of_single {e : Element} {es : Rule} (htodo : f.todo = e :: es)
    (hrep : e.repeats = false) (hbare : f.repeated = []) (a : α) :
    (f.put a).slots = f.slots.set f.position (.one a) := by
  rw [slots_eq htodo, ← length_finished, List.set_append_right _ _ (Nat.le_refl _), Nat.sub_self,
    put_of_single htodo hrep hbare]
  cases es with
  | nil => simp [slots, finished, Slot.reverse]
  | cons d ds => simp [slots, finished, Slot.reverse, Slot.leave]

section Stored

variable (hf : f.WellFormed g P)

include hf

theorem element?_stored : (f.stored g).element? = f.todo.head? := by
  obtain ⟨r, hr⟩ := hf.exists_inRule
  rw [hr.todo, List.head?_drop, SlotFrame.element?, stored, hr.rule]
  rfl

theorem isComplete_stored : (f.stored g).isComplete = f.isComplete := by
  obtain ⟨r, hr⟩ := hf.exists_inRule
  have hlength := hr.position
  rw [SlotFrame.isComplete, stored, hr.rule, Option.getD_some, isComplete, hr.todo,
    Bool.eq_iff_iff, beq_iff_eq, List.isEmpty_iff, List.drop_eq_nil_iff]
  exact ⟨fun h => h.ge, fun h => Nat.le_antisymm hlength h⟩

omit hf in
theorem stored_start {lhs : Symbol} (hr : g.rule? lhs = some r) :
    (start lhs r : Frame α).stored g = .start lhs r := by
  have hslots : (start lhs r : Frame α).slots = r.map (.leave · []) := by
    cases r with
    | nil => rfl
    | cons e es => rfl
  rw [stored, hslots]
  simp only [start, hr, Option.getD_some]
  rfl

/-- **A match is placed in a frame as it is in what is kept of the frame.** -/
theorem stored_put (a : α) : (f.put a).stored g = (f.stored g).put a := by
  rw [SlotFrame.put, element?_stored hf]
  cases htodo : f.todo with
  | nil =>
    rw [put, htodo]
    rfl
  | cons e es =>
    cases hrep : e.repeats with
    | true =>
      have hslots := slots_put_of_repeats htodo hrep a
      simp only [List.head?_cons, hrep, if_true]
      rw [put_of_repeats htodo hrep] at hslots ⊢
      simp only [stored, hslots, Bool.false_eq_true, if_false]
      rfl
    | false =>
      have hbare := hf.repeated_eq_nil htodo hrep
      have hslots := slots_put_of_single htodo hrep hbare a
      simp only [List.head?_cons, hrep, Bool.false_eq_true, if_false]
      rw [put_of_single htodo hrep hbare] at hslots ⊢
      simp only [stored, hslots]
      rfl

omit hf in
theorem stored_skip {q : Quantifier} {s : Symbol} {es : Rule}
    (htodo : f.todo = .quantified q s :: es) : f.skip.stored g = (f.stored g).skip q := by
  have hskip : f.skip = ⟨f.lhs, .leave (.quantified q s) f.repeated :: f.filled, [], es⟩ := by
    rw [skip, htodo]
  have hslots := f.slots_skip
  rw [hskip] at hslots ⊢
  simp only [stored, hslots]
  cases q with
  | star | plus => rfl
  | opt =>
    have hvacant : f.slots.set f.position .vacant = f.slots := by
      rw [slots_eq htodo, ← length_finished, List.set_append_right _ _ (Nat.le_refl _),
        Nat.sub_self]
      rfl
    simp only [SlotFrame.skip, hvacant]
    rfl

end Stored

end Frame

/-! ## Replays -/

/-- **What one call does to frames as they are kept** when a token is taken: a match is placed at
the position, a quantified symbol is left, a nonterminal is entered, or a complete frame is
reduced. -/
inductive SlotFrame.Step (g : Grammar) (A : Algebra α) (t : Token) :
    List (SlotFrame α) → List (SlotFrame α) → Prop
  | shift {F : SlotFrame α} {low : List (SlotFrame α)} {e : Element} (he : F.element? = some e) :
      Step g A t (F :: low) (F.put (A.token t) :: low)
  | skip {F : SlotFrame α} {low : List (SlotFrame α)} {q : Quantifier} {s : Symbol}
      (he : F.element? = some (.quantified q s)) : Step g A t (F :: low) (F.skip q :: low)
  | enter {F : SlotFrame α} {low : List (SlotFrame α)} {e : Element} {s : Symbol} {r : Rule}
      (he : F.element? = some e) (hs : s ∈ e.operands) (hr : g.rule? s = some r) :
      Step g A t (F :: low) (.start s r :: F :: low)
  | reduce {F K : SlotFrame α} {low : List (SlotFrame α)} (hF : F.isComplete = true) :
      Step g A t (F :: K :: low) (K.put (A.node F.lhs F.slots) :: low)
  | finish {F : SlotFrame α} (hF : F.isComplete = true) : Step g A t [F] []
  | fresh {r : Rule} (hr : g.rule? rootName = some r) : Step g A t [] [.start rootName r]

section Replays

variable {E : Engine} {A : Algebra α} {t : Token}

/-- **What a call does to the frames in progress it does to the frames as they are kept.** -/
theorem Follows.stored {x y : List (Frame α) × Tape} (h : Follows E A t x y)
    (hs : Sound E.grammar Anything x.1) :
    SlotFrame.Step E.grammar A t (x.1.map (Frame.stored E.grammar))
      (y.1.map (Frame.stored E.grammar)) := by
  cases h with
  | @shift f below e es tape rest hf hd =>
    have hwf := hs.frames f List.mem_cons_self
    have he : (f.stored E.grammar).element? = some e := by rw [Frame.element?_stored hwf, hf]; rfl
    rw [List.map_cons, List.map_cons, Frame.stored_put hwf]
    exact .shift he
  | @skip f below e es tape rest hf hd =>
    have hwf := hs.frames f List.mem_cons_self
    obtain ⟨q, s, rfl, -⟩ := direct_sound hd
    rw [List.map_cons, List.map_cons, Frame.stored_skip hf]
    exact .skip (by rw [Frame.element?_stored hwf, hf]; rfl)
  | @enter f below e es s r tape rest hf hd =>
    have hwf := hs.frames f List.mem_cons_self
    obtain ⟨hmem, hr⟩ := direct_sound hd
    have he : (f.stored E.grammar).element? = some e := by rw [Frame.element?_stored hwf, hf]; rfl
    rw [List.map_cons, List.map_cons, List.map_cons, Frame.stored_start hr]
    exact .enter he hmem hr
  | @reduce f k below tape hf =>
    have hwf := hs.frames f List.mem_cons_self
    have hwk := hs.frames k (List.mem_cons_of_mem _ List.mem_cons_self)
    rw [List.map_cons, List.map_cons, List.map_cons, Frame.stored_put hwk]
    exact .reduce ((Frame.isComplete_stored hwf).trans hf)
  | @finish f tape hf =>
    exact .finish ((Frame.isComplete_stored (hs.frames f List.mem_cons_self)).trans hf)
  | fresh hr =>
    rw [List.map_cons, Frame.stored_start hr]
    exact .fresh hr

theorem FollowsAll.stored {x y : List (Frame α) × Tape} (h : FollowsAll E A t x y)
    (hs : Sound E.grammar Anything x.1) :
    Relation.ReflTransGen (SlotFrame.Step E.grammar A t) (x.1.map (Frame.stored E.grammar))
      (y.1.map (Frame.stored E.grammar)) := by
  induction h with
  | refl => exact .refl
  | tail hxy hcall ih => exact ih.tail (hcall.stored (FollowsAll.sound hxy hs))

/-- **A token that is taken changes the frames as they are kept** by such calls alone. -/
theorem Parser.stored_commit {p : Parser} (hs : Sound p.grammar Anything p.stack)
    {c : Commit Value} {events : List (Event Value)} (h : p.commit t = some (c, events)) :
    Relation.ReflTransGen (SlotFrame.Step p.grammar p.settings.actions.algebra t)
      (p.stack.map (Frame.stored p.grammar)) (c.stack.map (Frame.stored p.grammar)) := by
  obtain ⟨tape, rest, -, hfollows⟩ := exists_followsAll_of_commit h
  exact FollowsAll.stored hfollows hs

end Replays

/-! ## Copies -/

namespace SlotFrame

/-- **The frame by position counts the repetitions of `f`**, in its slots or beside them. What else
its slots hold does not matter. -/
structure Counts (F : SlotFrame β) (f : Frame α) : Prop where
  lhs : F.lhs = f.lhs
  position : F.position = f.position
  todo : F.rule.drop F.position = f.todo
  bound : F.position ≤ F.rule.length
  repetitions : F.repetitions = f.repeated.length
  /-- Repetitions gather where the element repeats only. -/
  single : ∀ e, F.element? = some e → Element.repeats e = false → f.repeated = []
  ahead : ∀ i, F.position < i → F.repetitionsAt i = 0
  lists : ∀ (i : Nat) (e : Element), F.rule[i]? = some e → e.repeats = true →
    ∃ bs, F.slots[i]? = some (.many bs)
  room : ∀ counts, F.pending = some counts → counts.length = F.rule.length

variable {F G : SlotFrame β} {f : Frame α}

theorem Counts.element?_eq (h : F.Counts f) : F.element? = f.todo.head? := by
  rw [element?, ← h.todo, List.head?_drop]

theorem Counts.isComplete_eq (h : F.Counts f) : F.isComplete = f.isComplete := by
  rw [isComplete, Frame.isComplete, ← h.todo, Bool.eq_iff_iff, beq_iff_eq, List.isEmpty_iff,
    List.drop_eq_nil_iff]
  have := h.bound
  omega

theorem counts_start (lhs : Symbol) (r : Rule) :
    (start lhs r : SlotFrame β).Counts (.start lhs r : Frame α) := by
  have hnone : ∀ i, (start lhs r : SlotFrame β).repetitionsAt i = 0 := by
    intro i
    simp only [repetitionsAt, start, List.getElem?_map]
    cases r[i]? with
    | none => rfl
    | some e =>
      simp only [Option.map_some, Option.elim_some, Slot.leave]
      split <;> rfl
  refine ⟨rfl, rfl, rfl, Nat.zero_le _, hnone 0, fun _ _ _ => rfl, fun i _ => hnone i,
    fun i e he hrep => ⟨[], ?_⟩, fun _ h => by cases h⟩
  change (r.map (Slot.leave · []))[i]? = _
  rw [List.getElem?_map, show r[i]? = some e from he, Option.map_some, Slot.leave, if_pos hrep]

theorem repetitionsAt_countOne (hpos : F.position < F.rule.length)
    (hroom : ∀ counts, F.pending = some counts → counts.length = F.rule.length) (i : Nat) :
    F.countOne.repetitionsAt i = F.repetitionsAt i + if i = F.position then 1 else 0 := by
  have hcounts : ∀ counts : List Nat, counts.length = F.rule.length →
      (counts.modify F.position (· + 1)).getD i 0 =
        counts.getD i 0 + if i = F.position then 1 else 0 := by
    intro counts hlength
    rw [List.getD_eq_getElem?_getD, List.getD_eq_getElem?_getD, List.getElem?_modify]
    by_cases hi : i = F.position
    · subst hi
      rw [List.getElem?_eq_getElem (by omega)]
      simp
    · simp [hi, Ne.symm hi]
  rw [repetitionsAt, repetitionsAt, countOne, Nat.add_assoc]
  refine congrArg (_ + ·) ?_
  cases hpending : F.pending with
  | none =>
    refine (hcounts _ List.length_replicate).trans (congrArg (· + _) ?_)
    rw [List.getD_eq_getElem?_getD, List.getElem?_replicate]
    split <;> rfl
  | some counts => exact hcounts counts (hroom counts hpending)

theorem repetitionsAt_gather {bs : List β} (hslot : F.slots[F.position]? = some (.many bs)) (b : β)
    (i : Nat) :
    { F with slots := F.slots.modify F.position (·.gather b) }.repetitionsAt i =
      F.repetitionsAt i + if i = F.position then 1 else 0 := by
  rw [repetitionsAt, repetitionsAt, Nat.add_right_comm]
  refine congrArg (· + _) ?_
  rw [List.getElem?_modify]
  by_cases hi : i = F.position
  · subst hi
    simp [hslot, Slot.gather, Slot.count]
  · simp [hi, Ne.symm hi]

theorem Counts.gathered (h : F.Counts f) {e : Element} (he : F.element? = some e)
    (hrep : e.repeats = true) (a : α) (hlhs : G.lhs = F.lhs) (hrule : G.rule = F.rule)
    (hposition : G.position = F.position)
    (hat : ∀ i, G.repetitionsAt i = F.repetitionsAt i + if i = F.position then 1 else 0)
    (hlists : ∀ (i : Nat) (e : Element), F.rule[i]? = some e → e.repeats = true →
      ∃ bs, G.slots[i]? = some (.many bs))
    (hroom : ∀ counts, G.pending = some counts → counts.length = F.rule.length) :
    G.Counts { f with repeated := a :: f.repeated } := by
  refine ⟨hlhs.trans h.lhs, hposition.trans h.position, ?_, ?_, ?_, ?_, ?_, ?_, ?_⟩
  · rw [hrule, hposition]
    exact h.todo
  · rw [hrule, hposition]
    exact h.bound
  · rw [SlotFrame.repetitions, hposition, hat, if_pos rfl]
    exact congrArg (· + 1) h.repetitions
  · rw [element?, hrule, hposition]
    intro e' he' hsingle
    cases he.symm.trans he'
    cases hrep.symm.trans hsingle
  · intro i hi
    rw [hposition] at hi
    rw [hat, if_neg (Nat.ne_of_gt hi)]
    exact h.ahead i hi
  · rw [hrule]
    exact hlists
  · rw [hrule]
    exact hroom

theorem Counts.next (h : F.Counts f) {e : Element} {es : Rule} (htodo : f.todo = e :: es)
    (hlhs : G.lhs = F.lhs) (hrule : G.rule = F.rule) (hposition : G.position = F.position + 1)
    (hpending : G.pending = F.pending)
    (hslots : ∀ i, (i ≠ F.position ∨ e.repeats = true) → G.slots[i]? = F.slots[i]?)
    (slot : Slot α) : G.Counts ⟨f.lhs, slot :: f.filled, [], es⟩ := by
  have he : F.element? = some e := by rw [h.element?_eq, htodo]; rfl
  have hlt := (List.getElem?_eq_some_iff.1 he).1
  have hahead : ∀ i, F.position < i → G.repetitionsAt i = 0 := by
    intro i hi
    rw [repetitionsAt, hslots i (.inl (Nat.ne_of_gt hi)), hpending]
    exact h.ahead i hi
  refine ⟨hlhs.trans h.lhs, ?_, ?_, ?_, ?_, fun _ _ _ => rfl, ?_, ?_, ?_⟩
  · rw [hposition, h.position]
    rfl
  · rw [hrule, hposition, ← List.drop_drop, h.todo, htodo]
    rfl
  · rw [hrule, hposition]
    exact hlt
  · rw [SlotFrame.repetitions, hposition]
    exact hahead _ (Nat.lt_succ_self _)
  · intro i hi
    exact hahead i (by omega)
  · rw [hrule]
    intro i e' he' hrep
    rw [hslots i]
    · exact h.lists i e' he' hrep
    · by_cases hi : i = F.position
      · subst hi
        cases he.symm.trans he'
        exact .inr hrep
      · exact .inl hi
  · rw [hpending, hrule]
    exact h.room

theorem Counts.put (h : F.Counts f) (b : β) (a : α) : (F.put b).Counts (f.put a) := by
  cases htodo : f.todo with
  | nil =>
    have hnone : F.element? = none := by rw [h.element?_eq, htodo]; rfl
    rw [SlotFrame.put, hnone, Frame.put, htodo]
    exact h
  | cons e es =>
    have he : F.element? = some e := by rw [h.element?_eq, htodo]; rfl
    rw [SlotFrame.put, he]
    cases hrep : e.repeats with
    | true =>
      obtain ⟨bs, hslot⟩ := h.lists _ e he hrep
      simp only [Frame.put_of_repeats htodo hrep, hrep, if_true]
      split
      · refine h.gathered (G := F.countOne) he hrep a rfl rfl rfl
          (repetitionsAt_countOne (List.getElem?_eq_some_iff.1 he).1 h.room) h.lists ?_
        intro counts hc
        cases hc
        rw [List.length_modify]
        cases hpending : F.pending with
        | none => exact List.length_replicate
        | some counts => exact h.room counts hpending
      · refine h.gathered (G := { F with slots := F.slots.modify F.position (·.gather b) }) he hrep
          a rfl rfl rfl (repetitionsAt_gather hslot b) ?_ h.room
        intro i e' he' hrep'
        obtain ⟨cs, hcs⟩ := h.lists i e' he' hrep'
        by_cases hi : F.position = i
        · exact ⟨cs ++ [b], by simp [hcs, hi, Slot.gather]⟩
        · exact ⟨cs, by simp [hcs, hi]⟩
    | false =>
      simp only [Frame.put_of_single htodo hrep (h.single e he hrep), hrep, Bool.false_eq_true,
        if_false]
      refine h.next (G := ⟨F.lhs, F.rule, F.position + 1, F.slots.set F.position (.one b), F.shared,
        F.pending⟩) htodo rfl rfl rfl rfl (fun i hi => ?_) _
      obtain hi | htrue := hi
      · exact List.getElem?_set_ne (Ne.symm hi)
      · cases hrep.symm.trans htrue

theorem Counts.skip (h : F.Counts f) {q : Quantifier} {s : Symbol} {es : Rule}
    (htodo : f.todo = .quantified q s :: es) : (F.skip q).Counts f.skip := by
  rw [Frame.skip, htodo]
  cases q with
  | star | plus =>
    exact h.next (G := { F with position := F.position + 1 }) htodo rfl rfl rfl rfl
      (fun _ _ => rfl) _
  | opt =>
    refine h.next (G := F.skip .opt) htodo rfl rfl rfl rfl (fun i hi => ?_) _
    obtain hi | hi := hi
    · exact List.getElem?_set_ne (Ne.symm hi)
    · cases hi

/-- **A copy of a frame in progress counts what has gathered.** -/
theorem counts_copy {g : Grammar} {P : Symbol → α → Prop} (hf : f.WellFormed g P) :
    (f.stored g).copy.Counts f := by
  obtain ⟨r, hr⟩ := hf.exists_inRule
  have hrule : (f.stored g).rule = r := by rw [Frame.stored, hr.rule]; rfl
  -- no copy has counted anything yet
  have hat : ∀ i, (f.stored g).copy.repetitionsAt i = f.slots[i]?.elim 0 Slot.count := fun i => rfl
  have hbare : ∀ e ∈ f.todo.head?, e.repeats = false → f.repeated = [] := by
    intro e he hrep
    obtain ⟨es, htodo⟩ := List.head?_eq_some_iff.1 he
    exact hf.repeated_eq_nil htodo hrep
  refine ⟨rfl, rfl, hrule ▸ hr.todo.symm, hrule ▸ hr.position, ?_, ?_, ?_,
    fun i e he hrep => hr.lists (hrule ▸ he) hrep, fun _ h => by cases h⟩
  · rw [repetitions, hat]
    change f.slots[f.position]?.elim 0 Slot.count = _
    rw [Frame.getElem?_slots_of_le (Nat.le_refl _), Nat.sub_self, if_pos rfl,
      ← List.head?_eq_getElem?]
    cases hhead : f.todo.head? with
    | none =>
      have hnone : f.repeated = [] := List.eq_nil_iff_forall_not_mem.2 fun a ha => by
        obtain ⟨q, s, es, htodo, -⟩ := hf.gathered a ha
        cases (htodo ▸ hhead)
      rw [hnone]
      rfl
    | some e =>
      rw [Option.map_some, Option.elim_some, Slot.leave]
      cases hrep : e.repeats with
      | true => exact List.length_reverse
      | false =>
        rw [hbare e hhead hrep]
        rfl
  · exact fun e he => hbare e ((Frame.element?_stored hf).symm.trans he)
  · intro i hi
    rw [hat, hr.ahead hi, Frame.getElem?_slots_start]
    cases r[i]? with
    | none => rfl
    | some e =>
      rw [Option.map_some, Option.elim_some, Slot.leave]
      split <;> rfl

end SlotFrame

end PushParser
