import PushParser.Proofs.InProgress

/-!
# What is in progress can be finished

A stack is read as what it holds and what it waits for: together they make a word of root. Where
every nonterminal stands for some word there is always something to wait for, so the tokens of the
parse in progress are the beginning of a word of root.

* `Grammar.Yields.of_gathered`, **`Frame.WellFormed.yields`**: a frame stands for what it holds and
  then for what it waits for;
* `yields_of_hosted`, **`Sound.derives_awaited`**: so does a stack, for root;
* **`Grammar.Productive`**, `Sound.exists_yields_awaited`: there is something to wait for;
* `held_of_advance`: the tokens that a stack holds are those of the parse in progress;
* **`Session.exists_completion`**: after any calls the parse in progress can be finished.
-/

namespace PushParser

open PushParser.Tree (leavesOfSlots leavesOfSlot leavesOfTrees)

variable {α : Type} {g : Grammar}

/-! ## What a stack holds and waits for -/

theorem Grammar.Yields.of_gathered {q : Quantifier} {s : Symbol} {es : Rule} {ts : List Tree}
    {u : List Symbol} (hq : q.repeats = true) (hts : ∀ t ∈ ts, Derivation g s t)
    (h : g.Yields ((Element.quantified q s).pending ts.isEmpty :: es) u) :
    g.Yields (.quantified q s :: es) (Token.tags (leavesOfTrees ts) ++ u) := by
  induction ts generalizing q with
  | nil =>
    rw [List.isEmpty_nil, Element.pending_true] at h
    exact h
  | cons t ts ih =>
    have hagain : (Element.quantified q s).again = [.quantified .star s] := by
      simp [Element.again, hq]
    have hstar : g.Yields ((Element.quantified .star s).pending ts.isEmpty :: es) u := by
      cases q with
      | star | plus => exact h
      | opt => cases hq
    have hrest := ih rfl (fun t' ht' => hts t' (List.mem_cons_of_mem _ ht')) hstar
    rw [leavesOfTrees, tags_append, List.append_assoc]
    refine .once ?_
    rw [hagain]
    exact (Yields.of_derivation (hts t List.mem_cons_self)).append hrest

/-- **A frame stands for what it holds and then for what it waits for.** -/
theorem Frame.WellFormed.yields {f : Frame Tree} (hf : f.WellFormed g (Derivation g))
    {u : List Symbol} (hu : g.Yields f.remaining u) :
    g.Yields [.symbol f.lhs] (Token.tags (leavesOfSlots f.slots) ++ u) := by
  obtain ⟨done, hrule, hdone⟩ := hf.rule
  have hfinished : g.Yields done (Token.tags (leavesOfSlots f.finished)) :=
    .of_matches (.of_forall₂ hdone)
  rw [Grammar.yields_symbol_iff hrule]
  by_cases hrep : f.repeated = []
  · rw [remaining_of_bare hrep] at hu
    rw [leaves_slots_of_bare hrep]
    exact hfinished.append hu
  · -- what has gathered are repetitions of the current element
    obtain ⟨a, ha⟩ := List.exists_mem_of_ne_nil _ hrep
    obtain ⟨q, s, es, htodo, hq, -⟩ := hf.gathered a ha
    have hts : ∀ t ∈ f.repeated.reverse, Derivation g s t := by
      intro t ht
      obtain ⟨q', s', es', htodo', -, h⟩ := hf.gathered t (List.mem_reverse.1 ht)
      rw [htodo] at htodo'
      cases htodo'
      exact h
    have hslot : (Slot.leave (.quantified q s) f.repeated.reverse : Slot Tree) =
        .many f.repeated.reverse := by
      simp [Slot.leave, Element.repeats, hq]
    rw [remaining_of_cons htodo, isBare, ← List.isEmpty_reverse] at hu
    rw [leaves_slots htodo, hslot, leavesOfSlot, Grammar.tags_append, List.append_assoc, htodo]
    exact hfinished.append (.of_gathered hq hts hu)

theorem yields_of_hosted {below : List (Frame Tree)} {s : Symbol} (hhost : Hosted below s)
    (hbelow : ∀ k ∈ below, k.WellFormed g (Derivation g)) {u w : List Symbol}
    (hu : g.Yields [.symbol s] u) (hw : g.Yields (resumption below) w) :
    g.Yields [.symbol rootName] (Token.tags (held below) ++ (u ++ w)) := by
  induction below generalizing s u w with
  | nil =>
    obtain rfl := Grammar.yields_nil_iff.1 hw
    obtain rfl : s = rootName := hhost
    simpa [Token.tags] using hu
  | cons k below ih =>
    obtain ⟨⟨e, es, hk, hs⟩, hhost'⟩ := hhost
    rw [resumption_cons, Frame.resumed_of_cons hk] at hw
    obtain ⟨v, w, rfl, hv, hw⟩ := hw.split
    have hremaining : g.Yields k.remaining (u ++ v) := by
      rw [Frame.remaining_of_cons hk]
      exact .of_operand hs (hu.append hv)
    have hyields := (hbelow k List.mem_cons_self).yields hremaining
    have hroot := ih hhost' (fun l hl => hbelow l (List.mem_cons_of_mem _ hl)) hyields hw
    rw [held_cons, Grammar.tags_append]
    simpa only [List.append_assoc] using hroot

/-- **What a stack holds and then what it waits for is a word of root.** -/
theorem Sound.derives_awaited {stack : List (Frame Tree)} (hs : Sound g (Derivation g) stack)
    (hne : stack ≠ []) {w : List Symbol} (hw : g.Yields (awaited stack) w) :
    g.Derives rootName (Token.tags (held stack) ++ w) := by
  cases stack with
  | nil => exact absurd rfl hne
  | cons f below =>
    obtain ⟨hf, hhost, hbelow⟩ := sound_cons_iff.1 hs
    obtain ⟨u, v, rfl, hu, hv⟩ := Grammar.Yields.split hw
    have hroot := yields_of_hosted hhost hbelow (hf.yields hu) hv
    rw [held_cons, Grammar.tags_append, Grammar.derives_iff_yields]
    simpa only [List.append_assoc] using hroot

/-! ## There is something to wait for -/

/-- **Every nonterminal stands for some word.** -/
def Grammar.Productive (g : Grammar) : Prop := ∀ s ∈ g.nonterminals, ∃ w, g.Derives s w

namespace Frame.WellFormed

variable {P : Symbol → α → Prop} {f : Frame α}

theorem exists_yields_todo (hf : f.WellFormed g P) (hg : g.Productive) :
    ∃ w, g.Yields f.todo w := by
  obtain ⟨done, hrule, -⟩ := hf.rule
  have hlhs : f.lhs ∈ g.nonterminals := NameMap.mem_keys_iff.2 ⟨_, hrule⟩
  obtain ⟨w, hw⟩ := hg f.lhs hlhs
  rw [Grammar.derives_iff_yields, Grammar.yields_symbol_iff hrule] at hw
  obtain ⟨-, v, -, -, hv⟩ := hw.split
  exact ⟨v, hv⟩

theorem exists_yields_remaining (hf : f.WellFormed g P) (hg : g.Productive) :
    ∃ w, g.Yields f.remaining w := by
  obtain ⟨w, hw⟩ := hf.exists_yields_todo hg
  cases htodo : f.todo with
  | nil => exact ⟨[], by rw [remaining_of_nil htodo]; exact .nil⟩
  | cons e es =>
    refine ⟨w, ?_⟩
    rw [htodo, ← Element.pending_true e] at hw
    rw [remaining_of_cons htodo]
    rcases Grammar.yields_pending_iff.1 hw with ⟨s, hs, h⟩ | ⟨q, s, rfl, hq, h⟩
    · exact .of_operand hs h
    · refine .of_skip ?_ h
      cases q with
      | star | opt => rfl
      | plus => cases hq

theorem exists_yields_resumed (hf : f.WellFormed g P) (hg : g.Productive) :
    ∃ w, g.Yields f.resumed w := by
  obtain ⟨w, hw⟩ := hf.exists_yields_todo hg
  cases htodo : f.todo with
  | nil => exact ⟨[], by rw [resumed, htodo]; exact .nil⟩
  | cons e es =>
    rw [htodo] at hw
    obtain ⟨-, v, -, -, hv⟩ := Grammar.Yields.split (r := [e]) hw
    exact ⟨[] ++ v, by rw [resumed_of_cons htodo]; exact (Grammar.yields_again e).append hv⟩

end Frame.WellFormed

theorem Sound.exists_yields_awaited {P : Symbol → α → Prop} {stack : List (Frame α)}
    (hs : Sound g P stack) (hg : g.Productive) : ∃ w, g.Yields (awaited stack) w := by
  have hbelow : ∀ below : List (Frame α), (∀ k ∈ below, k.WellFormed g P) →
      ∃ w, g.Yields (resumption below) w := by
    intro below hwf
    induction below with
    | nil => exact ⟨[], .nil⟩
    | cons k below ih =>
      obtain ⟨u, hu⟩ := (hwf k List.mem_cons_self).exists_yields_resumed hg
      obtain ⟨v, hv⟩ := ih fun l hl => hwf l (List.mem_cons_of_mem _ hl)
      exact ⟨u ++ v, hu.append hv⟩
  cases stack with
  | nil => exact ⟨[], .nil⟩
  | cons f below =>
    obtain ⟨u, hu⟩ := (hs.frames f List.mem_cons_self).exists_yields_remaining hg
    obtain ⟨v, hv⟩ := hbelow below fun k hk => hs.frames k (List.mem_cons_of_mem _ hk)
    exact ⟨u ++ v, hu.append hv⟩

/-! ## The tokens of the parse in progress -/

section Held

variable {E : Engine} {t : Token} {stack : List (Frame Tree)} {c : Commit Tree}
  {events : List (Event Tree)}

/-- When root was reduced on the way, the frames that are left hold the token alone. -/
theorem Takes.held_of_restart (htakes : Takes E Tree.algebra t stack c events)
    (hroot : c.root.isSome = true) : held c.stack = [t] := by
  induction htakes with
  | fresh | shift => cases hroot
  | reduce _ _ ih => exact ih hroot
  | restart _ rest _ =>
    have hheld := rest.held_eq sound_nil
    rw [rest.root_eq_none] at hheld
    exact hheld

/-- **What a stack holds when a token was taken**: the token alone if root was reduced, and else the
tokens it held and then that one. -/
theorem held_of_advance {blank : Tree} (h : advance E Tree.algebra blank t stack = some (c, events))
    (hs : Sound E.grammar (Derivation E.grammar) stack) (hne : c.stack ≠ []) :
    held c.stack = if c.root = none then held stack ++ [t] else [t] := by
  obtain ⟨c', events', htakes, rfl, rfl⟩ := exists_takes_of_advance h
  have hsettle := root_of_settle_stack hne
  have hheld := held_settle (htakes.sound (Tree.respects _) hs).1
  rw [hsettle] at hheld
  simp only [hsettle, Option.none_or]
  refine Eq.trans hheld ?_
  split
  · next hroot =>
    have htaken := htakes.held_eq hs
    rw [hroot] at htaken
    exact htaken
  · next hroot => exact htakes.held_of_restart (Option.isSome_iff_ne_none.2 hroot)

end Held

/-! ## Sessions -/

namespace Session

variable {settings : Settings} {x : Session} {known : Current} {frames : List (Frame Tree)}
  {t : Token}

/-- The frames hold partial trees, and the tokens of these are those of the parse in progress. -/
structure Holding (g : Grammar) (x : Session) (known : Current) (frames : List (Frame Tree)) :
    Prop where
  stack : x.parser.stack = frames.map (Frame.map (Tree.fold x.parser.settings.actions.algebra))
  sound : Sound g (Derivation g) frames
  tokens : frames ≠ [] → held frames = known.tokens

theorem Holding.take (hx : x.Made g settings) (h : x.Holding g known frames) {c : Commit Value}
    {events : List (Event Value)} (hc : x.parser.commit t = some (c, events)) :
    ∃ frames', (x.call (.observe t)).Holding g (known.after x (.observe t)) frames' := by
  have hE : x.parser.engine.grammar = g := by rw [hx.engine]; rfl
  obtain ⟨c', events', hadv, rfl, rfl⟩ := exists_commit_tree h.stack hc
  have hs : Sound x.parser.engine.grammar (Derivation x.parser.engine.grammar) frames := by
    rw [hE]
    exact h.sound
  have hsound := advance_sound (Tree.respects _) hadv hs
  rw [hE] at hsound
  have hempty : x.parser.stack = [] ↔ frames = [] := by rw [h.stack, List.map_eq_nil_iff]
  have hroot : (c'.map (Tree.fold x.parser.settings.actions.algebra)).root = none ↔
      c'.root = none := Option.map_eq_none_iff
  rw [call_of_commit_some hx.ready hc, after_of_commit_some hx.ready hc]
  refine ⟨c'.stack, rfl, hsound, fun hne => ?_⟩
  rw [held_of_advance hadv hs hne]
  simp only [hempty, hroot]
  by_cases hframes : frames = []
  · simp [hframes]
  · rw [if_neg hframes, h.tokens hframes]
    split <;> rfl

theorem Holding.call (hx : x.Made g settings) (h : x.Holding g known frames) (c : Call) :
    ∃ frames', (x.call c).Holding g (known.after x c) frames' := by
  cases c with
  | reset => exact ⟨[], rfl, sound_nil, fun h => absurd rfl h⟩
  | observe t =>
    cases hc : x.parser.commit t with
    | some y => exact h.take hx hc
    | none =>
      obtain ⟨r, events, hcall, -⟩ := call_of_commit_none hx.ready hc
      rw [hcall, after_of_commit_none hx.ready hc]
      exact ⟨frames, h.stack, h.sound, h.tokens⟩

theorem exists_holding {settings : List Setting} {p : Parser}
    (hp : Parser.make (some g) settings = .ok p) (calls : List Call) :
    ∃ frames, ((start p).run calls).Holding g (current p calls) frames := by
  obtain ⟨c, rfl⟩ := Parser.eq_of_make hp
  refine (current_induction (I := fun y known => y.Made g c ∧ ∃ frames, y.Holding g known frames)
    ⟨made_start, [], rfl, sound_nil, fun h => absurd rfl h⟩ (fun y known call hy => ?_) calls).2
  obtain ⟨hmade, frames, h⟩ := hy
  exact ⟨hmade.call call, h.call hmade call⟩

/-- **What is in progress can be finished.** Let every nonterminal stand for some word. After any
calls that leave frames in progress, the tags of the tokens accepted since the root frame was
created, the one that created it included, are the beginning of a word of root. -/
theorem exists_completion {settings : List Setting} {p : Parser} (hg : g.Productive)
    (hp : Parser.make (some g) settings = .ok p) {calls : List Call}
    (hne : ((start p).run calls).parser.stack ≠ []) :
    ∃ rest, g.Derives rootName (Token.tags (current p calls).tokens ++ rest) := by
  obtain ⟨frames, h⟩ := exists_holding hp calls
  have hframes : frames ≠ [] := by
    rintro rfl
    exact hne h.stack
  obtain ⟨rest, hrest⟩ := h.sound.exists_yields_awaited hg
  rw [← h.tokens hframes]
  exact ⟨rest, h.sound.derives_awaited hframes hrest⟩

/-! ## Nested lists can be finished -/

theorem productive_nestedLists : nestedLists.Productive := by
  have hitem : nestedLists.Yields [.symbol "item"] ["x"] :=
    .rule rfl (.choice List.mem_cons_self (.terminal rfl .nil))
  intro s hs
  have hname : s = "item" ∨ s = "items" ∨ s = "more" ∨ s = "root" := by
    have hmem : s ∈ ["item", "items", "more", "root"] := hs
    simpa using hmem
  simp only [Grammar.derives_iff_yields]
  rcases hname with rfl | rfl | rfl | rfl
  · exact ⟨_, hitem⟩
  · exact ⟨_, .rule rfl (hitem.append (.never rfl .nil))⟩
  · exact ⟨_, .rule rfl (.terminal rfl hitem)⟩
  · exact ⟨_, .rule rfl (.terminal rfl (.never rfl (.terminal rfl .nil)))⟩

/-- After a list that was read to its end and `((x` of the next, with a comma refused on the way. -/
theorem exists_completion_nested : ∃ p calls, nestedLists.Productive ∧
    Parser.make (some nestedLists) [.predict] = .ok p ∧
    calls = [.observe ⟨"(", .null⟩, .observe ⟨")", .null⟩, .observe ⟨"(", .null⟩,
      .observe ⟨",", .null⟩, .observe ⟨"(", .null⟩, .observe ⟨"x", .null⟩] ∧
    ((start p).run calls).parser.stack ≠ [] ∧
    Token.tags (current p calls).tokens = ["(", "(", "x"] ∧
    ∃ rest, nestedLists.Derives rootName (Token.tags (current p calls).tokens ++ rest) :=
  ⟨_, _, productive_nestedLists, rfl, rfl, List.cons_ne_nil _ _, rfl,
    @exists_completion nestedLists [.predict] _ productive_nestedLists rfl _
      (List.cons_ne_nil _ _)⟩

end Session

end PushParser
