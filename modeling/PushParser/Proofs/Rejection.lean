import PushParser.Proofs.Session

/-!
# Rejected tokens

A rejected token leaves no mark on the parse, whatever its listeners have the parser observe
meanwhile.

* **`Observation.Refusal`**: the last rejection is all that an observation changed, and rejecting is
  all that happened in it;
* `Parser.refusal_of_commit_none`: a token that cannot be taken is refused in this sense;
* `Parser.taken`: those of several tokens that are accepted;
* **`Session.Agrees`**: two sessions differ in their rejections only, with a step lemma for a token
  that is taken and one for a token that is not;
* **`Session.rejected_invisible`**: leaving out the tokens that are rejected changes nothing else;
* `Session.Records`, **`Session.records_observe`**: many tokens offered at once.
-/

namespace PushParser

/-- The entry was noted down of a rejection. -/
def Entry.isRejection : Entry → Bool
  | .shift .. | .reduce .. => false
  | .reject .. | .nested .. => true

theorem Settings.isRejection_of_mem_log {c : Settings} {p : Parser} {events : List (Event Value)}
    (h : ∀ e ∈ events, e.Refuses p) : ∀ n ∈ c.log events, n.isRejection = true := by
  intro n hn
  obtain ⟨e, he, hn⟩ := List.mem_flatMap.1 hn
  have hrefuses := h e he
  cases e with
  | shift | reduce => exact hrefuses.elim
  | reject => cases hn
  | told | nested =>
    rw [List.mem_singleton.1 hn]
    rfl

/-- **An observation that took nothing**: the last rejection is all that changed in `p`, and only
rejections happened and were noted down. -/
structure Observation.Refusal (p : Parser) (o : Observation) : Prop where
  parser : ∃ u, o.parser = { p with rejection := some ⟨u, p.expected⟩ }
  events : ∀ e ∈ o.events, e.Refuses p
  log : ∀ n ∈ o.log, n.isRejection = true

namespace Parser

variable {p : Parser}

/-- **A token that cannot be taken is refused.** -/
theorem refusal_of_commit_none (hp : p.Ready) {t : Token} (h : p.commit t = none) :
    (p.observe t).Refusal p := by
  obtain ⟨-, hparser, hevents⟩ := observe_refused hp h
  exact ⟨hparser, hevents, Settings.isRejection_of_mem_log hevents⟩

theorem accepted_observe (hp : p.Ready) (t : Token) :
    (p.observe t).accepted = (p.commit t).isSome := by
  cases h : p.commit t with
  | none => exact (observe_refused hp h).1
  | some x => rw [observe_of_commit_some hp h]; rfl

/-- The tokens that are accepted when they are offered in order. -/
def taken (p : Parser) : List Token → List Token
  | [] => []
  | t :: ts =>
    let o := p.observe t
    if o.accepted then t :: o.parser.taken ts else o.parser.taken ts

theorem taken_sublist (p : Parser) (ts : List Token) : (p.taken ts).Sublist ts := by
  induction ts generalizing p with
  | nil => exact .slnil
  | cons t ts ih =>
    rw [taken]
    split
    · exact (ih _).cons_cons t
    · exact (ih _).cons t

end Parser

/-! ## Two sessions -/

namespace Session

variable {g : Grammar} {settings : Settings} {x y z : Session}

/-- Tokens are offered, one after the other. -/
def offer (x : Session) (ts : List Token) : Session := x.run (ts.map .observe)

/-- The shifts and the reductions since the last reset, in order. -/
def progress (x : Session) : List (Event Value) := x.events.filter fun e => !e.isRejection

theorem offer_cons (x : Session) (t : Token) (ts : List Token) :
    x.offer (t :: ts) = (x.call (.observe t)).offer ts := rfl

theorem taken_cons (x : Session) (t : Token) (ts : List Token) :
    x.parser.taken (t :: ts) = if (x.parser.observe t).accepted
      then t :: (x.call (.observe t)).parser.taken ts
      else (x.call (.observe t)).parser.taken ts := rfl

/-- **The sessions differ in their rejections only.** -/
structure Agrees (y z : Session) : Prop where
  parser : y.parser = { z.parser with rejection := y.parser.rejection }
  accepted : y.accepted = z.accepted
  events : y.progress = z.progress

theorem Agrees.refl (x : Session) : x.Agrees x := ⟨rfl, rfl, rfl⟩

theorem Agrees.call_of_commit_none (h : y.Agrees z) (hy : y.parser.Ready) {t : Token}
    (ht : y.parser.commit t = none) : (y.call (.observe t)).Agrees z := by
  obtain ⟨r, events, hcall, hevents⟩ := Session.call_of_commit_none hy ht
  have hnone : events.filter (fun e => !e.isRejection) = [] :=
    List.filter_eq_nil_iff.2 fun e he => by rw [hevents e he]; decide
  rw [hcall]
  refine ⟨?_, h.accepted, ?_⟩
  · rw [h.parser]
  · rw [progress, List.filter_append, hnone, List.append_nil]
    exact h.events

theorem Agrees.call_of_commit_some (h : y.Agrees z) (hy : y.parser.Ready) {t : Token}
    {x : Commit Value × List (Event Value)} (ht : y.parser.commit t = some x) :
    (y.call (.observe t)).Agrees (z.call (.observe t)) := by
  obtain ⟨c, events⟩ := x
  -- neither what a token does nor whether it is taken depends on the last rejection
  have hcommit : y.parser.commit t = z.parser.commit t := by rw [h.parser]; rfl
  have hready : y.parser.Ready ↔ z.parser.Ready := by rw [h.parser]; rfl
  have hresult : y.parser.resultAfter c = z.parser.resultAfter c := by rw [h.parser]; rfl
  rw [Session.call_of_commit_some hy ht,
    Session.call_of_commit_some (hready.1 hy) (hcommit ▸ ht)]
  refine ⟨?_, ?_, ?_⟩
  · rw [hresult, h.parser]
  · rw [h.accepted]
  · rw [progress, progress, List.filter_append, List.filter_append]
    exact congrArg (· ++ _) h.events

/-- **Leaving out the tokens that one session rejects makes no difference.** -/
theorem Agrees.offer_taken (h : y.Agrees z) (hy : y.Made g settings) (ts : List Token) :
    (y.offer ts).Agrees (z.offer (y.parser.taken ts)) := by
  induction ts generalizing y z with
  | nil => exact h
  | cons t ts ih =>
    have hmade := hy.call (.observe t)
    rw [offer_cons, taken_cons, Parser.accepted_observe hy.ready]
    cases ht : y.parser.commit t with
    | none => exact ih (h.call_of_commit_none hy.ready ht) hmade
    | some x => exact ih (h.call_of_commit_some hy.ready ht) hmade

theorem accepted_offer (hx : x.Made g settings) (ts : List Token) :
    (x.offer ts).accepted = x.accepted ++ x.parser.taken ts := by
  induction ts generalizing x with
  | nil => exact (List.append_nil _).symm
  | cons t ts ih =>
    rw [offer_cons, ih (hx.call (.observe t)), taken_cons, call]
    cases (x.parser.observe t).accepted with
    | false => rfl
    | true => exact List.append_assoc _ [t] _

/-- **Rejected tokens are invisible.** After any calls the lookahead is empty, and a token that is
rejected then changes nothing but the last rejection, also when a listener has the parser observe
other tokens meanwhile. So, whatever tokens are offered, offering only those of them that are
accepted accepts them all and leads to the same stack, the same value of root and the same shifts
and reductions. -/
theorem rejected_invisible {settings : List Setting} {p : Parser}
    (hp : Parser.make (some g) settings = .ok p) {calls : List Call}
    (hx : x = (start p).run calls) :
    x.parser.lookahead.items = [] ∧
      (∀ t, (x.parser.observe t).accepted = false → (x.parser.observe t).Refusal x.parser) ∧
      ∀ ts us, x.parser.taken ts = us →
        us.Sublist ts ∧ x.parser.taken us = us ∧ (x.offer ts).Agrees (x.offer us) := by
  obtain ⟨c, hmade, -⟩ := exists_sound hp calls
  rw [← hx] at hmade
  refine ⟨by rw [hmade.ready]; rfl, fun t ht => ?_, ?_⟩
  · rw [Parser.accepted_observe hmade.ready, Option.isSome_eq_false_iff,
      Option.isNone_iff_eq_none] at ht
    exact Parser.refusal_of_commit_none hmade.ready ht
  · rintro ts us rfl
    have hagrees := (Agrees.refl x).offer_taken hmade ts
    refine ⟨x.parser.taken_sublist ts, ?_, hagrees⟩
    -- both sessions accepted the same tokens: those taken of `ts`, and those taken of these again
    have haccepted := hagrees.accepted
    rw [accepted_offer hmade, accepted_offer hmade] at haccepted
    exact (List.append_cancel_left haccepted).symm

/-- A parser for nested lists that observes a closing bracket whenever it rejects a token. -/
def eagerParser : Parser :=
  let c : Settings := { Settings.default with onReject := [.observe ⟨")", .null⟩, .note "log"] }
  ⟨nestedLists.engine c.predict, c, [], .ofLimit 1, none, none⟩

/-- After `(x` a further `x` is rejected, and so is the closing bracket observed then, which would
be taken otherwise. -/
theorem rejected_invisible_eager :
    Parser.make (some nestedLists) [.onReject (.observe ⟨")", .null⟩), .onReject (.note "log")] =
        .ok eagerParser ∧
      ∃ x, x = (start eagerParser).run [.observe ⟨"(", .null⟩, .observe ⟨"x", .null⟩] ∧
        (x.parser.observe ⟨"x", .null⟩).accepted = false ∧
        (x.parser.observe ⟨"x", .null⟩).Refusal x.parser ∧
        x.parser.taken [⟨"x", .null⟩, ⟨",", .null⟩, ⟨")", .null⟩, ⟨"x", .null⟩, ⟨")", .null⟩] =
          [⟨",", .null⟩, ⟨"x", .null⟩, ⟨")", .null⟩] ∧
        (x.offer [⟨"x", .null⟩, ⟨",", .null⟩, ⟨")", .null⟩, ⟨"x", .null⟩, ⟨")", .null⟩]).Agrees
          (x.offer [⟨",", .null⟩, ⟨"x", .null⟩, ⟨")", .null⟩]) := by
  obtain ⟨-, hrefusal, htaken⟩ := @rejected_invisible nestedLists _
    [.onReject (.observe ⟨")", .null⟩), .onReject (.note "log")] eagerParser rfl
    [.observe ⟨"(", .null⟩, .observe ⟨"x", .null⟩] rfl
  exact ⟨rfl, _, rfl, rfl, hrefusal _ rfl, rfl, (htaken _ _ rfl).2.2⟩

end Session

/-! ## Many tokens at once -/

theorem Event.trace_append (a b : List (Event Value)) :
    Event.trace (a ++ b) = Event.trace a ++ Event.trace b := by
  have hflat : ∀ ts : List (List Char), [].intercalate ts = ts.flatten := by
    intro ts
    induction ts with
    | nil => rfl
    | cons t ts ih =>
      cases ts with
      | nil => simp
      | cons u us => simp [List.intercalate_cons_cons, ih]
  rw [← String.toList_inj, String.toList_append]
  simp [Event.trace, String.toList_intercalate, hflat]

namespace Session

variable {g : Grammar} {settings : Settings} {x : Session}

/-- **The observations of many tokens are those of the calls.** -/
structure Records (x : Session) (os : Observations) : Prop where
  parser : os.parser = x.parser
  accepted : os.accepted = x.accepted.length
  log : os.log.toList = x.parser.settings.log x.events
  trace : os.trace = x.parser.settings.traceOf x.events

theorem Records.add {os : Observations} (h : x.Records os) (hx : x.Made g settings) (t : Token) :
    (x.call (.observe t)).Records (os.add t) := by
  have hsettings : (x.parser.observe t).parser.settings = x.parser.settings :=
    (hx.call (.observe t)).settings.trans hx.settings.symm
  refine ⟨?_, ?_, ?_, ?_⟩
  · rw [Observations.add, h.parser]
    rfl
  · rw [Observations.add, h.parser, call]
    cases (x.parser.observe t).accepted <;> simp [h.accepted]
  · rw [Observations.add, h.parser, call]
    simp [h.log, Observation.log, hsettings, Settings.log]
  · rw [Observations.add, h.parser, call]
    simp only [h.trace, Observation.trace, hsettings, Settings.traceOf]
    split
    · exact (Event.trace_append _ _).symm
    · rfl

theorem Records.addAll {os : Observations} (h : x.Records os) (hx : x.Made g settings)
    (ts : List Token) : (x.offer ts).Records (os.addAll ts) := by
  induction ts generalizing x os with
  | nil => exact h
  | cons t ts ih => exact ih (h.add hx t) (hx.call (.observe t))

theorem Records.addTimes {os : Observations} (h : x.Records os) (hx : x.Made g settings)
    (ts : List Token) (n : Nat) :
    (x.offer (List.replicate n ts).flatten).Records (os.addTimes ts n) := by
  induction n generalizing x os with
  | zero => exact h
  | succ n ih =>
    have hmade : (x.offer ts).Made g settings :=
      run_induction hx (fun y call hy => hy.call call) (ts.map .observe)
    rw [List.replicate_succ, List.flatten_cons, offer, List.map_append, run, List.foldl_append]
    exact ih (h.addAll hx ts) hmade

/-- **Offering many tokens at once is offering one after the other**, after any calls and however
many times over: the parser, how many tokens are accepted, what the listeners note down and the
trace are the same. -/
theorem records_observe {settings : List Setting} {p : Parser}
    (hp : Parser.make (some g) settings = .ok p) (calls : List Call) (ts : List Token) (n : Nat) :
    ((start ((start p).run calls).parser).offer ts).Records
        (((start p).run calls).parser.observeAll ts) ∧
      ((start ((start p).run calls).parser).offer (List.replicate n ts).flatten).Records
        (((start p).run calls).parser.observeTimes ts n) := by
  obtain ⟨c, hmade, -⟩ := exists_sound hp calls
  have hstart : (start ((start p).run calls).parser).Made g c :=
    ⟨hmade.engine, hmade.settings, hmade.ready⟩
  have hrecords : (start ((start p).run calls).parser).Records
      (.start ((start p).run calls).parser) :=
    ⟨rfl, rfl, rfl, by rw [Settings.traceOf]; split <;> rfl⟩
  exact ⟨hrecords.addAll hstart ts, hrecords.addTimes hstart ts n⟩

end Session

end PushParser
