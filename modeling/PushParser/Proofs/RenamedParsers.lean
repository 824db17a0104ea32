import PushParser.Proofs.Outline
import PushParser.Proofs.RenamedRules
import PushParser.Proofs.Session

/-!
# Parsers in other names

Two parsers without actions of their own, for grammars that have the same rules in other names, do
the same in these names: they take the same tokens, their frames are the same, and so are their
results.

* `Value.rename`: what reductions without actions yield, in other names;
* `Parser.commit_rename`: taking one token;
* **`Session.Renamed`**: two sessions that differ in names only;
* **`Session.Renamed.run`**: they do so after any calls.
-/

namespace PushParser

/-! ## Values -/

namespace Value

mutual

/-- **The value in other names.** The values that tokens carry are their own. -/
def rename (ρ : Symbol → Symbol) : Value → Value
  | .token tag payload => .token (ρ tag) payload
  | .list vs => .list (renameAll ρ vs)
  | v => v

/-- The values in other names. -/
def renameAll (ρ : Symbol → Symbol) : List Value → List Value
  | [] => []
  | v :: vs => v.rename ρ :: renameAll ρ vs

end

theorem renameAll_eq (ρ : Symbol → Symbol) (vs : List Value) :
    renameAll ρ vs = vs.map (rename ρ) := by
  induction vs with
  | nil => rw [renameAll, List.map_nil]
  | cons v vs ih => rw [renameAll, ih, List.map_cons]

end Value

theorem Slot.value_rename (ρ : Symbol → Symbol) (s : Slot Value) :
    s.value.rename ρ = (s.map (Value.rename ρ)).value := by
  cases s with
  | vacant => simp [value, map, Value.rename]
  | one v => rfl
  | many vs => simp [value, map, Value.rename, Value.renameAll_eq]

theorem Actions.relabels_default (ρ : Symbol → Symbol) :
    (Actions.default.algebra).Relabels ρ (Value.rename ρ) Actions.default.algebra where
  token t := by simp [algebra, Value.ofToken, Token.rename, Value.rename]
  node lhs slots := by
    simp only [algebra, default, Value.rename, Value.renameAll_eq, List.map_map]
    congr 2
    funext s
    exact Slot.value_rename ρ s

/-! ## Tokens -/

/-- The stack in other names. -/
def renameStack (ρ : Symbol → Symbol) (stack : List (Frame Value)) : List (Frame Value) :=
  stack.map (Frame.relabel ρ (Value.rename ρ))

/-- The call in other names. -/
def Call.rename (ρ : Symbol → Symbol) : Call → Call
  | .observe t => .observe (t.rename ρ)
  | .reset => .reset

theorem Parser.commit_rename {ρ : Symbol → Symbol} {p p' : Parser}
    (R : p.engine.Renames ρ p'.engine) (hp : p.settings.actions = Actions.default)
    (hp' : p'.settings.actions = Actions.default) (hstack : p'.stack = renameStack ρ p.stack)
    (t : Token) :
    p'.commit (t.rename ρ) = (p.commit t).map fun x =>
      (x.1.relabel ρ (Value.rename ρ), x.2.map (Event.relabel ρ (Value.rename ρ))) := by
  rw [commit, commit, hp, hp', hstack]
  exact advance_relabel R (Actions.relabels_default ρ) t .null .null p.stack

/-! ## Sessions -/

namespace Session

/-- **Two sessions that differ in names only.** -/
structure Renamed (ρ : Symbol → Symbol) (x x' : Session) : Prop where
  stack : x'.parser.stack = renameStack ρ x.parser.stack
  result : x'.parser.result = x.parser.result.map (Value.rename ρ)
  /-- The tokens accepted since the last reset are the same in other names. -/
  accepted : x'.accepted = x.accepted.map (Token.rename ρ)

variable {ρ : Symbol → Symbol} {g g' : Grammar} {c c' : Settings} {x x' : Session}

theorem Renamed.done (h : x.Renamed ρ x') : x'.parser.done = x.parser.done := by
  rw [Parser.done, Parser.done, h.result, Option.isSome_map]

theorem Renamed.frames (h : x.Renamed ρ x') :
    x'.parser.frames = x.parser.frames.map fun f => (ρ f.1, f.2) := by
  rw [Parser.frames, Parser.frames, h.stack, renameStack, List.map_map, List.map_map]
  congr 1
  funext f
  simp [Frame.relabel, Frame.position, Frame.length, Rule.rename]

theorem Renamed.call (h : x.Renamed ρ x') (R : x.parser.engine.Renames ρ x'.parser.engine)
    (hx : x.Made g c) (hx' : x'.Made g' c') (hc : c.actions = Actions.default)
    (hc' : c'.actions = Actions.default) (a : Call) :
    (x.call a).Renamed ρ (x'.call (a.rename ρ)) := by
  cases a with
  | reset => exact ⟨rfl, rfl, rfl⟩
  | observe t =>
    have hcommit := Parser.commit_rename R (by rw [hx.settings, hc]) (by rw [hx'.settings, hc'])
      h.stack t
    cases ht : x.parser.commit t with
    | none =>
      rw [ht, Option.map_none] at hcommit
      obtain ⟨r, events, hcall, -⟩ := call_of_commit_none hx.ready ht
      obtain ⟨r', events', hcall', -⟩ := call_of_commit_none hx'.ready hcommit
      rw [hcall, Call.rename, hcall']
      exact ⟨h.stack, h.result, h.accepted⟩
    | some y =>
      obtain ⟨d, events⟩ := y
      rw [ht, Option.map_some] at hcommit
      rw [call_of_commit_some hx.ready ht, Call.rename, call_of_commit_some hx'.ready hcommit]
      refine ⟨rfl, ?_, ?_⟩
      · have hempty : x'.parser.stack.isEmpty = x.parser.stack.isEmpty := by
          rw [h.stack, renameStack, List.isEmpty_map]
        simp only [Parser.resultAfter, Commit.relabel, hempty, h.result]
        cases d.root with
        | some v => rfl
        | none => cases x.parser.stack.isEmpty <;> rfl
      · rw [h.accepted, List.map_append]
        rfl

theorem Renamed.accepted_observe (h : x.Renamed ρ x')
    (R : x.parser.engine.Renames ρ x'.parser.engine) (hx : x.Made g c) (hx' : x'.Made g' c')
    (hc : c.actions = Actions.default) (hc' : c'.actions = Actions.default) (t : Token) :
    (x'.parser.observe (t.rename ρ)).accepted = (x.parser.observe t).accepted := by
  have hcommit := Parser.commit_rename R (by rw [hx.settings, hc]) (by rw [hx'.settings, hc'])
    h.stack t
  cases ht : x.parser.commit t with
  | none =>
    rw [ht, Option.map_none] at hcommit
    rw [(Parser.observe_of_commit_none hx.ready ht).1,
      (Parser.observe_of_commit_none hx'.ready hcommit).1]
  | some y =>
    rw [ht, Option.map_some] at hcommit
    rw [Parser.observe_of_commit_some hx.ready ht, Parser.observe_of_commit_some hx'.ready hcommit]

/-- **After any calls the sessions differ in names only.** -/
theorem Renamed.run (h : x.Renamed ρ x')
    (R : (g.engine c.predict).Renames ρ (g'.engine c'.predict)) (hx : x.Made g c)
    (hx' : x'.Made g' c') (hc : c.actions = Actions.default) (hc' : c'.actions = Actions.default)
    (calls : List Call) :
    (x.run calls).Renamed ρ (x'.run (calls.map (Call.rename ρ))) ∧ (x.run calls).Made g c ∧
      (x'.run (calls.map (Call.rename ρ))).Made g' c' := by
  induction calls generalizing x x' with
  | nil => exact ⟨h, hx, hx'⟩
  | cons a calls ih =>
    have hengine : x.parser.engine.Renames ρ x'.parser.engine := by
      rw [hx.engine, hx'.engine]
      exact R
    exact ih (h.call hengine hx hx' hc hc' a) (hx.call a) (hx'.call (a.rename ρ))

end Session

end PushParser
