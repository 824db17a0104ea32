import PushParser.Proofs.Completeness
import PushParser.Proofs.Rejection
import PushParser.Proofs.Representation
import PushParser.Proofs.Soundness

/-!
# Parsers that recognise a language

When root ends in a terminal, a parse is over with its last token: no frame is left that could go
on. So a parser for a deterministic grammar of this kind tells by itself where a word ends.

* **`Grammar.Closed`**: root ends in a terminal;
* **`Grammar.Closed.stack_eq_nil`**: a stack that waits for nothing more is empty;
* `Session.done_of_derives`, `Session.exists_derives_of_done`: at the end of a word the parser is
  done, and when it is done it has had a word;
* **`Parser.recognises_iff_derives`**: what it recognises are the words of root.
-/

namespace PushParser

variable {α : Type}

/-! ## Roots that end in a terminal -/

namespace Grammar

/-- **Root ends in a terminal.** -/
def Closed (g : Grammar) : Prop :=
  ∃ before t, g.rule? rootName = some (before ++ [.symbol t]) ∧ g.rule? t = none

variable {g : Grammar}

theorem not_yields_terminal_nil {t : Symbol} (ht : g.rule? t = none) (es : Rule) :
    ¬ g.Yields (es ++ [.symbol t]) [] := by
  intro h
  obtain ⟨v, hv, -⟩ := (yields_terminal_iff ht).1 (yields_append_nil_iff.1 h).2
  cases hv

theorem Closed.ne_nil (h : g.Closed) {ts : List Token}
    (hword : g.Derives rootName (Token.tags ts)) : ts ≠ [] := by
  obtain ⟨before, t, hroot, ht⟩ := h
  rintro rfl
  rw [derives_iff_yields, yields_symbol_iff hroot] at hword
  exact not_yields_terminal_nil ht before hword

theorem Closed.position (h : g.Closed) {before es : Rule} {e : Element}
    (hr : g.rule? rootName = some (before ++ e :: es)) :
    (∃ t, e = .symbol t ∧ g.rule? t = none) ∨ ¬ g.Yields es [] := by
  obtain ⟨before', t, hroot, ht⟩ := h
  have hrule : before ++ e :: es = before' ++ [.symbol t] :=
    Option.some.inj (hr.symm.trans hroot)
  rcases List.eq_nil_or_concat es with rfl | ⟨es', e', rfl⟩
  · left
    exact ⟨t, List.singleton_inj.1 (List.append_inj' hrule rfl).2, ht⟩
  · right
    rw [List.concat_eq_append, ← List.cons_append, ← List.append_assoc] at hrule
    obtain rfl : e' = .symbol t := List.singleton_inj.1 (List.append_inj' hrule rfl).2
    rw [List.concat_eq_append]
    exact not_yields_terminal_nil ht es'

section Stacks

variable {P : Symbol → α → Prop} {f : Frame α} {below : List (Frame α)}

theorem Closed.not_yields_remaining (h : g.Closed) (hf : f.WellFormed g P)
    (hlhs : f.lhs = rootName) (hopen : f.isComplete = false) : ¬ g.Yields f.remaining [] := by
  obtain ⟨before, hrule, -⟩ := hf.rule
  obtain ⟨e, es, htodo⟩ := List.exists_cons_of_ne_nil (List.isEmpty_eq_false_iff.1 hopen)
  rw [hlhs, htodo] at hrule
  rw [Frame.remaining_of_cons htodo]
  intro hempty
  have hparts := yields_append_nil_iff (r := [e.pending f.isBare]).1 hempty
  rcases h.position hrule with ⟨t, rfl, ht⟩ | hes
  · exact not_yields_terminal_nil ht [] hparts.1
  · exact hes hparts.2

theorem Closed.not_yields_resumption (h : g.Closed) {s : Symbol} {r : Rule}
    (hs : g.rule? s = some r) (hhost : Hosted below s) (hframes : ∀ k ∈ below, k.WellFormed g P)
    (hne : below ≠ []) : ¬ g.Yields (resumption below) [] := by
  induction below generalizing s r with
  | nil => exact absurd rfl hne
  | cons k below ih =>
    obtain ⟨⟨e, es, htodo, hmem⟩, hhost'⟩ := hhost
    obtain ⟨before, hrule, -⟩ := (hframes k List.mem_cons_self).rule
    rw [resumption_cons, yields_append_nil_iff]
    rintro ⟨hk, hbelow⟩
    by_cases hnil : below = []
    · -- the outermost frame is root's, and a terminal holds no frame above it
      subst hnil
      have hlhs : k.lhs = rootName := hhost'
      rw [hlhs, htodo] at hrule
      rw [Frame.resumed_of_cons htodo, yields_append_nil_iff] at hk
      rcases h.position hrule with ⟨t, rfl, ht⟩ | hes
      · obtain rfl := List.mem_singleton.1 hmem
        cases hs.symm.trans ht
      · exact hes hk.2
    · exact ih hrule hhost' (fun l hl => hframes l (List.mem_cons_of_mem _ hl)) hnil hbelow

theorem Closed.stack_eq_nil (h : g.Closed) {stack : List (Frame α)} (hs : Sound g P stack)
    (hopen : ∀ f ∈ stack.head?, f.isComplete = false) (hawaits : g.Yields (awaited stack) []) :
    stack = [] := by
  cases stack with
  | nil => rfl
  | cons f below =>
    exfalso
    obtain ⟨hf, hhost, hframes⟩ := sound_cons_iff.1 hs
    obtain ⟨before, hrule, -⟩ := hf.rule
    rw [awaited, yields_append_nil_iff] at hawaits
    by_cases hnil : below = []
    · subst hnil
      exact h.not_yields_remaining hf hhost (hopen f rfl) hawaits.1
    · exact h.not_yields_resumption hrule hhost hframes hnil hawaits.2

end Stacks

end Grammar

/-! ## Words -/

namespace Session

open Grammar

variable {g : Grammar} {settings : List Setting} {p : Parser}

section Words

variable (hdet : g.Deterministic) (hrec : g.leftRecursion? = none) (hclosed : g.Closed)
  (hp : Parser.make (some g) settings = .ok p)

include hdet hrec hclosed hp

theorem going_offer {ts : List Token} {w : List Symbol} (hne : ts ≠ [])
    (hword : g.Derives rootName (Token.tags ts ++ w)) :
    ((start p).offer ts).accepted = ts ∧ ∃ c, ((start p).offer ts).Going g c w := by
  obtain ⟨before, t, hroot, -⟩ := hclosed
  obtain ⟨c, rfl⟩ := Parser.eq_of_make hp
  cases ts with
  | nil => exact absurd rfl hne
  | cons t ts =>
    obtain ⟨hacc, hgoing⟩ :=
      made_start.going_first hdet hrec hroot rfl (derives_iff_yields.1 hword)
    obtain ⟨hacc', hgoing'⟩ := hgoing.run_append hdet hrec
    refine ⟨?_, c, hgoing'⟩
    rw [offer_cons]
    exact hacc'.trans (by rw [hacc]; rfl)

/-- **At the end of a word of root no frame is left and the parser is done.** -/
theorem done_of_derives {ts : List Token} (hword : g.Derives rootName (Token.tags ts)) :
    ((start p).offer ts).accepted = ts ∧ ((start p).offer ts).parser.stack = [] ∧
      ((start p).offer ts).parser.done = true := by
  have hne := hclosed.ne_nil hword
  rw [← List.append_nil (Token.tags ts)] at hword
  obtain ⟨hacc, c, hgoing⟩ := going_offer hdet hrec hclosed hp hne hword
  have hstack := hclosed.stack_eq_nil hgoing.sound (incomplete_run hp _) hgoing.awaits
  exact ⟨hacc, hstack, hgoing.done hstack⟩

/-- **No word of root begins another.** -/
theorem eq_nil_of_derives_append {ts : List Token} {w : List Symbol}
    (hword : g.Derives rootName (Token.tags ts))
    (hlonger : g.Derives rootName (Token.tags ts ++ w)) : w = [] := by
  have hne := hclosed.ne_nil hword
  obtain ⟨-, hstack, -⟩ := done_of_derives hdet hrec hclosed hp hword
  obtain ⟨-, c, hgoing⟩ := going_offer hdet hrec hclosed hp hne hlonger
  have hawaits := hgoing.awaits
  rw [hstack] at hawaits
  exact yields_nil_iff.1 hawaits

omit hdet hrec hclosed in
/-- **A parser that is done has had a word of root.** -/
theorem exists_derives_of_done {calls : List Call}
    (hdone : ((start p).run calls).parser.done = true) :
    ∃ us vs, ((start p).run calls).accepted = us ++ vs ∧ g.Derives rootName (Token.tags us) := by
  obtain ⟨-, -, trees, frames, haccount⟩ := exists_account_of_make hp calls
  obtain ⟨v, hv⟩ := Option.isSome_iff_exists.1 hdone
  have hresult := haccount.result v hv
  cases trees with
  | nil => cases hresult
  | cons a trees =>
    refine ⟨a.leaves, trees.flatMap Tree.leaves ++ held frames, ?_,
      a, haccount.derivation a List.mem_cons_self, rfl⟩
    rw [← haccount.leaves, List.flatMap_cons, List.append_assoc]

end Words

end Session

/-! ## Recognising -/

/-- **The parser recognises the tokens**: it accepts all of them, and it is done with the last one
and not before. -/
structure Parser.Recognises (p : Parser) (ts : List Token) : Prop where
  accepted : ((Session.start p).offer ts).accepted = ts
  done : ((Session.start p).offer ts).parser.done = true
  pending : ∀ us, us <+: ts → us ≠ ts → ((Session.start p).offer us).parser.done = false

open Session in
/-- **What a parser recognises are the words of root**, for a deterministic grammar whose root ends
in a terminal. -/
theorem Parser.recognises_iff_derives {g : Grammar} {settings : List Setting} {p : Parser}
    (hdet : g.Deterministic) (hrec : g.leftRecursion? = none) (hclosed : g.Closed)
    (hp : Parser.make (some g) settings = .ok p) {ts : List Token} :
    p.Recognises ts ↔ g.Derives rootName (Token.tags ts) := by
  constructor
  · intro h
    obtain ⟨us, vs, hsplit, hword⟩ := exists_derives_of_done hp h.done
    rw [← offer, h.accepted] at hsplit
    -- the parser is done with `us` already, so there is nothing after it
    obtain ⟨-, -, hdone⟩ := done_of_derives hdet hrec hclosed hp hword
    by_cases hall : us = ts
    · rwa [hall] at hword
    · cases hdone.symm.trans (h.pending us ⟨vs, hsplit.symm⟩ hall)
  · intro hword
    obtain ⟨hacc, -, hdone⟩ := done_of_derives hdet hrec hclosed hp hword
    refine ⟨hacc, hdone, fun us hprefix hne => ?_⟩
    obtain ⟨ws, rfl⟩ := hprefix
    refine Bool.eq_false_iff.2 fun hdone' => hne ?_
    -- the parser has had a word, and the tokens that come after it make a longer one
    obtain ⟨vs, vs', hsplit, hword'⟩ := exists_derives_of_done hp hdone'
    have hacc' : ((start p).offer us).accepted = us := by
      cases us with
      | nil => rfl
      | cons u us =>
        rw [Grammar.tags_append] at hword
        exact (going_offer hdet hrec hclosed hp (List.cons_ne_nil u us) hword).1
    rw [← offer, hacc'] at hsplit
    rw [hsplit, List.append_assoc, Grammar.tags_append] at hword
    have hrest := eq_nil_of_derives_append hdet hrec hclosed hp hword' hword
    obtain ⟨-, rfl⟩ := List.append_eq_nil_iff.1 (List.map_eq_nil_iff.1 hrest)
    exact (List.append_nil us).symm

end PushParser
