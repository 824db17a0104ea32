import Mathlib.Data.List.Sort
import PushParser.Proofs.Cycles
import PushParser.Proofs.Reading

/-!
# Which definitions are accepted

Definitions are accepted exactly if they are well formed, and what is wrong with others is reported
in a fixed order: first what is wrong with one of their elements, at the first place in the order of
the names, then an empty sequence, then left recursion.

* **`Form.Proper`**: the forms that may stand at a position of a rule;
* `Form.checked_draft`: the check of an element passes these and no others;
* `Form.draftRule_of_fault`, `NameMap.mapM_of_error`: the first fault counts;
* **`Grammar.exists_prepared_iff`**: which definitions reach the check for left recursion;
* **`Element.Canonical`**, `Grammar.canonicalFor_of_prepared`: what their rules look like;
* **`Grammar.build_outcome`**: what building says of any definitions.
-/

namespace PushParser

/-! ## Elements -/

/-- The element has operands, and none of them is the empty symbol. -/
def Element.Canonical (e : Element) : Prop := e.operands ≠ [] ∧ "" ∉ e.operands

/-- What a checked position holds: a canonical element, or a group of at least two symbols. -/
def Draft.Canonical : Draft → Prop
  | .element e => e.Canonical
  | .group _ ss => 2 ≤ ss.length ∧ "" ∉ ss

/-- **The forms that may stand at a position of a rule**: a symbol or another canonical element, and
an operator applied to symbols. No symbol is empty, and there is at least one operand. -/
inductive Form.Proper : Form → Prop
  | name {s : String} (h : s ≠ "") : Proper (.name s)
  | element {e : Element} (h : e.Canonical) : Proper (.element e)
  | operator {boxed : Bool} {code : Int} {op : Operator} {os : List Form}
      (hop : Operator.ofCode? code = some op) (hne : os ≠ [])
      (hos : ∀ o ∈ os, ∃ s, o.symbol? = some s ∧ s ≠ "") : Proper (.operator boxed code os)

theorem Operator.canonical_draft {op : Operator} {ss : List Symbol} (hne : ss ≠ [])
    (hss : "" ∉ ss) : (op.draft ss).Canonical := by
  rcases ss with _ | ⟨s, _ | ⟨s', ss⟩⟩
  · exact absurd rfl hne
  · cases op with
    | choice | quantifier => exact ⟨List.cons_ne_nil _ _, hss⟩
  · cases op with
    | choice => exact ⟨List.cons_ne_nil _ _, hss⟩
    | quantifier q => exact ⟨by simp, hss⟩

namespace Form

/-- What the check of an element says: it is proper and its draft canonical, or it is not proper. -/
def Checked (f : Form) : Except ElementFault Draft → Prop
  | .ok d => f.Proper ∧ d.Canonical
  | .error _ => ¬ f.Proper

theorem exists_of_operands_error {label : String} {os : List Form} {fault : ElementFault}
    (h : operands label os = .error fault) : ∃ o ∈ os, o.symbol? = none := by
  induction os with
  | nil => cases h
  | cons o os ih =>
    rw [operands] at h
    split at h
    · next ho =>
      refine ⟨o, List.mem_cons_self, ?_⟩
      unfold operand at ho
      unfold symbol?
      split at ho
      all_goals cases ho
      all_goals simp_all
    · split at h
      · next hos =>
        cases h
        obtain ⟨o', ho', hsymbol⟩ := ih hos
        exact ⟨o', List.mem_cons_of_mem _ ho', hsymbol⟩
      · cases h

theorem checked_draftOperator (boxed : Bool) (code : Int) (os : List Form) :
    (Form.operator boxed code os).Checked (draftOperator code os) := by
  unfold draftOperator
  split
  · next hnil =>
    intro hproper
    cases hproper with
    | operator _ hne _ => exact hne (List.isEmpty_iff.1 hnil)
  · next hnot =>
    have hne : os ≠ [] := fun h => hnot (List.isEmpty_iff.2 h)
    split
    · next hfault =>
      obtain ⟨o, ho, hnone⟩ := exists_of_operands_error hfault
      intro hproper
      cases hproper with
      | operator _ _ hos =>
        obtain ⟨s, hs, -⟩ := hos o ho
        cases hnone.symm.trans hs
    · next ss hss =>
      have hspells := spells_of_operands hss
      split
      · next hempty =>
        obtain ⟨o, ho, hsymbol⟩ := exists_rel_of_mem hspells.flip hempty
        intro hproper
        cases hproper with
        | operator _ _ hos =>
          obtain ⟨s, hs, hs'⟩ := hos o ho
          exact hs' (Option.some.inj (hs.symm.trans hsymbol))
      · next hempty =>
        split
        · next hcode =>
          intro hproper
          cases hproper with
          | operator hop _ _ => cases hcode.symm.trans hop
        · next op hcode =>
          refine ⟨.operator hcode hne fun o ho => ?_, Operator.canonical_draft ?_ hempty⟩
          · obtain ⟨s, hs, hsymbol⟩ := exists_rel_of_mem hspells ho
            exact ⟨s, hsymbol, fun h => hempty (h ▸ hs)⟩
          · rintro rfl
            cases hspells
            exact hne rfl

theorem checked_draftSymbol {f : Form} {s : Symbol} (hproper : f.Proper ↔ s ≠ "") :
    f.Checked (draftSymbol s) := by
  rw [draftSymbol]
  split
  · next hs => exact fun h => hproper.1 h hs
  · next hs =>
    refine ⟨hproper.2 hs, List.cons_ne_nil _ _, ?_⟩
    simpa [Element.operands, eq_comm] using hs

theorem proper_element_iff {e : Element} : (Form.element e).Proper ↔ e.Canonical := by
  constructor
  · intro hproper
    cases hproper with
    | element h => exact h
  · exact .element

theorem checked_draftElement (e : Element) : (Form.element e).Checked (draftElement e) := by
  unfold draftElement
  split
  · next s =>
    refine checked_draftSymbol (proper_element_iff.trans ?_)
    simp [Element.Canonical, Element.operands, eq_comm]
  · exact fun hproper => (proper_element_iff.1 hproper).1 rfl
  · next hsymbol hchoice =>
    split
    · next hempty => exact fun hproper => (proper_element_iff.1 hproper).2 hempty
    · next hempty =>
      have hne : e.operands ≠ [] := by
        cases e with
        | symbol s => exact absurd rfl (hsymbol s)
        | quantified q s => exact List.cons_ne_nil _ _
        | choice ss =>
          rintro rfl
          exact hchoice rfl
      exact ⟨proper_element_iff.2 ⟨hne, hempty⟩, hne, hempty⟩

/-- **The check passes proper forms and no others.** -/
theorem checked_draft (f : Form) : f.Checked f.draft := by
  cases f with
  | name s =>
    refine checked_draftSymbol ⟨fun hproper => ?_, .name⟩
    cases hproper with
    | name h => exact h
  | element e => exact checked_draftElement e
  | operator boxed code os => exact checked_draftOperator boxed code os
  | _ => exact fun hproper => (nomatch hproper)

theorem proper_iff {f : Form} : f.Proper ↔ ∃ d, f.draft = .ok d := by
  have hchecked := f.checked_draft
  cases h : f.draft with
  | ok d =>
    rw [h] at hchecked
    exact ⟨fun _ => ⟨d, rfl⟩, fun _ => hchecked.1⟩
  | error fault =>
    rw [h] at hchecked
    exact ⟨fun hproper => absurd hproper hchecked, fun ⟨_, hd⟩ => (nomatch hd)⟩

/-! ## Right-hand sides -/

theorem draftFrom_of_fault {position : Nat} {before after : List Form} {f : Form}
    {fault : ElementFault} (hbefore : ∀ d ∈ before, d.Proper) (hf : f.draft = .error fault) :
    draftFrom position (before ++ f :: after) = .error (.element (position + before.length) fault)
    := by
  induction before generalizing position with
  | nil => simp [draftFrom, hf]
  | cons d before ih =>
    obtain ⟨hd, hbefore⟩ := List.forall_mem_cons.1 hbefore
    obtain ⟨x, hx⟩ := proper_iff.1 hd
    rw [List.cons_append, draftFrom, hx, ih hbefore, List.length_cons]
    simp only [Except.error.injEq, RuleFault.element.injEq, and_true]
    omega

theorem exists_draftFrom {fs : List Form} (h : ∀ f ∈ fs, f.Proper) (position : Nat) :
    ∃ ds, draftFrom position fs = .ok ds := by
  induction fs generalizing position with
  | nil => exact ⟨[], rfl⟩
  | cons f fs ih =>
    obtain ⟨hf, hfs⟩ := List.forall_mem_cons.1 h
    obtain ⟨d, hd⟩ := proper_iff.1 hf
    obtain ⟨ds, hds⟩ := ih hfs (position + 1)
    exact ⟨d :: ds, by rw [draftFrom, hd, hds]⟩

theorem proper_of_draftFrom {position : Nat} {fs : List Form} {ds : List Draft}
    (h : draftFrom position fs = .ok ds) :
    (∀ f ∈ fs, f.Proper) ∧ ds.length = fs.length ∧ ∀ d ∈ ds, d.Canonical := by
  induction fs generalizing position ds with
  | nil =>
    cases h
    simp
  | cons f fs ih =>
    have hchecked := f.checked_draft
    rw [draftFrom] at h
    split at h
    · cases h
    · next hd =>
      split at h
      · cases h
      · next hds =>
        cases h
        rw [hd] at hchecked
        obtain ⟨hproper, hlength, hcanonical⟩ := ih hds
        exact ⟨List.forall_mem_cons.2 ⟨hchecked.1, hproper⟩, congrArg (· + 1) hlength,
          List.forall_mem_cons.2 ⟨hchecked.2, hcanonical⟩⟩

/-- **The right-hand side is set, and all its elements are proper.** An empty sequence is. -/
def Admissible (f : Form) : Prop := ∃ fs, f.items = some fs ∧ ∀ e ∈ fs, e.Proper

theorem exists_items_of_draftRule {f : Form} {ds : List Draft} (h : f.draftRule = .ok ds) :
    ∃ fs, f.items = some fs ∧ (∀ e ∈ fs, e.Proper) ∧ ds.length = fs.length ∧
      ∀ d ∈ ds, d.Canonical := by
  unfold draftRule at h
  split at h
  · cases h
  · next fs hfs => exact ⟨fs, hfs, proper_of_draftFrom h⟩

theorem admissible_iff {f : Form} : f.Admissible ↔ ∃ ds, f.draftRule = .ok ds := by
  constructor
  · rintro ⟨fs, hfs, h⟩
    rw [draftRule, hfs]
    exact exists_draftFrom h 0
  · rintro ⟨ds, hds⟩
    obtain ⟨fs, hfs, hproper, -⟩ := exists_items_of_draftRule hds
    exact ⟨fs, hfs, hproper⟩

theorem items_eq_nil_iff {f : Form} {ds : List Draft} (h : f.draftRule = .ok ds) :
    f.items = some [] ↔ ds = [] := by
  obtain ⟨fs, hfs, -, hlength, -⟩ := exists_items_of_draftRule h
  rw [hfs, Option.some.injEq, ← List.length_eq_zero_iff, ← hlength, List.length_eq_zero_iff]

/-- **The first element that is not proper is reported.** -/
theorem draftRule_of_fault {f e : Form} {before after : List Form}
    (hf : f.items = some (before ++ e :: after)) (hbefore : ∀ d ∈ before, d.Proper)
    (he : ¬ e.Proper) :
    ∃ fault, e.draft = .error fault ∧ f.draftRule = .error (.element before.length fault) := by
  cases hd : e.draft with
  | ok d => exact absurd (proper_iff.2 ⟨d, hd⟩) he
  | error fault =>
    have hfrom : draftFrom 0 (before ++ e :: after) = .error (.element (0 + before.length) fault) :=
      draftFrom_of_fault hbefore hd
    rw [Nat.zero_add] at hfrom
    exact ⟨fault, rfl, by rw [draftRule, hf]; exact hfrom⟩

end Form

/-! ## Definitions in order -/

theorem exists_first {α : Type} {P : α → Prop} {l : List α} (h : ∃ x ∈ l, P x) :
    ∃ before x after, l = before ++ x :: after ∧ (∀ y ∈ before, ¬ P y) ∧ P x := by
  induction l with
  | nil =>
    obtain ⟨x, hx, -⟩ := h
    cases hx
  | cons a l ih =>
    by_cases ha : P a
    · exact ⟨[], a, l, rfl, List.forall_mem_nil _, ha⟩
    · obtain ⟨x, hx, hP⟩ := h
      have htail : x ∈ l := (List.mem_cons.1 hx).resolve_left fun hxa => ha (hxa ▸ hP)
      obtain ⟨before, y, after, rfl, hbefore, hy⟩ := ih ⟨x, htail, hP⟩
      exact ⟨a :: before, y, after, rfl, List.forall_mem_cons.2 ⟨ha, hbefore⟩, hy⟩

/-- **What is reported for a right-hand side that is not admissible**: that it is unset, or its
first element that is not proper. -/
def Form.Reported (f : Form) (fault : RuleFault) : Prop :=
  f.items = none ∧ fault = .unset ∨
    ∃ before e after cause, f.items = some (before ++ e :: after) ∧ (∀ d ∈ before, d.Proper) ∧
      ¬ e.Proper ∧ e.draft = .error cause ∧ fault = .element before.length cause

theorem Form.exists_reported {f : Form} (h : ¬ f.Admissible) :
    ∃ fault, f.draftRule = .error fault ∧ f.Reported fault := by
  cases hitems : f.items with
  | none => exact ⟨.unset, by rw [draftRule, hitems], .inl ⟨hitems, rfl⟩⟩
  | some fs =>
    have hsome : ∃ e ∈ fs, ¬ e.Proper := by
      by_contra hnone
      exact h ⟨fs, hitems, fun e he => not_not.1 fun hnot => hnone ⟨e, he, hnot⟩⟩
    obtain ⟨before, e, after, rfl, hbefore, he⟩ := exists_first hsome
    have hproper : ∀ d ∈ before, d.Proper := fun d hd => not_not.1 (hbefore d hd)
    obtain ⟨cause, hcause, hfault⟩ := draftRule_of_fault hitems hproper he
    exact ⟨_, hfault, .inr ⟨before, e, after, cause, hitems, hproper, he, hcause, rfl⟩⟩

namespace NameMap

variable {β γ ε : Type} {f : String → β → Except ε γ}

theorem traverse_of_error {before after : List (String × β)} {e : String × β} {x : ε}
    (hbefore : ∀ d ∈ before, ∃ v, f d.1 d.2 = .ok v) (he : f e.1 e.2 = .error x) :
    traverse f (before ++ e :: after) = .error x := by
  induction before with
  | nil => rw [List.nil_append, traverse, he]
  | cons d before ih =>
    obtain ⟨⟨v, hv⟩, hbefore⟩ := List.forall_mem_cons.1 hbefore
    rw [List.cons_append, traverse, hv, ih hbefore]

theorem exists_traverse {es : List (String × β)} (h : ∀ e ∈ es, ∃ v, f e.1 e.2 = .ok v) :
    ∃ vs, traverse f es = .ok vs := by
  induction es with
  | nil => exact ⟨[], rfl⟩
  | cons e es ih =>
    obtain ⟨⟨v, hv⟩, hes⟩ := List.forall_mem_cons.1 h
    obtain ⟨vs, hvs⟩ := ih hes
    exact ⟨(e.1, v) :: vs, by rw [traverse, hv, hvs]⟩

theorem mapM_of_error {m : NameMap β} {k : String} {v : β} {x : ε} (hk : m.find? k = some v)
    (hx : f k v = .error x)
    (hbefore : ∀ k' < k, ∀ v', m.find? k' = some v' → ∃ w, f k' v' = .ok w) :
    m.mapM f = .error x := by
  obtain ⟨before, after, hentries⟩ := List.append_of_mem (find?_eq_some_iff.1 hk)
  have hordered : (m.entries.map Prod.fst).Pairwise (· < ·) := m.ordered
  rw [hentries, List.map_append, List.pairwise_append] at hordered
  have hok : ∀ d ∈ before, ∃ w, f d.1 d.2 = .ok w := by
    intro d hd
    have hlt : d.1 < k := hordered.2.2 d.1 (List.mem_map_of_mem hd) k (by simp)
    refine hbefore d.1 hlt d.2 (find?_eq_some_iff.2 ?_)
    rw [hentries]
    exact List.mem_append_left _ hd
  have htraverse : traverse f m.entries = .error x := by
    rw [hentries]
    exact traverse_of_error hok hx
  unfold mapM
  split
  · next herror =>
    cases herror.symm.trans htraverse
    rfl
  · next hes => cases hes.symm.trans htraverse

theorem exists_least {m : NameMap β} {P : String → β → Prop}
    (h : ∃ k v, m.find? k = some v ∧ P k v) :
    ∃ k v, m.find? k = some v ∧ P k v ∧ ∀ k' < k, ∀ v', m.find? k' = some v' → ¬ P k' v' := by
  obtain ⟨k, v, hk, hP⟩ := h
  obtain ⟨before, ⟨l, w⟩, after, hentries, hbefore, hl⟩ :=
    exists_first (l := m.entries) (P := fun e => P e.1 e.2) ⟨(k, v), find?_eq_some_iff.1 hk, hP⟩
  refine ⟨l, w, find?_eq_some_iff.2 (by simp [hentries]), hl, fun k' hk' v' hv' => ?_⟩
  have hmem := find?_eq_some_iff.1 hv'
  have hordered : (m.entries.map Prod.fst).Pairwise (· < ·) := m.ordered
  rw [hentries, List.map_append, List.map_cons, List.pairwise_append, List.pairwise_cons]
    at hordered
  rw [hentries, List.mem_append, List.mem_cons] at hmem
  rcases hmem with hmem | heq | hmem
  · exact hbefore _ hmem
  · cases heq
    exact absurd hk' (String.lt_irrefl _)
  · have hlt : l < k' := hordered.2.1.1 k' (List.mem_map.2 ⟨_, hmem, rfl⟩)
    exact absurd (String.lt_trans hlt hk') (String.lt_irrefl _)

theorem exists_mapM {m : NameMap β} (h : ∀ k v, m.find? k = some v → ∃ w, f k v = .ok w) :
    ∃ n, m.mapM f = .ok n := by
  have hall : ∀ e ∈ m.entries, ∃ w, f e.1 e.2 = .ok w :=
    fun e he => h e.1 e.2 (find?_eq_some_iff.2 he)
  obtain ⟨vs, hvs⟩ := exists_traverse hall
  unfold mapM
  split
  · next herror => cases herror.symm.trans hvs
  · exact ⟨_, rfl⟩

theorem ext_find? {m n : NameMap β} (h : ∀ k, m.find? k = n.find? k) : m = n := by
  have hmem : ∀ e, e ∈ m.entries ↔ e ∈ n.entries := by
    intro e
    rw [← find?_eq_some_iff, ← find?_eq_some_iff, h]
  have hsorted : ∀ l : NameMap β, l.entries.Pairwise fun a b => a.1 < b.1 :=
    fun l => List.pairwise_map.1 l.ordered
  have hnodup : ∀ l : NameMap β, l.entries.Nodup := fun l => .of_map Prod.fst l.nodup_keys
  refine ext (List.Perm.eq_of_pairwise ?_ (hsorted m) (hsorted n)
    ((List.perm_ext_iff_of_nodup (hnodup m) (hnodup n)).2 hmem))
  intro a b _ _ hab hba
  exact absurd (String.lt_trans hab hba) (String.lt_irrefl _)

theorem ofList_of_perm {m : NameMap β} {es : List (String × β)} (h : es.Perm m.entries) :
    ofList es = m := by
  have hnodup : (es.map Prod.fst).Nodup := ((h.map Prod.fst).nodup_iff).2 m.nodup_keys
  refine ext_find? fun k => Option.ext fun v => ?_
  rw [find?_ofList_iff hnodup, h.mem_iff, find?_eq_some_iff]

end NameMap

/-! ## Empty sequences -/

theorem checkEmpty_eq_ok_iff {es : List (Symbol × List Draft)} :
    checkEmpty es = .ok () ↔ ∀ d ∈ es, d.2 ≠ [] := by
  induction es with
  | nil => simp [checkEmpty]
  | cons d es ih =>
    rw [checkEmpty, List.forall_mem_cons]
    split
    · next hempty => simp [List.isEmpty_iff.1 hempty]
    · next hne =>
      rw [ih]
      simp_all

theorem checkEmpty_of_only {es : List (Symbol × List Draft)} {lhs : Symbol}
    (h : ∃ d ∈ es, d.2 = []) (hes : ∀ d ∈ es, d.2 = [] → d.1 = lhs) :
    checkEmpty es = .error (.inRule lhs .emptySequence) := by
  induction es with
  | nil =>
    obtain ⟨d, hd, -⟩ := h
    cases hd
  | cons d es ih =>
    obtain ⟨hd, hes⟩ := List.forall_mem_cons.1 hes
    rw [checkEmpty]
    split
    · next hempty => rw [hd (List.isEmpty_iff.1 hempty)]
    · next hne =>
      obtain ⟨d', hd', hempty⟩ := h
      refine ih ⟨d', (List.mem_cons.1 hd').resolve_left ?_, hempty⟩ hes
      rintro rfl
      exact hne (List.isEmpty_iff.2 hempty)

/-- **The order in which rules are checked does not matter** while one of them at most is empty. -/
theorem checkEmpty_of_perm {es es' : List (Symbol × List Draft)} (hperm : es.Perm es')
    (honly : ∀ d ∈ es', ∀ d' ∈ es', d.2 = [] → d'.2 = [] → d.1 = d'.1) :
    checkEmpty es = checkEmpty es' := by
  by_cases h : ∃ d ∈ es', d.2 = []
  · obtain ⟨d, hd, hempty⟩ := h
    have hes' : ∀ d' ∈ es', d'.2 = [] → d'.1 = d.1 :=
      fun d' hd' hempty' => honly d' hd' d hd hempty' hempty
    rw [checkEmpty_of_only ⟨d, hd, hempty⟩ hes', checkEmpty_of_only
      ⟨d, hperm.mem_iff.2 hd, hempty⟩ fun d' hd' => hes' d' (hperm.mem_iff.1 hd')]
  · have hne : ∀ d ∈ es', d.2 ≠ [] := fun d hd hempty => h ⟨d, hd, hempty⟩
    rw [checkEmpty_eq_ok_iff.2 hne, checkEmpty_eq_ok_iff.2 fun d hd => hne d (hperm.mem_iff.1 hd)]

/-! ## Canonical rules -/

theorem at_mem_freshName (taken : List Symbol) (lhs : Symbol) (position counter : Nat) :
    '@' ∈ (freshName taken (lhs ++ "@" ++ toString position) counter).1.toList := by
  unfold freshName
  split
  · simp [numbered]
  · simp

namespace Expansion

variable {x : Expansion}

theorem at_mem_elements {lhs : Symbol} {position : Nat} {ds : List Draft}
    (h : ∀ a ∈ x.added, '@' ∈ a.1.toList) :
    ∀ a ∈ (x.elements lhs position ds).2.added, '@' ∈ a.1.toList := by
  induction ds generalizing x position with
  | nil => exact h
  | cons d ds ih =>
    refine ih ?_
    cases d with
    | element e => exact h
    | group q operands => exact List.forall_mem_cons.2 ⟨at_mem_freshName _ _ _ _, h⟩

theorem at_mem_rules {es : List (Symbol × List Draft)} (h : ∀ a ∈ x.added, '@' ∈ a.1.toList) :
    ∀ a ∈ (x.rules es).2.added, '@' ∈ a.1.toList := by
  induction es generalizing x with
  | nil => exact h
  | cons e es ih => exact ih (at_mem_elements h)

end Expansion

theorem at_mem_synthetic {drafts : NameMap (List Draft)} {n : Symbol}
    (h : n ∈ (expandRules drafts).synthetic) : '@' ∈ n.toList := by
  obtain ⟨a, ha, rfl⟩ := List.mem_map.1 h
  exact Expansion.at_mem_rules (List.forall_mem_nil _) a ha

theorem Draft.Canonical.of_becomes {added : List (Symbol × Rule)} {d : Draft} {e : Element}
    (hadded : ∀ a ∈ added, a.1 ≠ "") (hd : d.Canonical) (h : d.Becomes added e) : e.Canonical := by
  cases h with
  | element => exact hd
  | group hn =>
    refine ⟨List.cons_ne_nil _ _, fun hmem => hadded _ hn ?_⟩
    exact (List.mem_singleton.1 hmem).symm

namespace Grammar

variable {definitions : NameMap Form} {g : Grammar}

/-- The rules that definitions come to: each keeps the length of its definition and has canonical
elements, and the rules of groups are sequences of at least two symbols. -/
structure CanonicalFor (definitions : NameMap Form) (g : Grammar) : Prop where
  length : ∀ {lhs f}, definitions.find? lhs = some f →
    ∃ fs r, f.items = some fs ∧ g.rule? lhs = some r ∧ r.length = fs.length
  rule : ∀ {s r}, g.rule? s = some r → r ≠ [] ∧ ∀ e ∈ r, e.Canonical
  group : ∀ {n}, n ∈ g.synthetic →
    ∃ ss : List Symbol, 2 ≤ ss.length ∧ g.rule? n = some (ss.map .symbol)

theorem canonical_symbols {ss : List Symbol} (htwo : 2 ≤ ss.length) (hne : "" ∉ ss) :
    (ss.map .symbol : Rule) ≠ [] ∧ ∀ e ∈ (ss.map .symbol : Rule), e.Canonical := by
  refine ⟨fun hnil => ?_, fun e he => ?_⟩
  · rw [List.map_eq_nil_iff.1 hnil] at htwo
    cases htwo
  · obtain ⟨s, hs, rfl⟩ := List.mem_map.1 he
    exact ⟨List.cons_ne_nil _ _, fun hmem => hne (List.mem_singleton.1 hmem ▸ hs)⟩

theorem canonicalFor_of_prepared (h : Prepared definitions g) : CanonicalFor definitions g := by
  obtain ⟨drafts, -, hdrafts, hempty, rfl⟩ := h
  obtain ⟨added, hx⟩ := expands_expandRules drafts
  have hnamed : ∀ a ∈ added, a.1 ≠ "" := by
    intro a ha hname
    have hat := at_mem_synthetic (hx.synthetic ▸ List.mem_map_of_mem ha)
    rw [hname] at hat
    cases hat
  have hcanonical : ∀ {lhs ds}, drafts.find? lhs = some ds → ds ≠ [] ∧ ∀ d ∈ ds, d.Canonical := by
    intro lhs ds hds
    obtain ⟨f, -, hrule⟩ := (find?_drafts_iff hdrafts).1 hds
    obtain ⟨-, -, -, -, hall⟩ := Form.exists_items_of_draftRule hrule
    exact ⟨checkEmpty_eq_ok_iff.1 hempty _ (NameMap.find?_eq_some_iff.1 hds), hall⟩
  have hgroup : ∀ {n r}, (n, r) ∈ added → (expandRules drafts).rule? n = some r ∧
      ∃ ss : List Symbol, 2 ≤ ss.length ∧ "" ∉ ss ∧ r = ss.map .symbol := by
    intro n r hn
    obtain ⟨hr, ss, ⟨⟨lhs, ds⟩, hds, q, hss⟩, rfl⟩ := hx.group hn
    obtain ⟨htwo, hne⟩ := (hcanonical (NameMap.find?_eq_some_iff.2 hds)).2 _ hss
    exact ⟨hr, ss, htwo, hne, rfl⟩
  refine ⟨fun {lhs f} hf => ?_, fun {s r} hr => ?_, fun {n} hn => ?_⟩
  · obtain ⟨ds, hds, hrule⟩ := exists_draft_of_find? hdrafts hf
    obtain ⟨fs, hfs, -, hlength, -⟩ := Form.exists_items_of_draftRule hrule
    obtain ⟨r, hr, hbecomes⟩ := hx.rule hds
    exact ⟨fs, r, hfs, hr, hbecomes.length_eq.symm.trans hlength⟩
  · rcases hx.nonterminal.1 (NameMap.mem_keys_iff.2 ⟨r, hr⟩) with hs | hs
    · obtain ⟨ds, hds⟩ := NameMap.mem_keys_iff.1 hs
      obtain ⟨hne, hall⟩ := hcanonical hds
      obtain ⟨r', hr', hbecomes⟩ := hx.rule hds
      cases hr.symm.trans hr'
      refine ⟨?_, fun e he => ?_⟩
      · rintro rfl
        cases hbecomes
        exact hne rfl
      · obtain ⟨d, hd, hde⟩ := exists_rel_of_mem hbecomes.flip he
        exact (hall d hd).of_becomes hnamed hde
    · rw [hx.synthetic] at hs
      obtain ⟨⟨n, r'⟩, hn, rfl⟩ := List.mem_map.1 hs
      obtain ⟨hr', ss, htwo, hne, rfl⟩ := hgroup hn
      cases hr.symm.trans hr'
      exact canonical_symbols htwo hne
  · rw [hx.synthetic] at hn
    obtain ⟨⟨n, r⟩, hmem, rfl⟩ := List.mem_map.1 hn
    obtain ⟨hr, ss, htwo, -, rfl⟩ := hgroup hmem
    exact ⟨ss, htwo, hr⟩

/-! ## What building says -/

theorem exists_drafts_of_admissible
    (h : ∀ lhs f, definitions.find? lhs = some f → f.Admissible) :
    ∃ drafts, definitions.mapM
      (fun lhs f => f.draftRule.mapError (ConfigurationError.inRule lhs)) = .ok drafts := by
  refine NameMap.exists_mapM fun lhs f hf => ?_
  obtain ⟨ds, hds⟩ := Form.admissible_iff.1 (h lhs f hf)
  exact ⟨ds, by rw [hds]; rfl⟩

/-- **Which definitions reach the check for left recursion.** -/
theorem exists_prepared_iff :
    (∃ g, Prepared definitions g) ↔ rootName ∈ definitions.keys ∧
      ∀ lhs f, definitions.find? lhs = some f →
        ∃ fs, f.items = some fs ∧ fs ≠ [] ∧ ∀ e ∈ fs, e.Proper := by
  constructor
  · rintro ⟨g, drafts, hroot, hdrafts, hempty, -⟩
    refine ⟨NameMap.contains_iff.1 hroot, fun lhs f hf => ?_⟩
    obtain ⟨ds, hds, hrule⟩ := exists_draft_of_find? hdrafts hf
    obtain ⟨fs, hfs, hproper, -⟩ := Form.exists_items_of_draftRule hrule
    refine ⟨fs, hfs, ?_, hproper⟩
    rintro rfl
    have hne := checkEmpty_eq_ok_iff.1 hempty _ (NameMap.find?_eq_some_iff.1 hds)
    exact hne ((Form.items_eq_nil_iff hrule).1 hfs)
  · rintro ⟨hroot, hall⟩
    obtain ⟨drafts, hdrafts⟩ := exists_drafts_of_admissible fun lhs f hf => by
      obtain ⟨fs, hfs, -, hproper⟩ := hall lhs f hf
      exact ⟨fs, hfs, hproper⟩
    refine ⟨_, drafts, NameMap.contains_iff.2 hroot, hdrafts, ?_, rfl⟩
    refine checkEmpty_eq_ok_iff.2 fun ⟨lhs, ds⟩ hds hnil => ?_
    obtain ⟨f, hf, hrule⟩ := (find?_drafts_iff hdrafts).1 (NameMap.find?_eq_some_iff.2 hds)
    obtain ⟨fs, hfs, hne, -⟩ := hall lhs f hf
    exact hne (Option.some.inj (hfs.symm.trans ((Form.items_eq_nil_iff hrule).2 hnil)))

theorem build_of_not_admissible (hroot : rootName ∈ definitions.keys)
    (h : ∃ lhs f, definitions.find? lhs = some f ∧ ¬ f.Admissible) :
    ∃ lhs f fault, definitions.find? lhs = some f ∧ ¬ f.Admissible ∧
      (∀ lhs' < lhs, ∀ f', definitions.find? lhs' = some f' → f'.Admissible) ∧
      f.Reported fault ∧ build definitions = .error (.inRule lhs fault) := by
  obtain ⟨lhs, f, hf, hnot, hleast⟩ := NameMap.exists_least (P := fun _ f => ¬ Form.Admissible f) h
  have hbefore : ∀ lhs' < lhs, ∀ f', definitions.find? lhs' = some f' → f'.Admissible :=
    fun lhs' hlt f' hf' => not_not.1 (hleast lhs' hlt f' hf')
  obtain ⟨fault, hfault, hreported⟩ := Form.exists_reported hnot
  refine ⟨lhs, f, fault, hf, hnot, hbefore, hreported, ?_⟩
  have hmapM : definitions.mapM
      (fun lhs f => f.draftRule.mapError (ConfigurationError.inRule lhs)) =
        .error (.inRule lhs fault) := by
    refine NameMap.mapM_of_error hf (by rw [hfault]; rfl) fun lhs' hlt f' hf' => ?_
    obtain ⟨ds, hds⟩ := Form.admissible_iff.1 (hbefore lhs' hlt f' hf')
    exact ⟨ds, by rw [hds]; rfl⟩
  have hcontains := NameMap.contains_iff.2 hroot
  rw [build, NameMap.isEmpty_entries_of_contains hcontains, hcontains]
  simp only [Bool.false_eq_true, if_false, Bool.not_true, hmapM]

/-- **At most one right-hand side is the empty sequence.** -/
def SingleEmpty (definitions : NameMap Form) : Prop :=
  ∀ lhs lhs' f f', definitions.find? lhs = some f → definitions.find? lhs' = some f' →
    f.items = some [] → f'.items = some [] → lhs = lhs'

theorem SingleEmpty.drafts (h : SingleEmpty definitions) {drafts : NameMap (List Draft)}
    (hdrafts : definitions.mapM
      (fun lhs f => f.draftRule.mapError (ConfigurationError.inRule lhs)) = .ok drafts) :
    ∀ d ∈ drafts.entries, ∀ d' ∈ drafts.entries, d.2 = [] → d'.2 = [] → d.1 = d'.1 := by
  have hempty : ∀ d ∈ drafts.entries, d.2 = [] →
      ∃ f, definitions.find? d.1 = some f ∧ f.items = some [] := by
    intro d hd hnil
    obtain ⟨f, hf, hrule⟩ := (find?_drafts_iff hdrafts).1 (NameMap.find?_eq_some_iff.2 hd)
    exact ⟨f, hf, (Form.items_eq_nil_iff hrule).2 hnil⟩
  intro d hd d' hd' hnil hnil'
  obtain ⟨f, hf, hitems⟩ := hempty d hd hnil
  obtain ⟨f', hf', hitems'⟩ := hempty d' hd' hnil'
  exact h _ _ _ _ hf hf' hitems hitems'

theorem build_of_empty (h : SingleEmpty definitions) (hroot : rootName ∈ definitions.keys)
    (hall : ∀ lhs f, definitions.find? lhs = some f → f.Admissible) {lhs : Symbol} {f : Form}
    (hf : definitions.find? lhs = some f) (hitems : f.items = some []) :
    build definitions = .error (.inRule lhs .emptySequence) := by
  obtain ⟨drafts, hdrafts⟩ := exists_drafts_of_admissible hall
  obtain ⟨ds, hds, hrule⟩ := exists_draft_of_find? hdrafts hf
  have hmem := NameMap.find?_eq_some_iff.1 hds
  have hnil : ds = [] := (Form.items_eq_nil_iff hrule).1 hitems
  have hcheck : checkEmpty drafts.entries = .error (.inRule lhs .emptySequence) :=
    checkEmpty_of_only ⟨_, hmem, hnil⟩ fun d hd hd' => h.drafts hdrafts d hd _ hmem hd' hnil
  have hcontains := NameMap.contains_iff.2 hroot
  rw [build, NameMap.isEmpty_entries_of_contains hcontains, hcontains]
  simp only [Bool.false_eq_true, if_false, Bool.not_true, hdrafts, hcheck]

theorem prepared_of_build (h : build definitions = .ok g) : Prepared definitions g := by
  obtain ⟨drafts, hroot, hdrafts, hempty, hg, -⟩ := exists_drafts_of_build h
  exact ⟨drafts, hroot, hdrafts, hempty, hg⟩

theorem Prepared.eq {g' : Grammar} (h : Prepared definitions g) (h' : Prepared definitions g') :
    g = g' := by
  obtain ⟨drafts, -, hdrafts, -, rfl⟩ := h
  obtain ⟨drafts', -, hdrafts', -, rfl⟩ := h'
  cases hdrafts.symm.trans hdrafts'
  rfl

theorem build_of_prepared_iff (h : Prepared definitions g) :
    ((∃ s, Relation.TransGen g.LeftmostStep s s) →
        ∃ report, build definitions = .error (.leftRecursion report)) ∧
      ((¬ ∃ s, Relation.TransGen g.LeftmostStep s s) → build definitions = .ok g) := by
  rcases build_of_prepared_cases h with ⟨hacyclic, hok⟩ | ⟨cycle, hcycle, herror⟩
  · exact ⟨fun hcycle => absurd hcycle hacyclic, fun _ => hok⟩
  · exact ⟨fun _ => ⟨_, herror⟩, fun hacyclic => absurd hcycle.exists_transGen hacyclic⟩

/-- **What building says of definitions** with at most one empty sequence. They are accepted exactly
if they are well formed and their rules have no leftmost cycle. Otherwise, when root is defined, the
first right-hand side that is unset or has an element that is not proper is reported, at its first
such element; next an empty sequence; and last left recursion. Neither the order in which the
definitions are listed nor that in which rules are checked to be empty plays a part. The rules that
are accepted are canonical. -/
theorem build_outcome (hsingle : SingleEmpty definitions) :
    ((∃ g, build definitions = .ok g) ↔
        definitions.entries ≠ [] ∧ rootName ∈ definitions.keys ∧
        (∀ lhs f, definitions.find? lhs = some f →
          ∃ fs, f.items = some fs ∧ fs ≠ [] ∧ ∀ e ∈ fs, e.Proper) ∧
        ∀ g, Prepared definitions g → ¬ ∃ s, Relation.TransGen g.LeftmostStep s s) ∧
      (rootName ∈ definitions.keys →
        ((∃ lhs f, definitions.find? lhs = some f ∧ ¬ f.Admissible) →
          ∃ lhs f fault, definitions.find? lhs = some f ∧ ¬ f.Admissible ∧
            (∀ lhs' < lhs, ∀ f', definitions.find? lhs' = some f' → f'.Admissible) ∧
            f.Reported fault ∧ build definitions = .error (.inRule lhs fault)) ∧
        ((∀ lhs f, definitions.find? lhs = some f → f.Admissible) →
          (∀ lhs f, definitions.find? lhs = some f → f.items = some [] →
            build definitions = .error (.inRule lhs .emptySequence)) ∧
          ((∀ lhs f, definitions.find? lhs = some f → f.items ≠ some []) →
            ∃ g, Prepared definitions g ∧
              ((∃ s, Relation.TransGen g.LeftmostStep s s) →
                ∃ report, build definitions = .error (.leftRecursion report)) ∧
              ((¬ ∃ s, Relation.TransGen g.LeftmostStep s s) → build definitions = .ok g)))) ∧
      (∀ es, es.Perm definitions.entries → build (.ofList es) = build definitions) ∧
      (∀ drafts, definitions.mapM
          (fun lhs f => f.draftRule.mapError (ConfigurationError.inRule lhs)) = .ok drafts →
        ∀ es, es.Perm drafts.entries → checkEmpty es = checkEmpty drafts.entries) ∧
      ∀ g, build definitions = .ok g → CanonicalFor definitions g := by
  refine ⟨⟨?_, ?_⟩, fun hroot => ⟨build_of_not_admissible hroot, fun hall => ⟨?_, ?_⟩⟩, ?_, ?_, ?_⟩
  · rintro ⟨g, hbuild⟩
    have hprepared := prepared_of_build hbuild
    obtain ⟨hroot, hall⟩ := exists_prepared_iff.1 ⟨g, hprepared⟩
    refine ⟨fun hnil => ?_, hroot, hall, fun g' hg' => ?_⟩
    · rw [NameMap.keys, hnil] at hroot
      cases hroot
    · obtain rfl := hprepared.eq hg'
      exact leftRecursion?_eq_none_iff.1 (leftRecursion?_of_build hbuild)
  · rintro ⟨-, hroot, hall, hacyclic⟩
    obtain ⟨g, hg⟩ := exists_prepared_iff.2 ⟨hroot, hall⟩
    exact ⟨g, (build_of_prepared_iff hg).2 (hacyclic g hg)⟩
  · intro lhs f hf hitems
    exact build_of_empty hsingle hroot hall hf hitems
  · intro hne
    have hrules : ∀ lhs f, definitions.find? lhs = some f →
        ∃ fs, f.items = some fs ∧ fs ≠ [] ∧ ∀ e ∈ fs, e.Proper := by
      intro lhs f hf
      obtain ⟨fs, hfs, hproper⟩ := hall lhs f hf
      exact ⟨fs, hfs, fun hnil => hne lhs f hf (hnil ▸ hfs), hproper⟩
    obtain ⟨g, hg⟩ := exists_prepared_iff.2 ⟨hroot, hrules⟩
    exact ⟨g, hg, build_of_prepared_iff hg⟩
  · intro es hperm
    rw [NameMap.ofList_of_perm hperm]
  · intro drafts hdrafts es hperm
    exact checkEmpty_of_perm hperm (hsingle.drafts hdrafts)
  · intro g hbuild
    exact canonicalFor_of_prepared (prepared_of_build hbuild)

/-! ## Several faults at once -/

/-- Definitions with an empty sequence and, under a smaller name, an element that is not proper. -/
def faultyForms : NameMap Form := .ofList [
  ("root", .name "B"),
  ("B", .sequence []),
  ("A", .sequence [.name "x", Form.apply (.quantifier .star) [""], .unset])]

theorem singleEmpty_faultyForms : SingleEmpty faultyForms := by
  have honly : ∀ lhs f, faultyForms.find? lhs = some f → f.items = some [] → lhs = "B" := by
    intro lhs f hf hitems
    have hmem : (lhs, f) ∈ [("A", Form.sequence
        [.name "x", Form.apply (.quantifier .star) [""], .unset]), ("B", .sequence []),
        ("root", .name "B")] := NameMap.find?_eq_some_iff.1 hf
    simp only [List.mem_cons, Prod.mk.injEq, List.not_mem_nil, or_false] at hmem
    rcases hmem with ⟨rfl, rfl⟩ | ⟨rfl, rfl⟩ | ⟨rfl, rfl⟩
    · cases hitems
    · rfl
    · cases hitems
  intro lhs lhs' f f' hf hf' hitems hitems'
  rw [honly lhs f hf hitems, honly lhs' f' hf' hitems']

theorem build_outcome_faulty : SingleEmpty faultyForms ∧
    ∃ lhs f fault, faultyForms.find? lhs = some f ∧ ¬ f.Admissible ∧
      (∀ lhs' < lhs, ∀ f', faultyForms.find? lhs' = some f' → f'.Admissible) ∧
      f.Reported fault ∧ build faultyForms = .error (.inRule lhs fault) := by
  have hnot : ¬ (Form.sequence
      [.name "x", Form.apply (.quantifier .star) [""], .unset]).Admissible := by
    rw [Form.admissible_iff]
    rintro ⟨ds, hds⟩
    cases hds
  exact ⟨singleEmpty_faultyForms, ((build_outcome singleEmpty_faultyForms).2.1 (by decide)).1
    ⟨"A", _, rfl, hnot⟩⟩

end Grammar

end PushParser
