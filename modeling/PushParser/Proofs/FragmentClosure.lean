import Mathlib.Logic.Relation
import PushParser.Proofs.Acceptance
import PushParser.Proofs.Expressions

/-!
# Fragments in any order

Adding a fragment adds what its rule mentions, and leaves a fragment alone that is there already, so
while fragments are being added some rules mention others that are still to come. When the last of
them is added nothing is missing: the template holds what the fragments depend on, step by step, and
that is the same in whatever order, and however often, they were added.

* `Fragment.DependsOn`, **`dependsOn_iff`**: what the rule of a fragment mentions is what it needs;
* `Template.Adds`, **`Template.adds_addAll`**, `Template.Adds.unique`: adding fragments without a
  bound on the depth comes to an end, and to what `Template.addAll` gives;
* `Template.Grown`, **`Template.Adds.grown`**: what adding some fragments leaves behind, from any
  template on;
* **`Kit.calls_closure`**: any sequence of calls on an empty template.
-/

namespace PushParser.Arithmetic

variable {n : Names} {flavor : Flavor}

/-! ## Dependencies -/

namespace Fragment

/-- The rule of `x` mentions the symbol of `y`. -/
def DependsOn (n : Names) (flavor : Flavor) (x y : Fragment) : Prop :=
  ∃ f, x.form n flavor = some f ∧ n y.role ∈ f.listing.flatMap Form.symbols

theorem dependsOn_iff (hn : n.Valid) {x y : Fragment} :
    x.DependsOn n flavor y ↔ y ∈ x.needs flavor := by
  have hname : ∀ r, n y.role = n r ↔ y.role = r := fun r => hn.injective.eq_iff
  cases x <;> cases flavor <;>
    simp [DependsOn, form, needs, Form.listing, symbols_name, symbols_apply, hname] <;>
    cases y <;> decide

theorem mem_all (x : Fragment) : x ∈ all := by cases x <;> decide

end Fragment

/-! ## Adding without a bound -/

namespace Template

variable {t t' : Template} {xs ys zs ws : List Fragment}

/-- **Adding fragments one after the other**, each followed by what it needs unless it is there
already. Nothing bounds how deep this goes. -/
inductive Adds (n : Names) (flavor : Flavor) : Template → List Fragment → Template → Prop
  | nil {t : Template} : Adds n flavor t [] t
  | ruleless {t t' : Template} {x : Fragment} {xs : List Fragment} (hx : x.form n flavor = none)
      (h : Adds n flavor t xs t') : Adds n flavor t (x :: xs) t'
  | present {t t' : Template} {x : Fragment} {xs : List Fragment} {f : Form}
      (hx : x.form n flavor = some f) (hin : t.contains (n x.role) = true)
      (h : Adds n flavor t xs t') : Adds n flavor t (x :: xs) t'
  | define {t t' t'' : Template} {x : Fragment} {xs : List Fragment} {f : Form}
      (hx : x.form n flavor = some f) (hin : t.contains (n x.role) = false)
      (hneeds : Adds n flavor (t.insert (n x.role) f) (x.needs flavor) t')
      (h : Adds n flavor t' xs t'') : Adds n flavor t (x :: xs) t''

theorem Adds.unique (h : Adds n flavor t xs t') {u : Template} (hu : Adds n flavor t xs u) :
    t' = u := by
  induction h generalizing u with
  | nil =>
    cases hu
    rfl
  | ruleless hx _ ih =>
    cases hu with
    | ruleless _ hu => exact ih hu
    | present hx' | define hx' => cases hx.symm.trans hx'
  | present hx hin _ ih =>
    cases hu with
    | ruleless hx' => cases hx.symm.trans hx'
    | present _ _ hu => exact ih hu
    | define _ hin' => cases hin.symm.trans hin'
  | define hx hin _ _ ihneeds ih =>
    cases hu with
    | ruleless hx' => cases hx.symm.trans hx'
    | present _ hin' => cases hin.symm.trans hin'
    | define hx' _ hneeds' hu =>
      cases hx.symm.trans hx'
      rw [ihneeds hneeds'] at ih
      exact ih hu

theorem Adds.keys_subset (h : Adds n flavor t xs t') : t.keys ⊆ t'.keys := by
  induction h with
  | nil => exact List.Subset.refl _
  | ruleless _ _ ih | present _ _ _ ih => exact ih
  | define _ _ _ _ ihneeds ih =>
    exact fun s hs => ih (ihneeds (NameMap.mem_keys_insert.2 (.inr hs)))

/-- **The fuel lasts.** The fragments on the way to those being added are in the template and all
different, so there is fuel for one more. -/
theorem adds_foldl_addWithin {fuel : Nat} {path : List Fragment} (hnodup : path.Nodup)
    (hpath : ∀ y ∈ path, n y.role ∈ t.keys) (hfuel : Fragment.all.length < path.length + fuel)
    (xs : List Fragment) : Adds n flavor t xs (xs.foldl (addWithin n flavor fuel) t) := by
  induction fuel generalizing t path xs with
  | zero =>
    have hle := (hnodup.subperm fun y _ => Fragment.mem_all y).length_le
    omega
  | succ fuel ih =>
    induction xs generalizing t with
    | nil => exact .nil
    | cons x xs ihxs =>
      rw [List.foldl_cons, addWithin]
      cases hx : x.form n flavor with
      | none => exact .ruleless hx (ihxs hpath)
      | some f =>
        dsimp only
        split
        · next hin => exact .present hx hin (ihxs hpath)
        · next hin =>
          have hnew : x ∉ path := fun hmem => hin (NameMap.contains_iff.2 (hpath x hmem))
          have hneeds : Adds n flavor (t.insert (n x.role) f) (x.needs flavor)
              ((x.needs flavor).foldl (addWithin n flavor fuel) (t.insert (n x.role) f)) := by
            refine ih (List.nodup_cons.2 ⟨hnew, hnodup⟩) (List.forall_mem_cons.2 ⟨?_, ?_⟩) ?_ _
            · exact NameMap.mem_keys_insert.2 (.inl rfl)
            · exact fun y hy => NameMap.mem_keys_insert.2 (.inr (hpath y hy))
            · rw [List.length_cons]
              omega
          refine .define hx (Bool.eq_false_iff.2 hin) hneeds (ihxs fun y hy => ?_)
          exact hneeds.keys_subset (NameMap.mem_keys_insert.2 (.inr (hpath y hy)))

theorem adds_addAll (t : Template) (xs : List Fragment) :
    Adds n flavor t xs (addAll n flavor t xs) := by
  refine adds_foldl_addWithin .nil (List.forall_mem_nil _) ?_ xs
  rw [List.length_nil]
  omega

/-! ## What is there when all is added -/

/-- **The fragments `ys` of a template grow to `zs`** when `xs` are added: those are there then,
everything new is what they need, step by step, and has all that it needs. -/
structure Grown (flavor : Flavor) (xs ys zs : List Fragment) : Prop where
  kept : ys ⊆ zs
  called : ∀ x ∈ xs, x ≠ .digit → x ∈ zs
  closed : ∀ z ∈ zs, z ∉ ys → ∀ w ∈ z.needs flavor, w ≠ .digit → w ∈ zs
  reached : ∀ z ∈ zs, z ∉ ys →
    ∃ x ∈ xs, Relation.ReflTransGen (fun x y => y ∈ x.needs flavor) x z

theorem Grown.skip {x : Fragment} (h : Grown flavor xs ys zs) (hx : x ≠ .digit → x ∈ ys) :
    Grown flavor (x :: xs) ys zs where
  kept := h.kept
  called := List.forall_mem_cons.2 ⟨fun hne => h.kept (hx hne), h.called⟩
  closed := h.closed
  reached z hz hnew := by
    obtain ⟨y, hy, hyz⟩ := h.reached z hz hnew
    exact ⟨y, List.mem_cons_of_mem _ hy, hyz⟩

/-- A fragment that is added with what it needs, and then others. What the first still needs, the
fragments `zs` in between have. -/
theorem Grown.define {x : Fragment} (h₁ : Grown flavor (x.needs flavor) (x :: ys) zs)
    (h₂ : Grown flavor xs zs ws) : Grown flavor (x :: xs) ys ws where
  kept y hy := h₂.kept (h₁.kept (List.mem_cons_of_mem _ hy))
  called := List.forall_mem_cons.2 ⟨fun _ => h₂.kept (h₁.kept List.mem_cons_self), h₂.called⟩
  closed z hz hnew w hw hne := by
    by_cases hin : z ∈ zs
    · refine h₂.kept ?_
      by_cases hzx : z = x
      · subst hzx
        exact h₁.called w hw hne
      · exact h₁.closed z hin (by simp [hzx, hnew]) w hw hne
    · exact h₂.closed z hz hin w hw hne
  reached z hz hnew := by
    by_cases hin : z ∈ zs
    · refine ⟨x, List.mem_cons_self, ?_⟩
      by_cases hzx : z = x
      · rw [hzx]
      · obtain ⟨y, hy, hyz⟩ := h₁.reached z hin (by simp [hzx, hnew])
        exact .head hy hyz
    · obtain ⟨y, hy, hyz⟩ := h₂.reached z hz hin
      exact ⟨y, List.mem_cons_of_mem _ hy, hyz⟩

theorem Adds.grown (hn : n.Valid) (h : Adds n flavor t xs t') (ht : t.Holds n flavor ys) :
    ∃ zs, t'.Holds n flavor zs ∧ Grown flavor xs ys zs := by
  induction h generalizing ys with
  | nil =>
    exact ⟨ys, ht, List.Subset.refl _, List.forall_mem_nil _, fun z hz hnew => absurd hz hnew,
      fun z hz hnew => absurd hz hnew⟩
  | ruleless hx _ ih =>
    obtain ⟨zs, hzs, hgrown⟩ := ih ht
    exact ⟨zs, hzs, hgrown.skip fun hne => absurd (Fragment.form_eq_none_iff.1 hx) hne⟩
  | present hx hin _ ih =>
    obtain ⟨zs, hzs, hgrown⟩ := ih ht
    exact ⟨zs, hzs, hgrown.skip fun _ => (ht.contains_iff hn).1 hin⟩
  | define hx hin _ _ ihneeds ih =>
    have hnew := mt (ht.contains_iff hn).2 (Bool.eq_false_iff.1 hin)
    obtain ⟨zs, hzs, hgrown₁⟩ := ihneeds (ht.insert hn hnew hx)
    obtain ⟨ws, hws, hgrown₂⟩ := ih hzs
    exact ⟨ws, hws, hgrown₁.define hgrown₂⟩

/-- From nothing, fragments grow to what they need, step by step. -/
theorem Grown.mem_iff (h : Grown flavor xs [] zs) {y : Fragment} (hy : y ≠ .digit) :
    y ∈ zs ↔ ∃ x ∈ xs, Relation.ReflTransGen (fun x y => y ∈ x.needs flavor) x y := by
  constructor
  · exact fun hmem => h.reached y hmem List.not_mem_nil
  · rintro ⟨x, hx, hxy⟩
    induction hxy with
    | refl => exact h.called x hx hy
    | @tail y z hxy hyz ih =>
      -- digits need nothing
      have hne : y ≠ .digit := by
        rintro rfl
        cases hyz
      exact h.closed y (ih hne) List.not_mem_nil z hyz hy

/-- **The rules of a template** that fragments were added to. -/
theorem find?_addAll_iff (hn : n.Valid) {s : Symbol} {f : Form} :
    (addAll n flavor .empty xs).find? s = some f ↔
      ∃ x ∈ xs, ∃ y, Relation.ReflTransGen (Fragment.DependsOn n flavor) x y ∧ n y.role = s ∧
        y.form n flavor = some f := by
  have hadds : Adds n flavor .empty xs (addAll n flavor .empty xs) := adds_addAll .empty xs
  obtain ⟨zs, hzs, hgrown⟩ := hadds.grown hn holds_empty
  have hneeds : Fragment.DependsOn n flavor = fun x y => y ∈ x.needs flavor :=
    funext fun x => funext fun y => propext (Fragment.dependsOn_iff hn)
  rw [hzs.find, hneeds]
  constructor
  · rintro ⟨y, hy, hs, hf⟩
    obtain ⟨x, hx, hxy⟩ := hgrown.reached y hy List.not_mem_nil
    exact ⟨x, hx, y, hxy, hs, hf⟩
  · rintro ⟨x, hx, y, hxy, hs, hf⟩
    have hne : y ≠ .digit := by
      rintro rfl
      cases hf
    exact ⟨y, (hgrown.mem_iff hne).2 ⟨x, hx, hxy⟩, hs, hf⟩

theorem addAll_eq_of_mem_iff (hn : n.Valid) (h : ∀ x, x ∈ ys ↔ x ∈ xs) :
    addAll n flavor .empty ys = addAll n flavor .empty xs := by
  refine NameMap.ext_find? fun s => Option.ext fun f => ?_
  rw [find?_addAll_iff hn, find?_addAll_iff hn]
  simp only [h]

end Template

/-! ## Calls on a new kit -/

namespace Kit

variable (k : Kit)

/-- **Fragments called for one after the other**: the symbols returned, and the template left. -/
def calls (t : Template) : List Fragment → List Symbol × Template
  | [] => ([], t)
  | x :: xs =>
    let rest := calls (k.add t x) xs
    (k.symbol x :: rest.1, rest.2)

theorem calls_eq (t : Template) (xs : List Fragment) :
    k.calls t xs = (xs.map k.symbol, Template.addAll k.names k.flavor t xs) := by
  induction xs generalizing t with
  | nil => rfl
  | cons x xs ih =>
    rw [calls, ih]
    rfl

/-- **Fragments are called for in any order.** The calls come to an end and return the symbols of
the fragments, and the template then holds the rules of what the fragments depend on, step by step,
and no others. So neither the order nor a repetition makes a difference, and every fragment whose
symbol is mentioned has its rule; the delta operator is mentioned by calculators only. -/
theorem calls_closure {k : Kit} (hk : k.names.check = .ok ()) (xs : List Fragment) :
    ∃ t : Template, k.calls .empty xs = (xs.map k.symbol, t) ∧
      (∀ u, Template.Adds k.names k.flavor .empty xs u ↔ u = t) ∧
      (∀ s f, t.find? s = some f ↔
        ∃ x ∈ xs, ∃ y, Relation.ReflTransGen (Fragment.DependsOn k.names k.flavor) x y ∧
          k.symbol y = s ∧ y.form k.names k.flavor = some f) ∧
      (∀ ys : List Fragment, (∀ x, x ∈ ys ↔ x ∈ xs) → (k.calls .empty ys).2 = t) ∧
      (∀ y : Fragment, y ≠ .digit → k.symbol y ∈ mentioned t → t.contains (k.symbol y) = true) ∧
      ∀ s f, t.find? s = some f → k.symbol .deltaOperator ∈ f.listing.flatMap Form.symbols →
        k.flavor = .calculator := by
  have hn := Names.valid_of_check hk
  have hadds : Template.Adds k.names k.flavor .empty xs
      (Template.addAll k.names k.flavor .empty xs) := Template.adds_addAll .empty xs
  have hfind : ∀ s f, NameMap.find? (Template.addAll k.names k.flavor .empty xs) s = some f ↔ _ :=
    fun s f => Template.find?_addAll_iff hn
  refine ⟨_, k.calls_eq .empty xs, fun u => ⟨fun hu => hu.unique hadds, fun hu => hu ▸ hadds⟩,
    hfind, fun ys hys => ?_, fun y hy hmentioned => ?_, fun s f hf hdelta => ?_⟩
  · rw [calls_eq]
    exact Template.addAll_eq_of_mem_iff hn hys
  · rw [NameMap.contains_iff]
    rcases mem_mentioned_iff.1 hmentioned with hkey | ⟨lhs, f, hf, o, ho, hs⟩
    · exact hkey
    · -- the rule that mentions `y` is there, so what it depends on is there as well
      obtain ⟨x, hx, z, hxz, -, hform⟩ := (hfind lhs f).1 hf
      have hzy : z.DependsOn k.names k.flavor y := ⟨f, hform, List.mem_flatMap.2 ⟨o, ho, hs⟩⟩
      have hform' : y.form k.names k.flavor ≠ none := mt Fragment.form_eq_none_iff.1 hy
      obtain ⟨f', hf'⟩ := Option.ne_none_iff_exists'.1 hform'
      exact NameMap.mem_keys_iff.2 ⟨f', (hfind _ _).2 ⟨x, hx, y, hxz.tail hzy, rfl, hf'⟩⟩
  · obtain ⟨x, hx, z, hxz, -, hform⟩ := (hfind s f).1 hf
    have hneeds := (Fragment.dependsOn_iff hn).1 ⟨f, hform, hdelta⟩
    revert hneeds
    cases k.flavor <;> cases z <;> decide

/-- A factor and an operator first, then the expression that depends on both, for a calculator. -/
theorem calls_closure_terse :
    Names.terse.check = .ok () ∧
      (Kit.mk .terse .calculator).calls .empty [.factor, .mulOperator, .expression, .factor] =
        (["F", "MO", "E", "F"],
          ((Kit.mk .terse .calculator).calls .empty [.mulOperator, .expression, .factor]).2) ∧
      (((Kit.mk .terse .calculator).calls .empty
        [.factor, .mulOperator, .expression, .factor]).2.contains "DO") = true := by
  have hcheck : Names.terse.check = .ok () := by decide
  obtain ⟨t, ht, -, -, horder, hmentioned, -⟩ := calls_closure (k := ⟨.terse, .calculator⟩) hcheck
    [.factor, .mulOperator, .expression, .factor]
  have hsame := horder [.mulOperator, .expression, .factor] (by simp)
  refine ⟨hcheck, ?_, ?_⟩
  · rw [ht, hsame]
    rfl
  · rw [ht]
    refine hmentioned .deltaOperator (by decide) ?_
    rw [← hsame]
    decide +kernel

end Kit

end PushParser.Arithmetic
