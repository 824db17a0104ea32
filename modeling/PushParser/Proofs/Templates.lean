import Mathlib.Data.List.Nodup
import PushParser.Arithmetic.Kit
import PushParser.Proofs.GroupNames

/-!
# The templates of arithmetic grammars

Which fragments go into a template does not depend on how they are spelled, so the definitions of a
template can be told without going through the map that it is.

* `Names.Valid`, **`Names.valid_of_check`**: what the check of a table says;
* `Fragment.gather`, `Fragment.closure`: a fragment and all it needs;
* `Template.Holds`, **`Template.Holds.addWithin`**: the fragments of a template;
* **`Template.find?_template_iff`**: the definitions of the template of a grammar.
-/

namespace PushParser.Arithmetic

/-! ## Tables that pass their check -/

namespace Names

variable {n n' : Names}

/-- **What the check of a table says**: every role has a name, and no two have the same. -/
structure Valid (n : Names) : Prop where
  nonempty : ∀ r, n r ≠ ""
  unreserved : ∀ r, n r ≠ rootName
  injective : Function.Injective n

theorem checked_of_checkFrom {earlier rs : List Role} (h : n.checkFrom earlier rs = .ok ()) :
    (∀ r ∈ rs, n r ≠ "" ∧ n r ≠ rootName ∧ ∀ e ∈ earlier, n e ≠ n r) ∧ (rs.map n).Nodup := by
  induction rs generalizing earlier with
  | nil => exact ⟨List.forall_mem_nil _, List.nodup_nil⟩
  | cons r rs ih =>
    rw [checkFrom] at h
    split at h
    · cases h
    · next hempty =>
      split at h
      · cases h
      · next hroot =>
        split at h
        · cases h
        · next hnone =>
          obtain ⟨hrs, hnodup⟩ := ih h
          rw [List.find?_eq_none] at hnone
          refine ⟨List.forall_mem_cons.2 ⟨⟨hempty, hroot, fun e he => ?_⟩, fun r' hr' => ?_⟩, ?_⟩
          · simpa using hnone e he
          · obtain ⟨hempty', hroot', hearlier⟩ := hrs r' hr'
            exact ⟨hempty', hroot', fun e he => hearlier e (List.mem_append_left _ he)⟩
          · rw [List.map_cons, List.nodup_cons]
            refine ⟨fun hmem => ?_, hnodup⟩
            obtain ⟨r', hr', hname⟩ := List.mem_map.1 hmem
            exact (hrs r' hr').2.2 r (List.mem_append_right _ (List.mem_singleton.2 rfl)) hname.symm

theorem valid_of_check (h : n.check = .ok ()) : n.Valid := by
  obtain ⟨hall, hnodup⟩ := checked_of_checkFrom h
  exact ⟨fun r => (hall r (Role.mem_all r)).1, fun r => (hall r (Role.mem_all r)).2.1,
    fun r r' hname => List.inj_on_of_nodup_map hnodup (Role.mem_all r) (Role.mem_all r') hname⟩

end Names

/-! ## The fragments of a template -/

theorem Fragment.role_injective : Function.Injective Fragment.role := by
  intro x y h
  cases x <;> cases y <;> first | rfl | cases h

namespace Fragment

/-- Add a fragment, and what it needs, to a list of fragments, going at most `fuel` fragments
deep. -/
def gather (flavor : Flavor) : (fuel : Nat) → List Fragment → Fragment → List Fragment
  | 0, ys, _ => ys
  | fuel + 1, ys, x =>
    if x = .digit ∨ x ∈ ys then ys else (x.needs flavor).foldl (gather flavor fuel) (x :: ys)

theorem form_eq_none_iff {n : Names} {flavor : Flavor} {x : Fragment} :
    x.form n flavor = none ↔ x = .digit := by
  cases x <;> cases flavor <;> simp [form]

end Fragment

namespace Template

variable {n : Names} {flavor : Flavor}

/-- **The template has the rules of the fragments**, none of which is without. -/
structure Holds (n : Names) (flavor : Flavor) (t : Template) (ys : List Fragment) : Prop where
  find : ∀ s f, NameMap.find? t s = some f ↔ ∃ y ∈ ys, n y.role = s ∧ y.form n flavor = some f
  ruled : .digit ∉ ys

theorem holds_empty : Template.Holds n flavor .empty [] := ⟨fun s f => by simp, List.not_mem_nil⟩

theorem Holds.contains_iff (hn : n.Valid) {t : Template} {ys : List Fragment}
    (h : t.Holds n flavor ys) {x : Fragment} :
    NameMap.contains t (n x.role) = true ↔ x ∈ ys := by
  rw [NameMap.contains_iff, NameMap.mem_keys_iff]
  constructor
  · rintro ⟨f, hf⟩
    obtain ⟨y, hy, hrole, -⟩ := (h.find _ _).1 hf
    rwa [← Fragment.role_injective (hn.injective hrole)]
  · intro hx
    have hform : x.form n flavor ≠ none := by
      rw [Ne, Fragment.form_eq_none_iff]
      rintro rfl
      exact h.ruled hx
    obtain ⟨f, hf⟩ := Option.ne_none_iff_exists'.1 hform
    exact ⟨f, (h.find _ _).2 ⟨x, hx, rfl, hf⟩⟩

theorem Holds.insert (hn : n.Valid) {t : Template} {ys : List Fragment} (h : t.Holds n flavor ys)
    {x : Fragment} {f : Form} (hx : x ∉ ys) (hf : x.form n flavor = some f) :
    Template.Holds n flavor (NameMap.insert t (n x.role) f) (x :: ys) := by
  refine ⟨fun s f' => ?_, ?_⟩
  · rw [NameMap.find?_insert, List.exists_mem_cons_iff]
    split
    · next hs =>
      constructor
      · intro hff'
        exact .inl ⟨hs.symm, hf.trans hff'⟩
      · rintro (⟨-, hf'⟩ | ⟨y, hy, hrole, -⟩)
        · exact hf.symm.trans hf'
        · have hxy := Fragment.role_injective (hn.injective (hrole.trans hs))
          exact absurd (hxy ▸ hy) hx
    · next hs =>
      rw [h.find]
      exact ⟨.inr, fun h => h.resolve_left fun hx => hs hx.1.symm⟩
  · rw [List.mem_cons, not_or]
    refine ⟨?_, h.ruled⟩
    rintro rfl
    cases hf

theorem Holds.addWithin (hn : n.Valid) {fuel : Nat} {t : Template} {ys : List Fragment}
    (h : t.Holds n flavor ys) (x : Fragment) :
    (Template.addWithin n flavor fuel t x).Holds n flavor (Fragment.gather flavor fuel ys x) := by
  induction fuel generalizing t ys x with
  | zero => exact h
  | succ fuel ih =>
    have hfold : ∀ (xs : List Fragment) {t : Template} {ys : List Fragment}, t.Holds n flavor ys →
        (xs.foldl (Template.addWithin n flavor fuel) t).Holds n flavor
          (xs.foldl (Fragment.gather flavor fuel) ys) := by
      intro xs
      induction xs with
      | nil => exact fun ht => ht
      | cons z zs ihz => exact fun ht => ihz (ih ht z)
    rw [Template.addWithin, Fragment.gather]
    cases hform : x.form n flavor with
    | none =>
      rw [if_pos (.inl (Fragment.form_eq_none_iff.1 hform))]
      exact h
    | some f =>
      have hne : x ≠ .digit := by
        rintro rfl
        cases hform
      simp only [hne, false_or, h.contains_iff hn]
      split
      · exact h
      · next hx => exact hfold _ (h.insert hn hx hform)

end Template

/-- The fragments of the grammar of a fragment. -/
def Fragment.closure (flavor : Flavor) (x : Fragment) : List Fragment :=
  gather flavor (all.length + 1) [] x

/-- Root, as it is written for a fragment. -/
def rootForm (n : Names) (x : Fragment) : Form := .sequence [.name (n x.role), .name (n .enter)]

/-- **The definitions of a template**: those of its fragments, and root. -/
theorem Template.find?_template_iff {n : Names} (hn : n.Valid) {flavor : Flavor} {x : Fragment}
    {s : Symbol} {f : Form} :
    NameMap.find? ((Kit.mk n flavor).template (.fragment x)) s = some f ↔
      s = rootName ∧ f = rootForm n x ∨
        ∃ y ∈ x.closure flavor, n y.role = s ∧ y.form n flavor = some f := by
  have hclosure : (Template.addWithin n flavor (Fragment.all.length + 1) NameMap.empty x).Holds n
      flavor (x.closure flavor) := holds_empty.addWithin hn x
  have htemplate : (Kit.mk n flavor).template (.fragment x) = NameMap.insert
      (Template.addWithin n flavor (Fragment.all.length + 1) NameMap.empty x) rootName
      (rootForm n x) := rfl
  rw [htemplate, NameMap.find?_insert]
  split
  · next hs =>
    subst hs
    have hnot : ¬ ∃ y ∈ x.closure flavor, n y.role = rootName ∧ y.form n flavor = some f := by
      rintro ⟨y, -, hrole, -⟩
      exact hn.unreserved _ hrole
    rw [or_iff_left hnot, Option.some.injEq, eq_comm]
    exact (and_iff_right rfl).symm
  · next hs =>
    rw [hclosure.find]
    exact (or_iff_right fun h => hs h.1).symm

end PushParser.Arithmetic
