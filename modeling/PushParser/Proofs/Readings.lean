import Mathlib
import PushParser.Proofs.Meaning

/-!
# Definitions as equations between languages

The words of a sequence of forms make a language. A sequence stands for a product, a choice for a
sum and a repetition for a Kleene star, so definitions are equations between languages, and their
words solve them. An equation whose right-hand side encloses the unknown in other letters has one
solution only.

* **`readings`**, `readings_cons`, `readings_apply_choice`, `readings_apply_star`: the equations;
* `Faithful.derives_iff`: the words of a grammar that rewrites definitions are their readings;
* `UpTo`, **`Guarded`**: the short words of a language decide the words of a longer length;
* **`Guarded.eq_lfp`**: an equation of this kind has no solution but the least one.
-/

namespace PushParser

open scoped Computability

/-! ## The words of definitions -/

section Readings

/-- **The words of a sequence of forms**, by the definitions as they are written. -/
def readings (definitions : NameMap Form) (fs : List Form) : Language Symbol :=
  {w | Reads definitions fs w}

variable {definitions : NameMap Form} {f : Form} {fs os : List Form} {s : Symbol}
  {w : List Symbol}

theorem Reads.defined_one {d : Form} (hf : f.symbol? = some s) (hs : definitions.find? s = some d)
    (h : Reads definitions d.listing w) : Reads definitions [f] w := by
  rw [← List.append_nil w]
  exact .defined hf hs h .nil

theorem Reads.choice_one {o : Form} (hf : f.application? = some (.choice, os)) (ho : o ∈ os)
    (h : Reads definitions [o] w) : Reads definitions [f] w := by
  rw [← List.append_nil w]
  exact .choice hf ho h .nil

/-- **A sequence stands for a product.** -/
theorem readings_cons : readings definitions (f :: fs) =
    readings definitions [f] * readings definitions fs := by
  ext w
  rw [Language.mem_mul]
  constructor
  · intro h
    cases h with
    | terminal hf hs hfs => exact ⟨[_], .terminal hf hs .nil, _, hfs, rfl⟩
    | defined hf hs h hfs => exact ⟨_, .defined_one hf hs h, _, hfs, rfl⟩
    | choice hf ho h hfs => exact ⟨_, .choice_one hf ho h, _, hfs, rfl⟩
    | quantified hf hq h hfs => exact ⟨_, .quantified_one hf hq h, _, hfs, rfl⟩
  · rintro ⟨u, hu, v, hv, rfl⟩
    exact Reads.append hu hv

theorem readings_cons_cons {f' : Form} : readings definitions (f :: f' :: fs) =
    readings definitions [f] * readings definitions (f' :: fs) := readings_cons

theorem readings_terminal (hs : definitions.find? s = none) :
    readings definitions [.name s] = {[s]} := by
  ext w
  constructor
  · rintro (_ | ⟨⟨⟩, -, ⟨⟩⟩ | ⟨⟨⟩, hd, -, -⟩ | ⟨⟨⟩, -, -, -⟩ | ⟨⟨⟩, -, -, -⟩)
    · rfl
    · cases hs.symm.trans hd
  · rintro rfl
    exact Reads.terminal rfl hs .nil

theorem readings_defined {d : Form} (hs : definitions.find? s = some d) :
    readings definitions [.name s] = readings definitions d.listing := by
  ext w
  constructor
  · rintro (_ | ⟨⟨⟩, hd, -⟩ | ⟨⟨⟩, hd, h, ⟨⟩⟩ | ⟨⟨⟩, -, -, -⟩ | ⟨⟨⟩, -, -, -⟩)
    · cases hs.symm.trans hd
    · cases hs.symm.trans hd
      rwa [List.append_nil]
  · exact Reads.defined_one rfl hs

/-! ## Operators -/

theorem application?_apply (op : Operator) (ss : List Symbol) :
    (Form.apply op ss).application? = some (op, ss.map .name) := by
  rw [Form.apply, Form.application?, Operator.ofCode?_code, Option.map_some]

theorem mem_sum_iff {Ls : List (Language Symbol)} : w ∈ Ls.sum ↔ ∃ L ∈ Ls, w ∈ L := by
  induction Ls with
  | nil => simp
  | cons L Ls ih => rw [List.sum_cons, Language.mem_add, ih, List.exists_mem_cons_iff]

/-- **A choice stands for a sum.** -/
theorem readings_apply_choice (ss : List Symbol) :
    readings definitions [Form.apply .choice ss] =
      (ss.map fun s => readings definitions [.name s]).sum := by
  have happ := application?_apply .choice ss
  ext w
  rw [mem_sum_iff]
  constructor
  · rintro (_ | ⟨⟨⟩, -, -⟩ | ⟨⟨⟩, -, -, -⟩ | ⟨hf, ho, h, ⟨⟩⟩ | ⟨hf, -, -, -⟩)
    · cases happ.symm.trans hf
      obtain ⟨s, hs, rfl⟩ := List.mem_map.1 ho
      rw [List.append_nil]
      exact ⟨_, List.mem_map_of_mem hs, h⟩
    · cases happ.symm.trans hf
  · rintro ⟨L, hL, h⟩
    obtain ⟨s, hs, rfl⟩ := List.mem_map.1 hL
    exact Reads.choice_one happ (List.mem_map_of_mem hs) h

theorem mem_readings_apply_quantifier {q : Quantifier} {ss : List Symbol} :
    w ∈ readings definitions [Form.apply (.quantifier q) ss] ↔
      ∃ us : List (List Symbol), w = us.flatten ∧ q.Admits us.length ∧
        ∀ u ∈ us, u ∈ readings definitions (ss.map .name) := by
  have happ := application?_apply (.quantifier q) ss
  constructor
  · rintro (_ | ⟨⟨⟩, -, -⟩ | ⟨⟨⟩, -, -, -⟩ | ⟨hf, -, -, -⟩ | ⟨hf, hq, h, ⟨⟩⟩)
    · cases happ.symm.trans hf
    · cases happ.symm.trans hf
      exact ⟨_, List.append_nil _, hq, h⟩
  · rintro ⟨us, rfl, hq, h⟩
    exact Reads.quantified_one happ hq h

/-- **A repetition stands for a star.** -/
theorem readings_apply_star (ss : List Symbol) :
    readings definitions [Form.apply (.quantifier .star) ss] =
      (readings definitions (ss.map .name))∗ := by
  ext w
  rw [mem_readings_apply_quantifier, Language.mem_kstar]
  simp only [Quantifier.Admits, true_and]

theorem readings_apply_opt (ss : List Symbol) :
    readings definitions [Form.apply (.quantifier .opt) ss] =
      1 + readings definitions (ss.map .name) := by
  ext w
  rw [mem_readings_apply_quantifier, Language.mem_add, Language.mem_one]
  constructor
  · rintro ⟨us, rfl, hq, h⟩
    rcases us with _ | ⟨u, _ | ⟨v, us⟩⟩
    · exact .inl rfl
    · exact .inr (by simpa using h)
    · exact absurd hq (by simp [Quantifier.Admits])
  · rintro (rfl | hw)
    · exact ⟨[], rfl, Nat.zero_le 1, List.forall_mem_nil _⟩
    · exact ⟨[w], by simp, Nat.le_refl 1, by simpa using hw⟩

/-- **The words of a grammar are the readings of definitions** that it rewrites without capturing a
symbol. -/
theorem Faithful.derives_iff {g : Grammar} (hg : Faithful definitions g) (hs : s ∉ g.synthetic) :
    g.Derives s w ↔ w ∈ readings definitions [.name s] := by
  have hstands : Stands g (.name s) (.symbol s) := by
    refine ⟨.symbol rfl, fun x hx => ?_⟩
    rw [Form.symbols_of_symbol? rfl] at hx
    rwa [List.mem_singleton.1 hx]
  constructor
  · rintro ⟨t, ht, rfl⟩
    exact reads_of_derivation hg ht (.inl rfl) (.cons hstands .nil)
  · intro hw
    exact Grammar.derives_iff_yields.2 (yields_of_reads hg hw (.cons hstands .nil))

end Readings

/-! ## Equations with one solution -/

section Guarded

variable {α : Type} {m : ℕ} {X Y X' Y' : Language α}

/-- The words of `X` that are shorter than `m` are words of `Y`. -/
def UpTo (m : ℕ) (X Y : Language α) : Prop := ∀ w ∈ X, w.length < m → w ∈ Y

theorem UpTo.of_le (h : X ≤ Y) : UpTo m X Y := fun _ hw _ => h hw

theorem UpTo.add (h : UpTo m X Y) (h' : UpTo m X' Y') : UpTo m (X + X') (Y + Y') := by
  rintro w (hw | hw) hlength
  · exact .inl (h w hw hlength)
  · exact .inr (h' w hw hlength)

theorem UpTo.mul (h : UpTo m X Y) (h' : UpTo m X' Y') : UpTo m (X * X') (Y * Y') := by
  intro w hw hlength
  obtain ⟨u, hu, v, hv, rfl⟩ := Language.mem_mul.1 hw
  rw [List.length_append] at hlength
  exact Language.append_mem_mul (h u hu (by omega)) (h' v hv (by omega))

theorem UpTo.kstar (h : UpTo m X Y) : UpTo m X∗ Y∗ := by
  intro w hw hlength
  obtain ⟨us, rfl, hus⟩ := Language.mem_kstar.1 hw
  refine Language.join_mem_kstar fun u hu => h u (hus u hu) ?_
  exact ((List.sublist_flatten_of_mem hu).length_le).trans_lt hlength

theorem UpTo.enclosed (h : UpTo m X Y) (a b : α) :
    UpTo (m + 1) ({[a]} * X * {[b]}) ({[a]} * Y * {[b]}) := by
  intro w hw hlength
  obtain ⟨u, hu, _, rfl, rfl⟩ := Language.mem_mul.1 hw
  obtain ⟨_, rfl, v, hv, rfl⟩ := Language.mem_mul.1 hu
  refine Language.append_mem_mul (Language.append_mem_mul rfl (h v hv ?_)) rfl
  simp only [List.length_append, List.length_singleton] at hlength
  omega

/-- **What the words of the right-hand side are depends on shorter words only.** -/
def Guarded (Φ : Language α → Language α) : Prop :=
  ∀ m X Y, UpTo m X Y → UpTo (m + 1) (Φ X) (Φ Y)

variable {Φ : Language α → Language α}

theorem Guarded.monotone (hΦ : Guarded Φ) : Monotone Φ :=
  fun X Y hXY w hw => hΦ w.length X Y (.of_le hXY) w hw (Nat.lt_succ_self _)

/-- **A guarded equation has no solution but the least one.** -/
theorem Guarded.eq_lfp (hΦ : Guarded Φ) (hX : Φ X = X) :
    X = OrderHom.lfp ⟨Φ, hΦ.monotone⟩ := by
  refine le_antisymm (OrderHom.le_lfp _ fun Y hY => ?_) (OrderHom.lfp_le_fixed _ hX)
  -- by induction on the length of words
  have hshort : ∀ m, UpTo m X Y := by
    intro m
    induction m with
    | zero => exact fun _ _ h => absurd h (Nat.not_lt_zero _)
    | succ m ih =>
      intro w hw hlength
      rw [← hX] at hw
      exact hY (hΦ m X Y ih w hw hlength)
  exact fun w hw => hshort (w.length + 1) w hw (Nat.lt_succ_self _)

end Guarded

end PushParser
