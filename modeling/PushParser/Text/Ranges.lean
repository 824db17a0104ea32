/-!
# Sets of code points

A set of code points is listed as the closed ranges it is made of, in increasing order.

* `inRanges`: membership;
* `Stride`: every second code point of a range, the way the two cases of a script alternate.
-/

namespace PushParser.Text

/-- Code point `n` lies in one of the closed ranges, which increase. -/
def inRanges (n : Nat) : List (Nat × Nat) → Bool
  | [] => false
  | r :: rs => if n < r.1 then false else if n ≤ r.2 then true else inRanges n rs

theorem inRanges_iff {n : Nat} {rs : List (Nat × Nat)} (h : rs.Pairwise fun a b => a.1 ≤ b.1) :
    inRanges n rs = true ↔ ∃ r ∈ rs, r.1 ≤ n ∧ n ≤ r.2 := by
  induction rs with
  | nil => simp [inRanges]
  | cons r rs ih =>
    rw [List.pairwise_cons] at h
    rw [inRanges]
    split
    · next hn =>
      simp only [Bool.false_eq_true, List.mem_cons, exists_eq_or_imp, false_iff, not_or]
      refine ⟨fun hr => by omega, fun ⟨s, hs, h₁, _⟩ => ?_⟩
      have := h.1 s hs
      omega
    · split
      · next h₁ h₂ =>
        simp only [List.mem_cons, exists_eq_or_imp, true_iff]
        exact Or.inl ⟨by omega, h₂⟩
      · next h₁ h₂ =>
        rw [ih h.2]
        simp only [List.mem_cons, exists_eq_or_imp]
        exact ⟨Or.inr, fun h' => h'.resolve_left fun hr => h₂ hr.2⟩

/-- The code points `first`, `first + step`, … up to `last`. -/
structure Stride where
  first : Nat
  last : Nat
  step : Nat

/-- Code point `n` belongs to the stride. -/
def Stride.contains (r : Stride) (n : Nat) : Bool :=
  decide (r.first ≤ n) && decide (n ≤ r.last) && (n - r.first) % r.step == 0

end PushParser.Text
