import PushParser.Proofs.GroupNames

/-!
# Identifiers

Every nonterminal prints as an identifier, and no two nonterminals print alike. An identifier begins
with a capital letter and is made of letters, decimal digits and underscores, whatever the
nonterminal is called.

* `Text.isCapital`: the capital letters, and **`Text.isCapital_of_capital?`**: capital forms are
  capital letters, checked along the tables;
* **`IsIdentifier`**, `isIdentifier_identifier`: what an identifier looks like;
* `freeIdentifier_not_mem`: an identifier is found that is not taken;
* **`Grammar.exists_identifier`**, **`Grammar.identifiers_injective`**: those of a grammar.
-/

namespace PushParser

/-! ## Capital letters -/

namespace Text

theorem Stride.contains_iff {s : Stride} {n : Nat} :
    s.contains n = true ↔ (s.first ≤ n ∧ n ≤ s.last) ∧ (n - s.first) % s.step = 0 := by
  simp [contains]

/-- The code points of a stride. -/
def Stride.elements (s : Stride) : List Nat :=
  (List.range ((s.last - s.first) / s.step + 1)).map fun k => s.first + s.step * k

theorem Stride.mem_elements {s : Stride} {n : Nat} (h : s.contains n = true) : n ∈ s.elements := by
  obtain ⟨hbounds, hmod⟩ := contains_iff.1 h
  refine List.mem_map.2 ⟨(n - s.first) / s.step, List.mem_range.2 ?_, ?_⟩
  · exact Nat.lt_succ_of_le (Nat.div_le_div_right (by omega))
  · have := Nat.div_add_mod (n - s.first) s.step
    omega

/-- Every code point of `s` lies in one of the strides `cs`. Those far from `s` are left out before
its code points are gone through. -/
def Stride.within (cs : List Stride) (s : Stride) : Bool :=
  s.elements.all fun n =>
    (cs.filter fun c => Nat.ble c.first s.last && Nat.ble s.first c.last).any (·.contains n)

theorem Stride.exists_of_within {cs : List Stride} {s : Stride} (h : s.within cs = true) {n : Nat}
    (hn : s.contains n = true) : ∃ c ∈ cs, c.contains n = true := by
  obtain ⟨c, hc, hcn⟩ := List.any_eq_true.1 (List.all_eq_true.1 h n (mem_elements hn))
  exact ⟨c, (List.mem_filter.1 hc).1, hcn⟩

/-- The capital letters. -/
def capitals : List Stride := ⟨0x41, 0x5A, 1⟩ :: capitalStrides

/-- **A capital letter** of any script. -/
def isCapital (c : Char) : Bool := capitals.any (·.contains c.toNat)

/-- The letters beyond ASCII, as strides. -/
def letterStrides : List Stride := letterRanges.map fun r => ⟨r.1, r.2, 1⟩

/-- Where the capital forms of raised letters lie. -/
def Raised.image (r : Raised) : Stride :=
  ⟨(r.members.first + r.shift).toNat, (r.members.last + r.shift).toNat, r.members.step⟩

theorem capitalStrides_within : ∀ s ∈ capitalStrides, s.within letterStrides = true :=
  List.all_eq_true.1 (by decide +kernel)

theorem raisedStrides_within :
    ∀ r ∈ raisedStrides, 0 ≤ r.members.first + r.shift ∧ r.image.within capitals = true := by
  have hall : (raisedStrides.all fun r =>
      decide (0 ≤ r.members.first + r.shift) && r.image.within capitals) = true := by
    decide +kernel
  intro r hr
  simpa using List.all_eq_true.1 hall r hr

theorem increasing_letterRanges : letterRanges.Pairwise fun a b => a.1 ≤ b.1 := by
  have hchain : letterRanges.IsChain fun a b => a.1 ≤ b.1 := by decide +kernel
  exact hchain.pairwise

theorem forall_ascii {P : Char → Prop} (h : ∀ n < 0x80, P (Char.ofNat n)) {c : Char}
    (hc : c.toNat < 0x80) : P c := by
  have hn := h c.toNat hc
  rwa [Char.ofNat_toNat] at hn

theorem isLetter_of_isCapital {c : Char} (h : isCapital c = true) : isLetter c = true := by
  obtain ⟨s, hs, hc⟩ := List.any_eq_true.1 h
  rw [isLetter, Bool.or_eq_true]
  rcases List.mem_cons.1 hs with rfl | hs
  · left
    have hascii : c.toNat < 0x80 := by
      have := (Stride.contains_iff.1 hc).1
      dsimp only at this
      omega
    revert hc
    exact forall_ascii (P := fun c => Stride.contains ⟨0x41, 0x5A, 1⟩ c.toNat = true →
      c.isAlpha = true) (by decide) hascii
  · right
    obtain ⟨l, hl, hlc⟩ := Stride.exists_of_within (capitalStrides_within s hs) hc
    obtain ⟨r, hr, rfl⟩ := List.mem_map.1 hl
    exact (inRanges_iff increasing_letterRanges).2 ⟨r, hr, (Stride.contains_iff.1 hlc).1⟩

theorem isCapital_ofNat {n : Nat} {s : Stride} (hs : s ∈ capitals) (hn : s.contains n = true) :
    isCapital (Char.ofNat n) = true := by
  have hall : (capitals.all fun s => decide (s.last < 0xD800) ||
      decide (0xDFFF < s.first) && decide (s.last < 0x110000)) = true := by decide
  have hvalid : n.isValidChar := by
    have hlast := List.all_eq_true.1 hall s hs
    have hbounds := (Stride.contains_iff.1 hn).1
    simp only [Bool.and_eq_true, Bool.or_eq_true, decide_eq_true_eq] at hlast
    unfold Nat.isValidChar
    omega
  have hnat : (Char.ofNat n).toNat = n := by
    rw [Char.ofNat, dif_pos hvalid]
    rfl
  rw [isCapital, hnat]
  exact List.any_eq_true.2 ⟨s, hs, hn⟩

theorem isCapital_of_ascii {c u : Char} (hc : c.toNat < 0x80) (h : capital? c = some u) :
    isCapital u = true := by
  have hall : (capital? c).all isCapital = true :=
    forall_ascii (P := fun c => (capital? c).all isCapital = true) (by decide +kernel) hc
  rwa [h] at hall

theorem isCapital_of_capital? {c u : Char} (h : capital? c = some u) : isCapital u = true := by
  by_cases hc : c.toNat < 0x80
  · exact isCapital_of_ascii hc h
  · rw [capital?, if_neg hc] at h
    split at h
    · next hcapital =>
      cases h
      rw [isCapital, capitals, List.any_cons, hcapital, Bool.or_true]
    · obtain ⟨r, hr, rfl⟩ := Option.map_eq_some_iff.1 h
      obtain ⟨hpos, hwithin⟩ := raisedStrides_within r (List.mem_of_find?_eq_some hr)
      have hmember : r.members.contains c.toNat = true := by simpa using List.find?_some hr
      obtain ⟨hbounds, hmod⟩ := Stride.contains_iff.1 hmember
      -- the shift keeps the distance from the first of the stride
      have himage : r.image.contains (Int.toNat (c.toNat + r.shift)) = true := by
        refine Stride.contains_iff.2 ⟨?_, ?_⟩ <;> dsimp only [Raised.image]
        · omega
        · rwa [show Int.toNat (c.toNat + r.shift) - Int.toNat (r.members.first + r.shift) =
            c.toNat - r.members.first by omega]
      obtain ⟨s, hs, hsn⟩ := Stride.exists_of_within hwithin himage
      exact isCapital_ofNat hs hsn

end Text

/-! ## Identifiers -/

open Text (isLetter isDecimalDigit isCapital capital?)

/-- **What an identifier looks like**: a capital letter first, and nothing but letters, decimal
digits and underscores. -/
structure IsIdentifier (name : String) : Prop where
  capital : ∃ c cs, name.toList = c :: cs ∧ isCapital c = true
  chars : ∀ c ∈ name.toList, isLetter c = true ∨ isDecimalDigit c = true ∨ c = '_'

theorem identifierChar_cases (c : Char) :
    isLetter (identifierChar c) = true ∨ isDecimalDigit (identifierChar c) = true ∨
      identifierChar c = '_' := by
  unfold identifierChar
  split
  · next h => simpa [or_assoc] using h
  · simp

/-- **Whatever the name, its identifier is one.** -/
theorem isIdentifier_identifier (name : String) : IsIdentifier (identifier name) := by
  have hN : isCapital 'N' = true := by decide
  have hchars : ∀ c ∈ name.toList.map identifierChar,
      isLetter c = true ∨ isDecimalDigit c = true ∨ c = '_' := by
    intro c hc
    obtain ⟨x, -, rfl⟩ := List.mem_map.1 hc
    exact identifierChar_cases x
  -- an identifier starts with a capital letter, and the rest comes from the name
  have hmake : ∀ u cs, isCapital u = true →
      (∀ c ∈ cs, isLetter c = true ∨ isDecimalDigit c = true ∨ c = '_') →
      IsIdentifier (String.ofList (u :: cs)) := by
    intro u cs hu hcs
    refine ⟨⟨u, cs, String.toList_ofList, hu⟩, fun c hc => ?_⟩
    rw [String.toList_ofList] at hc
    rcases List.mem_cons.1 hc with rfl | hc
    · exact Or.inl (Text.isLetter_of_isCapital hu)
    · exact hcs c hc
  unfold identifier
  split
  · exact hmake 'N' [] hN (by simp)
  · next c cs heq =>
    rw [heq] at hchars
    split
    · next u hu =>
      exact hmake u cs (Text.isCapital_of_capital? hu) fun x hx =>
        hchars x (List.mem_cons_of_mem _ hx)
    · exact hmake 'N' (c :: cs) hN hchars

theorem IsIdentifier.suffixed {base : String} (h : IsIdentifier base) (n : Nat) :
    IsIdentifier (base ++ "_" ++ toString n) := by
  obtain ⟨⟨c, cs, hbase, hc⟩, hchars⟩ := h
  refine ⟨⟨c, cs ++ "_".toList ++ (toString n).toList, ?_, hc⟩, fun x hx => ?_⟩
  · simp [hbase]
  · rw [String.toList_append, String.toList_append, List.mem_append, List.mem_append] at hx
    rcases hx with (hx | hx) | hx
    · exact hchars x hx
    · simp at hx
      simp [hx]
    · right; left
      rw [Nat.toString_eq_repr, Nat.toList_repr] at hx
      rw [isDecimalDigit, Nat.isDigit_of_mem_toDigits (by decide) (by decide) hx, Bool.true_or]

/-! ## Free identifiers -/

/-- The identifiers that are tried for a base: the base itself, then with the numbers from two. -/
def candidate (base : String) : Nat → String
  | 0 => base
  | k + 1 => base ++ "_" ++ toString (2 + k)

theorem candidate_injective (base : String) : Function.Injective (candidate base) := by
  have hlength : ∀ k, base ≠ candidate base (k + 1) := by
    intro k h
    have := congrArg String.length h
    rw [candidate, String.length_append, String.length_append, show "_".length = 1 from rfl] at this
    omega
  intro i j h
  cases i with
  | zero =>
    cases j with
    | zero => rfl
    | succ j => exact absurd h (hlength j)
  | succ i =>
    cases j with
    | zero => exact absurd h.symm (hlength i)
    | succ j =>
      have hij : 2 + i = 2 + j := toString_injective ((String.append_right_inj _).1 h)
      omega

theorem mem_of_freeSuffix_mem {taken : NameSet} {base : String} {fuel i : Nat}
    (h : base ++ "_" ++ toString (freeSuffix taken base fuel i) ∈ taken.keys) :
    ∀ k < fuel, base ++ "_" ++ toString (i + k) ∈ taken.keys := by
  induction fuel generalizing i with
  | zero =>
    intro k hk
    omega
  | succ fuel ih =>
    rw [freeSuffix] at h
    split at h
    · next hi =>
      intro k hk
      cases k with
      | zero => exact NameMap.contains_iff.1 hi
      | succ k =>
        rw [show i + (k + 1) = i + 1 + k by omega]
        exact ih h k (by omega)
    · next hi => exact absurd (NameMap.contains_iff.2 h) hi

/-- **An identifier is found that is not taken.** With the base there are more attempts than
identifiers taken, so one of them succeeds. -/
theorem freeIdentifier_not_mem (taken : NameSet) (base : String) :
    freeIdentifier taken base ∉ taken.keys := by
  unfold freeIdentifier
  split
  · next hbase =>
    intro h
    obtain ⟨i, hi, hfree⟩ := exists_not_mem_of_injective (candidate_injective base) taken.keys
    rw [NameMap.length_keys] at hi
    cases i with
    | zero => exact hfree (NameMap.contains_iff.1 hbase)
    | succ k => exact hfree (mem_of_freeSuffix_mem h k hi)
  · next hbase => exact fun h => hbase (NameMap.contains_iff.2 h)

theorem isIdentifier_freeIdentifier (taken : NameSet) {base : String} (h : IsIdentifier base) :
    IsIdentifier (freeIdentifier taken base) := by
  unfold freeIdentifier
  split
  · exact h.suffixed _
  · exact h

/-! ## The identifiers of some names -/

section Assign

variable (taken : NameSet) (ss : List Symbol)

@[simp]
theorem map_fst_assignIdentifiers : (assignIdentifiers taken ss).map Prod.fst = ss := by
  induction ss generalizing taken with
  | nil => rfl
  | cons s ss ih => simp [assignIdentifiers, ih]

theorem assignIdentifiers_spec :
    (∀ p ∈ assignIdentifiers taken ss, IsIdentifier p.2 ∧ p.2 ∉ taken.keys) ∧
      ((assignIdentifiers taken ss).map Prod.snd).Nodup := by
  induction ss generalizing taken with
  | nil => simp [assignIdentifiers]
  | cons s ss ih =>
    obtain ⟨hrest, hnodup⟩ := ih (taken.add (freeIdentifier taken (identifier s)))
    have hadd : ∀ n, n ∈ (taken.add (freeIdentifier taken (identifier s))).keys ↔
        n = freeIdentifier taken (identifier s) ∨ n ∈ taken.keys := fun n => NameMap.mem_keys_insert
    simp only [assignIdentifiers]
    constructor
    · intro p hp
      rcases List.mem_cons.1 hp with rfl | hp
      · exact ⟨isIdentifier_freeIdentifier taken (isIdentifier_identifier s),
          freeIdentifier_not_mem taken _⟩
      · exact ⟨(hrest p hp).1, fun hin => (hrest p hp).2 ((hadd _).2 (Or.inr hin))⟩
    · refine List.nodup_cons.2 ⟨fun hin => ?_, hnodup⟩
      obtain ⟨p, hp, heq⟩ := List.mem_map.1 hin
      exact (hrest p hp).2 ((hadd _).2 (Or.inl heq))

end Assign

namespace Grammar

variable {g : Grammar} {s t : Symbol} {n : String}

theorem find?_identifiers_iff :
    g.identifiers.find? s = some n ↔ (s, n) ∈ assignIdentifiers .empty g.nonterminals := by
  refine NameMap.find?_ofList_iff ?_
  rw [map_fst_assignIdentifiers]
  exact g.rules.nodup_keys

theorem mem_keys_identifiers : s ∈ g.identifiers.keys ↔ s ∈ g.nonterminals := by
  rw [identifiers, NameMap.mem_keys_ofList, map_fst_assignIdentifiers]

/-- **Every nonterminal has an identifier.** -/
theorem exists_identifier (h : s ∈ g.nonterminals) :
    ∃ n, g.identifiers.find? s = some n ∧ IsIdentifier n := by
  obtain ⟨n, hn⟩ := NameMap.mem_keys_iff.1 (mem_keys_identifiers.2 h)
  have hmem := find?_identifiers_iff.1 hn
  exact ⟨n, hn, ((assignIdentifiers_spec .empty g.nonterminals).1 _ hmem).1⟩

/-- **No two nonterminals have the same identifier.** -/
theorem identifiers_injective (hs : g.identifiers.find? s = some n)
    (ht : g.identifiers.find? t = some n) : s = t := by
  have hnodup := (assignIdentifiers_spec .empty g.nonterminals).2
  have heq := List.inj_on_of_nodup_map hnodup (find?_identifiers_iff.1 hs)
    (find?_identifiers_iff.1 ht) rfl
  exact congrArg Prod.fst heq

end Grammar

end PushParser
