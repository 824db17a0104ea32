/-!
# Finite maps keyed by names

A **`NameMap β`** is an array of bindings whose names strictly increase, so a finite map has exactly
one representation, listing its names lists them sorted, and a name is found by halving.

* `entries`: the bindings, in order; the other operations are described through it;
* `find?`, `contains`, `keys`, `insert`, `ofList`: look-up and construction;
* `map`, `mapM`: change the values and keep the names;
* `find?_insert`, `mem_keys_insert`, `mem_keys_iff`, `find?_eq_some_iff`: the laws of look-up.
-/

namespace PushParser

variable {β γ ε : Type}

/-- **A finite map from names to `β`**, its bindings in increasing order of names. -/
structure NameMap (β : Type) where
  table : Array (String × β)
  ordered : (table.toList.map Prod.fst).Pairwise (· < ·)

namespace NameMap

/-! ## Bindings in order -/

/-- Bind `k` to `v` in an ordered list, in place of an older binding. -/
def insertEntry (k : String) (v : β) : List (String × β) → List (String × β)
  | [] => [(k, v)]
  | e :: es =>
    if k < e.1 then (k, v) :: e :: es
    else if k = e.1 then (k, v) :: es
    else e :: insertEntry k v es

/-- The value bound to `k` in a list of bindings. -/
def lookup (k : String) : List (String × β) → Option β
  | [] => none
  | e :: es => if k = e.1 then some e.2 else lookup k es

/-- The value bound to `k` among the bindings from `lo` up to but not including `hi`: look in the
middle, then in one half. -/
def search (table : Array (String × β)) (k : String) : (fuel lo hi : Nat) → Option β
  | 0, _, _ => none
  | fuel + 1, lo, hi =>
    if hi ≤ lo then none
    else
      match table[(lo + hi) / 2]? with
      | none => none
      | some e =>
        if k < e.1 then search table k fuel lo ((lo + hi) / 2)
        else if k = e.1 then some e.2
        else search table k fuel ((lo + hi) / 2 + 1) hi

/-- Replace every value by the outcome of `f`; the first failure ends it. -/
def traverse (f : String → β → Except ε γ) : List (String × β) → Except ε (List (String × γ))
  | [] => .ok []
  | e :: es =>
    match f e.1 e.2 with
    | .error x => .error x
    | .ok v =>
      match traverse f es with
      | .error x => .error x
      | .ok vs => .ok ((e.1, v) :: vs)

theorem lt_of_not {a b : String} (h₁ : ¬ a < b) (h₂ : a ≠ b) : b < a := by
  rcases String.le_total a b with h | h
  · exact absurd (String.le_antisymm h (String.not_lt.1 h₁)) h₂
  · exact Decidable.byContradiction fun hn => h₂ (String.le_antisymm (String.not_lt.1 hn) h)

theorem mem_map_insertEntry {k x : String} {v : β} {es : List (String × β)} :
    x ∈ (insertEntry k v es).map Prod.fst ↔ x = k ∨ x ∈ es.map Prod.fst := by
  induction es with
  | nil => simp [insertEntry]
  | cons e es ih =>
    rw [insertEntry]
    split
    · simp
    · split
      · next h => simp [h]
      · rw [List.map_cons, List.mem_cons, ih, List.map_cons, List.mem_cons]
        exact or_left_comm

theorem ordered_insertEntry (k : String) (v : β) {es : List (String × β)}
    (h : (es.map Prod.fst).Pairwise (· < ·)) :
    ((insertEntry k v es).map Prod.fst).Pairwise (· < ·) := by
  induction es with
  | nil => simp [insertEntry]
  | cons e es ih =>
    rw [List.map_cons, List.pairwise_cons] at h
    rw [insertEntry]
    split
    · next hk =>
      refine List.Pairwise.cons (fun x hx => ?_) (List.Pairwise.cons h.1 h.2)
      rcases List.mem_cons.1 hx with rfl | hx
      · exact hk
      · exact String.lt_trans hk (h.1 x hx)
    · split
      · next hk => exact List.Pairwise.cons (hk ▸ h.1) h.2
      · next hk hne =>
        refine List.Pairwise.cons (fun x hx => ?_) (ih h.2)
        rcases mem_map_insertEntry.1 hx with rfl | hx
        · exact lt_of_not hk hne
        · exact h.1 x hx

/-- A name after all others is bound at the end. -/
theorem insertEntry_of_forall_lt {k : String} {v : β} {es : List (String × β)}
    (h : ∀ x ∈ es.map Prod.fst, x < k) : insertEntry k v es = es ++ [(k, v)] := by
  induction es with
  | nil => rfl
  | cons e es ih =>
    have he : e.1 < k := h e.1 (by simp)
    rw [insertEntry, if_neg (fun hk => String.lt_irrefl k (String.lt_trans hk he)),
      if_neg (fun hk : k = e.1 => String.lt_irrefl k (hk ▸ he)),
      ih fun x hx => h x (List.mem_cons_of_mem _ hx), List.cons_append]

theorem map_fst_traverse {f : String → β → Except ε γ} {es : List (String × β)}
    {vs : List (String × γ)} (h : traverse f es = .ok vs) :
    vs.map Prod.fst = es.map Prod.fst := by
  induction es generalizing vs with
  | nil => cases h; rfl
  | cons e es ih =>
    rw [traverse] at h
    split at h
    · cases h
    · split at h
      · cases h
      · next h' => cases h; simp [ih h']

theorem lt_of_getLast? {l : List String} {k y : String} (h : l.Pairwise (· < ·))
    (hl : l.getLast? = some y) (hy : y < k) : ∀ x ∈ l, x < k := by
  intro x hx
  obtain ⟨ys, rfl⟩ := List.getLast?_eq_some_iff.1 hl
  rcases List.mem_append.1 hx with hx | hx
  · exact String.lt_trans ((List.pairwise_append.1 h).2.2 x hx y (List.mem_singleton.2 rfl)) hy
  · exact List.mem_singleton.1 hx ▸ hy

/-! ## Operations -/

/-- The bindings, in increasing order of names. -/
def entries (m : NameMap β) : List (String × β) := m.table.toList

/-- The map of bindings that are in order already. -/
def ofOrdered (es : List (String × β)) (h : (es.map Prod.fst).Pairwise (· < ·)) : NameMap β :=
  ⟨es.toArray, h⟩

/-- No bindings. -/
def empty : NameMap β := ⟨#[], .nil⟩

instance : Inhabited (NameMap β) := ⟨empty⟩

/-- The name `k` comes after all that are bound. -/
def isBeyond (m : NameMap β) (k : String) : Bool :=
  match m.table.back? with
  | none => true
  | some e => decide (e.1 < k)

theorem lt_of_isBeyond {m : NameMap β} {k : String} (h : m.isBeyond k = true) :
    ∀ x ∈ m.entries.map Prod.fst, x < k := by
  unfold isBeyond at h
  rw [← Array.getLast?_toList] at h
  split at h
  · next hn => simp [entries, List.getLast?_eq_none_iff.1 hn]
  · next e he =>
    refine lt_of_getLast? (y := e.1) m.ordered ?_ (of_decide_eq_true h)
    rw [List.getLast?_map, entries, he, Option.map_some]

theorem ordered_push {m : NameMap β} {k : String} (v : β) (h : m.isBeyond k = true) :
    ((m.table.push (k, v)).toList.map Prod.fst).Pairwise (· < ·) := by
  have he := insertEntry_of_forall_lt (v := v) (lt_of_isBeyond h)
  rw [entries, ← Array.toList_push] at he
  rw [← he]
  exact ordered_insertEntry k v m.ordered

/-- Bind `k` to `v`. A name beyond the others goes to the end at once. -/
def insert (m : NameMap β) (k : String) (v : β) : NameMap β :=
  if h : m.isBeyond k = true then ⟨m.table.push (k, v), ordered_push v h⟩
  else ofOrdered (insertEntry k v m.entries) (ordered_insertEntry k v m.ordered)

/-- The value bound to `k`. -/
def find? (m : NameMap β) (k : String) : Option β := search m.table k m.table.size 0 m.table.size

/-- The name `k` is bound. -/
def contains (m : NameMap β) (k : String) : Bool := (m.find? k).isSome

/-- The bound names, in increasing order. -/
def keys (m : NameMap β) : List String := m.entries.map Prod.fst

/-- Number of bindings. -/
def size (m : NameMap β) : Nat := m.table.size

/-- The map of a list of bindings; of two bindings of one name the later counts. -/
def ofList (es : List (String × β)) : NameMap β :=
  es.foldl (fun m e => m.insert e.1 e.2) empty

theorem map_fst_map (f : String → β → γ) (es : List (String × β)) :
    (es.map fun e => (e.1, f e.1 e.2)).map Prod.fst = es.map Prod.fst := by
  rw [List.map_map]; rfl

/-- Replace every value. -/
def map (f : String → β → γ) (m : NameMap β) : NameMap γ :=
  ofOrdered (m.entries.map fun e => (e.1, f e.1 e.2)) (map_fst_map f m.entries ▸ m.ordered)

/-- Replace every value, in the order of the names, until `f` fails. -/
def mapM (f : String → β → Except ε γ) (m : NameMap β) : Except ε (NameMap γ) :=
  match h : traverse f m.entries with
  | .error x => .error x
  | .ok es => .ok (ofOrdered es (map_fst_traverse h ▸ m.ordered))

/-! ## Laws -/

@[ext]
theorem ext {m n : NameMap β} (h : m.entries = n.entries) : m = n := by
  cases m; cases n; cases Array.toList_inj.1 h; rfl

@[simp] theorem entries_ofOrdered (es : List (String × β))
    (h : (es.map Prod.fst).Pairwise (· < ·)) : (ofOrdered es h).entries = es := rfl

@[simp] theorem entries_empty : (empty : NameMap β).entries = [] := rfl

@[simp] theorem length_entries (m : NameMap β) : m.entries.length = m.size := rfl

@[simp] theorem entries_insert (m : NameMap β) (k : String) (v : β) :
    (m.insert k v).entries = insertEntry k v m.entries := by
  unfold insert
  split
  · next h => rw [insertEntry_of_forall_lt (lt_of_isBeyond h)]; exact Array.toList_push
  · rfl

@[simp] theorem entries_map (f : String → β → γ) (m : NameMap β) :
    (m.map f).entries = m.entries.map fun e => (e.1, f e.1 e.2) := rfl

theorem lookup_insertEntry (k x : String) (v : β) (es : List (String × β)) :
    lookup x (insertEntry k v es) = if x = k then some v else lookup x es := by
  induction es with
  | nil => rfl
  | cons e es ih =>
    rw [insertEntry]
    split
    · simp [lookup]
    · split
      · next hk =>
        simp only [lookup]
        by_cases hx : x = k
        · simp [hx]
        · simp [hx, hk ▸ hx]
      · next hne =>
        simp only [lookup, ih]
        by_cases hx : x = e.1
        · have : x ≠ k := fun h => hne (h ▸ hx)
          simp [hx, hx ▸ this]
        · simp [hx]

theorem lookup_isSome {k : String} {es : List (String × β)} :
    (lookup k es).isSome ↔ k ∈ es.map Prod.fst := by
  induction es with
  | nil => simp [lookup]
  | cons e es ih =>
    simp only [lookup, List.map_cons, List.mem_cons]
    split
    · next h => simp [h]
    · next h => simp [h, ih]

theorem lookup_eq_some_iff {k : String} {v : β} {es : List (String × β)}
    (h : (es.map Prod.fst).Pairwise (· < ·)) : lookup k es = some v ↔ (k, v) ∈ es := by
  induction es with
  | nil => simp [lookup]
  | cons e es ih =>
    rw [List.map_cons, List.pairwise_cons] at h
    rw [lookup, List.mem_cons]
    split
    · next hk =>
      constructor
      · intro hv
        cases hv
        exact Or.inl (Prod.ext hk rfl)
      · rintro (hv | hv)
        · rw [← hv]
        · have := h.1 k (List.mem_map.2 ⟨(k, v), hv, rfl⟩)
          exact absurd (hk ▸ this) (String.lt_irrefl _)
    · next hk =>
      rw [ih h.2]
      constructor
      · exact Or.inr
      · rintro (hv | hv)
        · exact absurd (congrArg Prod.fst hv) hk
        · exact hv

theorem fst_lt_fst (m : NameMap β) {i j : Nat} {a b : String × β} (ha : m.table[i]? = some a)
    (hb : m.table[j]? = some b) (h : i < j) : a.1 < b.1 := by
  have ho := List.pairwise_iff_getElem.1 m.ordered
  obtain ⟨hi, rfl⟩ := Array.getElem?_eq_some_iff.1 ha
  obtain ⟨hj, rfl⟩ := Array.getElem?_eq_some_iff.1 hb
  have := ho i j (by simpa using hi) (by simpa using hj) h
  simpa using this

theorem search_eq_some_iff (m : NameMap β) {k : String} {v : β} {fuel lo hi : Nat}
    (hf : hi ≤ lo + fuel) (hh : hi ≤ m.table.size) :
    search m.table k fuel lo hi = some v ↔
      ∃ i, lo ≤ i ∧ i < hi ∧ m.table[i]? = some (k, v) := by
  induction fuel generalizing lo hi with
  | zero =>
    rw [search]
    exact ⟨fun h => (nomatch h), fun ⟨i, h₁, h₂, _⟩ => by omega⟩
  | succ fuel ih =>
    rw [search]
    split
    · next hle => exact ⟨fun h => (nomatch h), fun ⟨i, h₁, h₂, _⟩ => by omega⟩
    · next hle =>
      have hm : (lo + hi) / 2 < m.table.size := by omega
      rw [Array.getElem?_eq_getElem hm]
      have hmid : m.table[(lo + hi) / 2]? = some m.table[(lo + hi) / 2] :=
        Array.getElem?_eq_getElem hm
      generalize m.table[(lo + hi) / 2] = e at hmid
      dsimp only
      split
      · next hk =>
        rw [ih (by omega) (by omega)]
        constructor
        · rintro ⟨i, h₁, h₂, h₃⟩
          exact ⟨i, h₁, by omega, h₃⟩
        · rintro ⟨i, h₁, h₂, h₃⟩
          refine ⟨i, h₁, Nat.lt_of_not_le fun hi => ?_, h₃⟩
          rcases Nat.eq_or_lt_of_le hi with hi | hi
          · rw [← hi, hmid] at h₃
            cases h₃
            exact String.lt_irrefl k hk
          · exact String.lt_irrefl k (String.lt_trans hk (m.fst_lt_fst hmid h₃ hi))
      · next hk =>
        split
        · next he =>
          constructor
          · intro hv
            cases hv
            exact ⟨(lo + hi) / 2, by omega, by omega, by rw [hmid, he]⟩
          · rintro ⟨i, h₁, h₂, h₃⟩
            rcases Nat.lt_trichotomy i ((lo + hi) / 2) with hi | hi | hi
            · exact absurd (he ▸ m.fst_lt_fst h₃ hmid hi) (String.lt_irrefl _)
            · rw [hi, hmid] at h₃
              rw [Option.some.inj h₃]
            · exact absurd (he ▸ m.fst_lt_fst hmid h₃ hi) (String.lt_irrefl _)
        · next he =>
          rw [ih (by omega) hh]
          constructor
          · rintro ⟨i, h₁, h₂, h₃⟩
            exact ⟨i, by omega, h₂, h₃⟩
          · rintro ⟨i, h₁, h₂, h₃⟩
            refine ⟨i, Nat.lt_of_not_le fun hi => ?_, h₂, h₃⟩
            rcases Nat.eq_or_lt_of_le hi with hi | hi
            · rw [hi, hmid] at h₃
              cases h₃
              exact he rfl
            · exact hk (m.fst_lt_fst h₃ hmid (by omega))

theorem find?_eq_some_iff {m : NameMap β} {k : String} {v : β} :
    m.find? k = some v ↔ (k, v) ∈ m.entries := by
  rw [find?, search_eq_some_iff m (by omega) (Nat.le_refl _), entries, List.mem_iff_getElem?]
  constructor
  · rintro ⟨i, _, _, h⟩
    exact ⟨i, by rwa [Array.getElem?_toList]⟩
  · rintro ⟨i, h⟩
    rw [Array.getElem?_toList] at h
    exact ⟨i, Nat.zero_le i, (Array.getElem?_eq_some_iff.1 h).1, h⟩

/-- Looking up is reading down the list. -/
theorem find?_eq_lookup (m : NameMap β) (k : String) : m.find? k = lookup k m.entries :=
  Option.ext fun _ => find?_eq_some_iff.trans (lookup_eq_some_iff m.ordered).symm

@[simp] theorem find?_empty (k : String) : (empty : NameMap β).find? k = none := rfl

theorem find?_insert (m : NameMap β) (k x : String) (v : β) :
    (m.insert k v).find? x = if x = k then some v else m.find? x := by
  rw [find?_eq_lookup, entries_insert, lookup_insertEntry, find?_eq_lookup]

theorem mem_keys_insert {m : NameMap β} {k x : String} {v : β} :
    x ∈ (m.insert k v).keys ↔ x = k ∨ x ∈ m.keys := by
  rw [keys, entries_insert]
  exact mem_map_insertEntry

theorem contains_iff {m : NameMap β} {k : String} : m.contains k = true ↔ k ∈ m.keys := by
  rw [contains, find?_eq_lookup]
  exact lookup_isSome

theorem mem_keys_iff {m : NameMap β} {k : String} : k ∈ m.keys ↔ ∃ v, m.find? k = some v := by
  rw [← Option.isSome_iff_exists]
  exact contains_iff.symm

theorem find?_map (f : String → β → γ) (m : NameMap β) (k : String) :
    (m.map f).find? k = (m.find? k).map (f k) := by
  rw [find?_eq_lookup, find?_eq_lookup, entries_map]
  induction m.entries with
  | nil => rfl
  | cons e es ih =>
    simp only [List.map_cons, lookup, ih]
    split
    · next hk => simp [hk]
    · rfl

@[simp] theorem keys_map (f : String → β → γ) (m : NameMap β) : (m.map f).keys = m.keys := by
  simp [keys, Function.comp_def]

end NameMap

/-! ## Sets of names -/

/-- A set of names, sorted. -/
abbrev NameSet := NameMap Unit

namespace NameSet

/-- Add a name to a set. -/
def add (a : NameSet) (k : String) : NameSet := a.insert k ()

/-- Add the names of a list to a set. -/
def addAll (a : NameSet) (ks : List String) : NameSet := ks.foldl add a

/-- The union of two sets: the names of the smaller go into the larger. -/
def union (a b : NameSet) : NameSet :=
  if a.size ≤ b.size then addAll b a.keys else addAll a b.keys

theorem mem_keys_addAll {a : NameSet} {ks : List String} {x : String} :
    x ∈ (addAll a ks).keys ↔ x ∈ ks ∨ x ∈ a.keys := by
  induction ks generalizing a with
  | nil => simp [addAll]
  | cons k ks ih =>
    rw [addAll, List.foldl_cons, ← addAll, ih, add, NameMap.mem_keys_insert, List.mem_cons]
    exact or_left_comm.trans or_assoc.symm

theorem mem_keys_union {a b : NameSet} {x : String} :
    x ∈ (union a b).keys ↔ x ∈ a.keys ∨ x ∈ b.keys := by
  unfold union
  split
  · exact mem_keys_addAll
  · exact mem_keys_addAll.trans or_comm

end NameSet

end PushParser
