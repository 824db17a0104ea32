import PushParser.Proofs.GroupNames
import PushParser.Proofs.RenamedRules

/-!
# Groups that are named by their place

Where no left-hand side holds an `@`, the name of a group is never taken: the group at position `i`
of `lhs` is called `lhs@i`. So a renaming of the left-hand sides that goes on to these names takes
the rules of one set of drafts to those of the other, whatever the order of the names is.

* `groupName`, **`groupName_injective`**: the name of a place, which tells the place;
* `namedFrom`, `groupsFrom`: the rule of a sequence of drafts and the rules of its groups;
* `Expansion.elements_plain`, `Expansion.mem_rules_plain`: this is what naming groups makes of them;
* **`rule?_expandRules_iff`**: the rules of the grammar, in no order;
* `RenamedDrafts`, **`RenamedDrafts.renames_expandRules`**: they are the same in other names.
-/

namespace PushParser

/-! ## Names of places -/

/-- The name of the group at a position of `lhs`, unless it is taken. -/
def groupName (lhs : Symbol) (position : Nat) : Symbol := lhs ++ "@" ++ toString position

/-- The name holds no `@`. -/
def Plain (s : Symbol) : Prop := '@' ∉ s.toList

theorem toList_groupName (lhs : Symbol) (position : Nat) :
    (groupName lhs position).toList = lhs.toList ++ '@' :: (toString position).toList := by
  simp [groupName]

theorem not_plain_groupName (lhs : Symbol) (position : Nat) : ¬ Plain (groupName lhs position) := by
  rw [Plain, toList_groupName]
  simp

theorem takeWhile_ne_at {l : List Char} (hl : '@' ∉ l) (m : List Char) :
    (l ++ m).takeWhile (· ≠ '@') = l ++ m.takeWhile (· ≠ '@') := by
  refine List.takeWhile_append_of_pos fun c hc => ?_
  simpa using fun hc' : c = '@' => hl (hc' ▸ hc)

/-- **The name of a group tells its place.** -/
theorem groupName_injective {s t : Symbol} {i j : Nat} (hs : Plain s) (ht : Plain t)
    (h : groupName s i = groupName t j) : s = t ∧ i = j := by
  have hlist := congrArg String.toList h
  rw [toList_groupName, toList_groupName] at hlist
  have hst : s = t := by
    have hstem := congrArg (List.takeWhile (· ≠ '@')) hlist
    rw [takeWhile_ne_at hs, takeWhile_ne_at ht] at hstem
    exact String.toList_inj.1 (by simpa using hstem)
  subst hst
  refine ⟨rfl, numbered_injective "" ?_⟩
  rw [List.append_cancel_left_eq, List.cons.injEq] at hlist
  rw [numbered, numbered, String.toList_inj.1 hlist.2]

/-! ## Drafts -/

/-- The element of a draft at a position of `lhs`. -/
def Draft.named (lhs : Symbol) (position : Nat) : Draft → Element
  | .element e => e
  | .group q _ => .quantified q (groupName lhs position)

/-- The rule of drafts, the first of which stands at `position` of `lhs`. -/
def namedFrom (lhs : Symbol) (position : Nat) : List Draft → Rule
  | [] => []
  | d :: ds => d.named lhs position :: namedFrom lhs (position + 1) ds

/-- The rules of the groups among drafts, the first of which stands at `position` of `lhs`. The last
comes first. -/
def groupsFrom (lhs : Symbol) (position : Nat) : List Draft → List (Symbol × Rule)
  | [] => []
  | .element _ :: ds => groupsFrom lhs (position + 1) ds
  | .group _ operands :: ds =>
    groupsFrom lhs (position + 1) ds ++ [(groupName lhs position, operands.map .symbol)]

theorem exists_of_mem_groupsFrom {lhs : Symbol} {position : Nat} {ds : List Draft}
    {p : Symbol × Rule} (h : p ∈ groupsFrom lhs position ds) :
    ∃ i, position ≤ i ∧ p.1 = groupName lhs i := by
  induction ds generalizing position with
  | nil => cases h
  | cons d ds ih =>
    cases d with
    | element e =>
      obtain ⟨i, hi, hp⟩ := ih h
      exact ⟨i, by omega, hp⟩
    | group q operands =>
      rcases List.mem_append.1 h with h | h
      · obtain ⟨i, hi, hp⟩ := ih h
        exact ⟨i, by omega, hp⟩
      · rw [List.mem_singleton.1 h]
        exact ⟨position, Nat.le_refl _, rfl⟩

namespace Expansion

theorem nameGroup_plain {x : Expansion} {lhs : Symbol} {position : Nat}
    (h : groupName lhs position ∉ x.taken) (operands : List Symbol) :
    x.nameGroup lhs position operands = (groupName lhs position,
      ⟨groupName lhs position :: x.taken, x.counter,
        (groupName lhs position, operands.map .symbol) :: x.added⟩) := by
  have hfresh : freshName x.taken (groupName lhs position) x.counter =
      (groupName lhs position, x.counter) := by
    rw [freshName, if_neg h]
  rw [nameGroup]
  rw [groupName] at hfresh ⊢
  rw [hfresh]

theorem elements_plain {x : Expansion} {lhs : Symbol} {position : Nat} {ds : List Draft}
    (hlhs : Plain lhs) (h : ∀ i, position ≤ i → groupName lhs i ∉ x.taken) :
    x.elements lhs position ds = (namedFrom lhs position ds,
      ⟨(groupsFrom lhs position ds).map Prod.fst ++ x.taken, x.counter,
        groupsFrom lhs position ds ++ x.added⟩) := by
  induction ds generalizing x position with
  | nil => rfl
  | cons d ds ih =>
    cases d with
    | element e =>
      have hfree : ∀ i, position + 1 ≤ i → groupName lhs i ∉ x.taken := fun i hi => h i (by omega)
      simp only [elements, element, ih hfree, namedFrom, groupsFrom, Draft.named]
    | group q operands =>
      have hnamed := nameGroup_plain (h position (Nat.le_refl _)) operands
      have hfree : ∀ i, position + 1 ≤ i → groupName lhs i ∉ groupName lhs position :: x.taken := by
        intro i hi hmem
        rcases List.mem_cons.1 hmem with heq | hmem
        · have := (groupName_injective hlhs hlhs heq).2
          omega
        · exact h i (by omega) hmem
      have hrest : elements ⟨groupName lhs position :: x.taken, x.counter,
          (groupName lhs position, operands.map .symbol) :: x.added⟩ lhs (position + 1) ds = _ :=
        ih hfree
      simp only [elements, element, hnamed, hrest, namedFrom, groupsFrom, Draft.named,
        List.map_append, List.append_assoc]
      rfl

theorem mem_rules_plain {x : Expansion} {es : List (Symbol × List Draft)}
    (hplain : ∀ e ∈ es, Plain e.1) (hnodup : (es.map Prod.fst).Nodup)
    (h : ∀ e ∈ es, ∀ i, groupName e.1 i ∉ x.taken) :
    (x.rules es).1 = es.map (fun e => (e.1, namedFrom e.1 0 e.2)) ∧
      ∀ p, p ∈ (x.rules es).2.added ↔ p ∈ x.added ∨ ∃ e ∈ es, p ∈ groupsFrom e.1 0 e.2 := by
  induction es generalizing x with
  | nil => simp [rules]
  | cons e es ih =>
    obtain ⟨lhs, ds⟩ := e
    obtain ⟨hlhs, hplain⟩ := List.forall_mem_cons.1 hplain
    obtain ⟨hfree, hothers⟩ := List.forall_mem_cons.1 h
    rw [List.map_cons, List.nodup_cons] at hnodup
    have hfirst : x.elements lhs 0 ds = _ := elements_plain hlhs fun i _ => hfree i
    have hfresh : ∀ e ∈ es, ∀ i, groupName e.1 i ∉ (x.elements lhs 0 ds).2.taken := by
      intro e he i hmem
      rw [hfirst] at hmem
      rcases List.mem_append.1 hmem with hmem | hmem
      · obtain ⟨p, hp, hname⟩ := List.mem_map.1 hmem
        obtain ⟨j, -, hj⟩ := exists_of_mem_groupsFrom hp
        have heq := (groupName_injective (hplain e he) hlhs (hname.symm.trans hj)).1
        exact hnodup.1 (heq ▸ List.mem_map_of_mem he)
      · exact hothers e he i hmem
    obtain ⟨hrules, hadded⟩ := ih hplain hnodup.2 hfresh
    refine ⟨?_, fun p => ?_⟩
    · rw [rules, List.map_cons, hrules, hfirst]
    · rw [rules, hadded, hfirst, List.mem_append, List.exists_mem_cons_iff, or_comm (a := p ∈ _),
        or_assoc]

end Expansion

/-! ## Grammars -/

section Grammars

variable {drafts : NameMap (List Draft)}

theorem mem_expanded_plain (h : ∀ s ∈ drafts.keys, Plain s) :
    let expanded := Expansion.rules ⟨drafts.keys, 0, []⟩ drafts.entries
    expanded.1 = drafts.entries.map (fun e => (e.1, namedFrom e.1 0 e.2)) ∧
      ∀ p, p ∈ expanded.2.added ↔ ∃ e ∈ drafts.entries, p ∈ groupsFrom e.1 0 e.2 := by
  intro expanded
  have hkeys : ∀ e ∈ drafts.entries, Plain e.1 := fun e he => h e.1 (List.mem_map_of_mem he)
  obtain ⟨hrules, hadded⟩ := Expansion.mem_rules_plain (x := ⟨drafts.keys, 0, []⟩) hkeys
    drafts.nodup_keys fun e _ i hmem => not_plain_groupName e.1 i (h _ hmem)
  refine ⟨hrules, fun p => (hadded p).trans (or_iff_right List.not_mem_nil)⟩

/-- A group among the drafts has the rule `r`, and its place the name `s`. -/
def NamesGroup (drafts : NameMap (List Draft)) (s : Symbol) (r : Rule) : Prop :=
  ∃ lhs ds, drafts.find? lhs = some ds ∧ (s, r) ∈ groupsFrom lhs 0 ds

/-- **The rules of a grammar whose left-hand sides are plain**: those of the drafts, and those of
their groups under the names of their places. -/
theorem rule?_expandRules_iff (h : ∀ s ∈ drafts.keys, Plain s) {s : Symbol} {r : Rule} :
    (expandRules drafts).rule? s = some r ↔
      (∃ ds, drafts.find? s = some ds ∧ r = namedFrom s 0 ds) ∨ NamesGroup drafts s r := by
  obtain ⟨hrules, hadded⟩ := mem_expanded_plain h
  refine (NameMap.find?_ofList_iff (nodup_rules drafts)).trans ?_
  rw [List.mem_append, hrules, hadded, List.mem_map]
  simp only [NamesGroup, NameMap.find?_eq_some_iff, Prod.exists, Prod.mk.injEq]
  refine or_congr ⟨?_, ?_⟩ Iff.rfl
  · rintro ⟨lhs, ds, hmem, rfl, rfl⟩
    exact ⟨ds, hmem, rfl⟩
  · rintro ⟨ds, hmem, rfl⟩
    exact ⟨s, ds, hmem, rfl, rfl⟩

theorem mem_synthetic_iff (h : ∀ s ∈ drafts.keys, Plain s) {s : Symbol} :
    s ∈ (expandRules drafts).synthetic ↔ ∃ r, NamesGroup drafts s r := by
  obtain ⟨-, hadded⟩ := mem_expanded_plain h
  simp only [expandRules, List.mem_map, Prod.exists, hadded, NamesGroup, NameMap.find?_eq_some_iff]
  constructor
  · rintro ⟨_, r, hr, rfl⟩
    exact ⟨r, hr⟩
  · rintro ⟨r, hr⟩
    exact ⟨s, r, hr, rfl⟩

end Grammars

/-! ## Other names -/

/-- The draft in other names. -/
def Draft.rename (ρ : Symbol → Symbol) : Draft → Draft
  | .element e => .element (e.rename ρ)
  | .group q operands => .group q (operands.map ρ)

section Rename

variable {ρ : Symbol → Symbol} {lhs : Symbol}

theorem namedFrom_rename (h : ∀ i, ρ (groupName lhs i) = groupName (ρ lhs) i) (position : Nat)
    (ds : List Draft) :
    namedFrom (ρ lhs) position (ds.map (Draft.rename ρ)) =
      Rule.rename ρ (namedFrom lhs position ds) := by
  induction ds generalizing position with
  | nil => rfl
  | cons d ds ih =>
    rw [List.map_cons, namedFrom, ih, namedFrom, Rule.rename, Rule.rename, List.map_cons]
    congr 1
    cases d with
    | element e => rfl
    | group q operands => rw [Draft.rename, Draft.named, Draft.named, Element.rename, h]

theorem groupsFrom_rename (h : ∀ i, ρ (groupName lhs i) = groupName (ρ lhs) i) (position : Nat)
    (ds : List Draft) :
    groupsFrom (ρ lhs) position (ds.map (Draft.rename ρ)) =
      (groupsFrom lhs position ds).map fun p => (ρ p.1, Rule.rename ρ p.2) := by
  induction ds generalizing position with
  | nil => rfl
  | cons d ds ih =>
    cases d with
    | element e => exact ih (position + 1)
    | group q operands =>
      simp only [List.map_cons, Draft.rename, groupsFrom, ih, List.map_append, h, List.map_nil,
        Rule.rename, List.map_map]
      rfl

end Rename

/-- **Drafts that are the same in other names.** The left-hand sides are plain, and the renaming
goes on to the names of places. -/
structure RenamedDrafts (ρ : Symbol → Symbol) (drafts drafts' : NameMap (List Draft)) : Prop where
  injective : Function.Injective ρ
  root : ρ rootName = rootName
  plain : ∀ s ∈ drafts.keys, Plain s
  plain' : ∀ s ∈ drafts'.keys, Plain s
  group : ∀ s ∈ drafts.keys, ∀ i, ρ (groupName s i) = groupName (ρ s) i
  find : ∀ s ds, drafts.find? s = some ds → drafts'.find? (ρ s) = some (ds.map (Draft.rename ρ))
  onto : ∀ s' ∈ drafts'.keys, ∃ s ∈ drafts.keys, ρ s = s'

namespace RenamedDrafts

variable {ρ : Symbol → Symbol} {drafts drafts' : NameMap (List Draft)}
  (R : RenamedDrafts ρ drafts drafts')

include R

theorem exists_find? {s' : Symbol} {ds' : List Draft} (h : drafts'.find? s' = some ds') :
    ∃ s ds, drafts.find? s = some ds ∧ ρ s = s' ∧ ds.map (Draft.rename ρ) = ds' := by
  obtain ⟨s, hs, rfl⟩ := R.onto s' (NameMap.mem_keys_iff.2 ⟨ds', h⟩)
  obtain ⟨ds, hds⟩ := NameMap.mem_keys_iff.1 hs
  exact ⟨s, ds, hds, rfl, Option.some.inj ((R.find s ds hds).symm.trans h)⟩

theorem named {s : Symbol} {ds : List Draft} (h : drafts.find? s = some ds) :
    Rule.rename ρ (namedFrom s 0 ds) = namedFrom (ρ s) 0 (ds.map (Draft.rename ρ)) :=
  (namedFrom_rename (R.group s (NameMap.mem_keys_iff.2 ⟨ds, h⟩)) 0 ds).symm

theorem groups {s : Symbol} {ds : List Draft} (h : drafts.find? s = some ds) :
    groupsFrom (ρ s) 0 (ds.map (Draft.rename ρ)) =
      (groupsFrom s 0 ds).map fun p => (ρ p.1, Rule.rename ρ p.2) :=
  groupsFrom_rename (R.group s (NameMap.mem_keys_iff.2 ⟨ds, h⟩)) 0 ds

/-- The groups among the drafts are the same in other names. -/
theorem namesGroup_iff {s' : Symbol} {r' : Rule} :
    NamesGroup drafts' s' r' ↔ ∃ s r, NamesGroup drafts s r ∧ ρ s = s' ∧ Rule.rename ρ r = r' := by
  constructor
  · rintro ⟨lhs', ds', hds', hp⟩
    obtain ⟨lhs, ds, hds, rfl, rfl⟩ := R.exists_find? hds'
    rw [R.groups hds] at hp
    obtain ⟨⟨s, r⟩, hsr, heq⟩ := List.mem_map.1 hp
    cases heq
    exact ⟨s, r, ⟨lhs, ds, hds, hsr⟩, rfl, rfl⟩
  · rintro ⟨s, r, ⟨lhs, ds, hds, hsr⟩, rfl, rfl⟩
    refine ⟨ρ lhs, _, R.find lhs ds hds, ?_⟩
    rw [R.groups hds]
    exact List.mem_map_of_mem hsr

theorem rule?_iff {s' : Symbol} {r' : Rule} : (expandRules drafts').rule? s' = some r' ↔
    ∃ s r, (expandRules drafts).rule? s = some r ∧ ρ s = s' ∧ Rule.rename ρ r = r' := by
  rw [rule?_expandRules_iff R.plain', R.namesGroup_iff]
  simp only [rule?_expandRules_iff R.plain]
  constructor
  · rintro (⟨ds', hds', rfl⟩ | ⟨s, r, hsr, hs, hr⟩)
    · obtain ⟨s, ds, hds, rfl, rfl⟩ := R.exists_find? hds'
      exact ⟨s, _, .inl ⟨ds, hds, rfl⟩, rfl, R.named hds⟩
    · exact ⟨s, r, .inr hsr, hs, hr⟩
  · rintro ⟨s, r, ⟨ds, hds, rfl⟩ | hsr, rfl, rfl⟩
    · exact .inl ⟨_, R.find s ds hds, R.named hds⟩
    · exact .inr ⟨s, r, hsr, rfl, rfl⟩

/-- **Drafts in other names give the same grammar in other names.** -/
theorem renames_expandRules : (expandRules drafts).Renames ρ (expandRules drafts') := by
  refine ⟨R.injective, R.root, fun s => Option.ext fun r' => ?_, fun s' hs' => ?_, fun s => ?_⟩
  · rw [Option.map_eq_some_iff, R.rule?_iff]
    constructor
    · rintro ⟨t, r, ht, hts, hr⟩
      exact ⟨r, R.injective hts ▸ ht, hr⟩
    · rintro ⟨r, hs, hr⟩
      exact ⟨s, r, hs, rfl, hr⟩
  · obtain ⟨r', hr'⟩ := NameMap.mem_keys_iff.1 hs'
    obtain ⟨s, r, hs, hss', -⟩ := R.rule?_iff.1 hr'
    exact ⟨s, NameMap.mem_keys_iff.2 ⟨r, hs⟩, hss'⟩
  · rw [mem_synthetic_iff R.plain', mem_synthetic_iff R.plain]
    simp only [R.namesGroup_iff]
    constructor
    · rintro ⟨r', t, r, htr, hts, -⟩
      exact ⟨r, R.injective hts ▸ htr⟩
    · rintro ⟨r, hsr⟩
      exact ⟨_, s, r, hsr, rfl, rfl⟩

end RenamedDrafts

end PushParser
