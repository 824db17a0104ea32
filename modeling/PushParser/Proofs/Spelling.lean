import PushParser.Proofs.Acceptance
import PushParser.Proofs.PlainNames
import PushParser.Proofs.RenamedParsers
import PushParser.Proofs.Templates

/-!
# The spelling of arithmetic grammars

Two tables of names that pass their check spell the same arithmetic grammars, provided that no name
holds an `@` and so could be taken for that of a group.

* `stem`, `rest`: a name up to its first `@`, and from there on;
* **`Names.Respells`**, `Names.respell`, **`Names.exists_respells`**: the renamings that take one
  table to the other, and that there are some;
* `Kit.exists_renames`: the rules that templates come to are the same in other names;
* **`Kit.exists_grammar`**: a grammar is built for every fragment;
* `Kit.SameParsers`: what it is for parsers to do the same in other names;
* **`Kit.build_respelled`**: parsers for it do the same whatever the names are.
-/

namespace PushParser

/-! ## Names up to an `@` -/

/-- The name up to its first `@`. -/
def stem (s : Symbol) : Symbol := String.ofList (s.toList.takeWhile (· ≠ '@'))

/-- The name from its first `@` on. -/
def rest (s : Symbol) : Symbol := String.ofList (s.toList.dropWhile (· ≠ '@'))

@[simp] theorem stem_append_rest (s : Symbol) : stem s ++ rest s = s := by
  rw [stem, rest, ← String.ofList_append, List.takeWhile_append_dropWhile, String.ofList_toList]

theorem stem_append {a : Symbol} (ha : Plain a) (s : Symbol) : stem (a ++ rest s) = a := by
  have hrest : (s.toList.dropWhile (· ≠ '@')).takeWhile (· ≠ '@') = [] := by
    have hhead := List.head?_dropWhile_not (fun c => decide (c ≠ '@')) s.toList
    cases hdrop : s.toList.dropWhile (· ≠ '@') with
    | nil => rfl
    | cons c cs =>
      rw [hdrop] at hhead
      rw [List.takeWhile_cons_of_neg (by simpa using hhead)]
  rw [stem, rest, String.toList_append, String.toList_ofList, takeWhile_ne_at ha, hrest,
    List.append_nil, String.ofList_toList]

theorem rest_append {a : Symbol} (ha : Plain a) (s : Symbol) : rest (a ++ rest s) = rest s := by
  have hwhole := stem_append_rest (a ++ rest s)
  rw [stem_append ha] at hwhole
  exact (String.append_right_inj a).1 hwhole

theorem stem_groupName {a : Symbol} (ha : Plain a) (i : Nat) : stem (groupName a i) = a := by
  rw [stem, toList_groupName, takeWhile_ne_at ha]
  simp

theorem rest_groupName {a : Symbol} (ha : Plain a) (i : Nat) :
    rest (groupName a i) = "@" ++ toString i := by
  have hwhole := stem_append_rest (groupName a i)
  rw [stem_groupName ha, groupName, String.append_assoc] at hwhole
  rw [groupName, String.append_assoc]
  exact (String.append_right_inj a).1 hwhole

theorem stem_of_plain {a : Symbol} (ha : Plain a) : stem a = a ∧ rest a = "" := by
  have hstem : stem a = a := by
    have htake := takeWhile_ne_at ha []
    rw [List.append_nil] at htake
    rw [stem, htake, List.takeWhile_nil, List.append_nil, String.ofList_toList]
  have hwhole := stem_append_rest a
  rw [hstem] at hwhole
  exact ⟨hstem, (String.append_right_inj a).1 (hwhole.trans String.append_empty.symm)⟩

theorem stem_at (s : Symbol) : stem ("@" ++ s) = "" := by
  simp [stem]

namespace Arithmetic

/-! ## Renamings -/

namespace Names

variable {n n' : Names}

/-- **A renaming that takes one table to the other**: it keeps symbols apart and root where it is,
and takes each name to the one with the same role, and the names of groups along with it. -/
structure Respells (n n' : Names) (ρ : Symbol → Symbol) : Prop where
  injective : Function.Injective ρ
  root : ρ rootName = rootName
  name : ∀ r, ρ (n r) = n' r
  groupRoot : ∀ i, ρ (groupName rootName i) = groupName rootName i
  group : ∀ r i, ρ (groupName (n r) i) = groupName (n' r) i

/-- The name of the other table with the same role, and the same from an `@` on. What is neither in
the table nor root's is set apart. -/
def respell (n n' : Names) (s : Symbol) : Symbol :=
  match Role.all.find? fun r => n r == stem s with
  | some r => n' r ++ rest s
  | none => if stem s = rootName then s else "@" ++ s

theorem respell_of_stem (hn : n.Valid) {s : Symbol} {r : Role} (hs : stem s = n r) :
    respell n n' s = n' r ++ rest s := by
  have hfind : Role.all.find? (fun r' => n r' == stem s) = some r := by
    cases hfound : Role.all.find? fun r' => n r' == stem s with
    | none =>
      have hnone := List.find?_eq_none.1 hfound r (Role.mem_all r)
      simp [hs] at hnone
    | some r' =>
      have hsome := List.find?_some hfound
      rw [beq_iff_eq, hs] at hsome
      rw [hn.injective hsome]
  rw [respell, hfind]

theorem respell_cases (hn : n.Valid) (hplain' : ∀ r, Plain (n' r)) (s : Symbol) :
    (∃ r, s = n r ++ rest s ∧ stem (respell n n' s) = n' r ∧ rest (respell n n' s) = rest s) ∨
      (stem (respell n n' s) = rootName ∧ respell n n' s = s) ∨
      (stem (respell n n' s) = "" ∧ respell n n' s = "@" ++ s) := by
  by_cases hrole : ∃ r, stem s = n r
  · obtain ⟨r, hr⟩ := hrole
    rw [respell_of_stem hn hr, stem_append (hplain' r), rest_append (hplain' r)]
    exact .inl ⟨r, by rw [← hr, stem_append_rest], rfl, rfl⟩
  · have hnone : Role.all.find? (fun r => n r == stem s) = none := by
      rw [List.find?_eq_none]
      intro r _ hr
      exact hrole ⟨r, (beq_iff_eq.1 hr).symm⟩
    rw [respell, hnone]
    dsimp only
    split
    · next hroot => exact .inr (.inl ⟨hroot, rfl⟩)
    · exact .inr (.inr ⟨stem_at s, rfl⟩)

theorem respell_injective (hn : n.Valid) (hn' : n'.Valid) (hplain' : ∀ r, Plain (n' r)) :
    Function.Injective (respell n n') := by
  intro s t h
  have hs := respell_cases hn hplain' s
  have ht := respell_cases hn hplain' t
  rw [← h] at ht
  rcases hs with ⟨r, hs, hstem, hrest⟩ | ⟨hstem, hs⟩ | ⟨hstem, hs⟩ <;>
    rcases ht with ⟨r', ht, hstem', hrest'⟩ | ⟨hstem', ht⟩ | ⟨hstem', ht⟩ <;>
    rw [hstem] at hstem'
  · rw [hs, ht, hn'.injective hstem', ← hrest, ← hrest']
  · exact absurd hstem' (hn'.unreserved r)
  · exact absurd hstem' (hn'.nonempty r)
  · exact absurd hstem'.symm (hn'.unreserved r')
  · rw [← hs, ← ht]
  · exact absurd hstem' (by decide)
  · exact absurd hstem'.symm (hn'.nonempty r')
  · exact absurd hstem' (by decide)
  · exact (String.append_right_inj "@").1 (hs.symm.trans ht)

theorem plain_rootName : Plain rootName := by
  rw [Plain]
  decide

/-- **There are renamings from one table to the other.** -/
theorem exists_respells (hn : n.Valid) (hn' : n'.Valid) (hplain : ∀ r, Plain (n r))
    (hplain' : ∀ r, Plain (n' r)) : ∃ ρ, n.Respells n' ρ := by
  have hroot : ∀ s, stem s = rootName → respell n n' s = s := by
    intro s hs
    have hnone : Role.all.find? (fun r => n r == stem s) = none := by
      rw [List.find?_eq_none]
      intro r _ hr
      exact hn.unreserved r ((beq_iff_eq.1 hr).trans hs)
    rw [respell, hnone]
    exact if_pos hs
  refine ⟨respell n n', respell_injective hn hn' hplain', hroot _ (stem_of_plain plain_rootName).1,
    fun r => ?_, fun i => hroot _ (stem_groupName plain_rootName i), fun r i => ?_⟩
  · rw [respell_of_stem hn (stem_of_plain (hplain r)).1, (stem_of_plain (hplain r)).2,
      String.append_empty]
  · rw [respell_of_stem hn (stem_groupName (hplain r) i), rest_groupName (hplain r), groupName,
      String.append_assoc]

end Names

/-! ## Drafts of fragments -/

end Arithmetic

theorem Form.draft_name {s : Symbol} (h : s ≠ "") :
    (Form.name s).draft = .ok (.element (.symbol s)) := by
  rw [draft, draftSymbol, if_neg h]

theorem Form.operands_names (label : String) (ss : List Symbol) :
    operands label (ss.map .name) = .ok ss := by
  induction ss with
  | nil => rfl
  | cons s ss ih => rw [List.map_cons, operands, operand, ih]

theorem Form.draft_apply {op : Operator} {ss : List Symbol} (hne : ss ≠ []) (h : "" ∉ ss) :
    (Form.apply op ss).draft = .ok (op.draft ss) := by
  have hempty : (ss.map Form.name).isEmpty = false := by simpa using hne
  rw [apply, draft, draftOperator, hempty, operands_names]
  simp only [Bool.false_eq_true, if_false, if_neg h, Operator.ofCode?_code]

theorem Draft.rename_symbol (ρ : Symbol → Symbol) (s : Symbol) :
    (Draft.element (.symbol s)).rename ρ = .element (.symbol (ρ s)) := rfl

theorem Operator.draft_rename (ρ : Symbol → Symbol) (op : Operator) (ss : List Symbol) :
    (op.draft ss).rename ρ = op.draft (ss.map ρ) := by
  cases op with
  | choice => rfl
  | quantifier q => rcases ss with _ | ⟨s, _ | ⟨s', ss⟩⟩ <;> rfl

namespace Arithmetic

variable {n n' : Names} {ρ : Symbol → Symbol} {flavor : Flavor}

theorem Fragment.draftRule_form (hn : n.Valid) (hn' : n'.Valid) (hρ : ∀ r, ρ (n r) = n' r)
    {y : Fragment} {f : Form} (hf : y.form n flavor = some f) :
    ∃ ds f', f.draftRule = .ok ds ∧ ds ≠ [] ∧ y.form n' flavor = some f' ∧
      f'.draftRule = .ok (ds.map (Draft.rename ρ)) := by
  have hne : ∀ r, "" ≠ n r := fun r => (hn.nonempty r).symm
  have hne' : ∀ r, "" ≠ n' r := fun r => (hn'.nonempty r).symm
  cases y <;> cases flavor <;> cases hf <;>
    simp [form, Form.draftRule, Form.items, Form.draftFrom, Form.draft_name, Form.draft_apply,
      hn.nonempty, hn'.nonempty, hne, hne', Operator.draft_rename, Draft.rename_symbol, hρ]

theorem draftRule_rootForm (hn : n.Valid) (x : Fragment) : (rootForm n x).draftRule =
    .ok [.element (.symbol (n x.role)), .element (.symbol (n .enter))] := by
  simp [rootForm, Form.draftRule, Form.items, Form.draftFrom, Form.draft_name, hn.nonempty]

/-! ## Grammars -/

namespace Kit

/-- The template of the grammar of a fragment. -/
abbrev templateOf (n : Names) (flavor : Flavor) (x : Fragment) : Template :=
  (Kit.mk n flavor).template (.fragment x)

/-- The drafts of a template. -/
abbrev DraftsOf (n : Names) (flavor : Flavor) (x : Fragment) (drafts : NameMap (List Draft)) :
    Prop :=
  NameMap.mapM (fun lhs f => f.draftRule.mapError (ConfigurationError.inRule lhs))
    (templateOf n flavor x) = .ok drafts

theorem exists_drafts (hn : n.Valid) (flavor : Flavor) (x : Fragment) :
    ∃ drafts, DraftsOf n flavor x drafts ∧
      Grammar.Prepared (templateOf n flavor x) (expandRules drafts) := by
  have hrules : ∀ lhs f, NameMap.find? (templateOf n flavor x) lhs = some f →
      ∃ ds, f.draftRule = .ok ds ∧ ds ≠ [] := by
    intro lhs f hf
    rcases (Template.find?_template_iff hn).1 hf with ⟨-, rfl⟩ | ⟨y, -, -, hform⟩
    · exact ⟨_, draftRule_rootForm hn x, List.cons_ne_nil _ _⟩
    · obtain ⟨ds, -, hds, hne, -⟩ := Fragment.draftRule_form hn hn (ρ := id) (fun _ => rfl) hform
      exact ⟨ds, hds, hne⟩
  obtain ⟨drafts, hdrafts⟩ := Grammar.exists_drafts_of_admissible fun lhs f hf => by
    obtain ⟨ds, hds, -⟩ := hrules lhs f hf
    exact Form.admissible_iff.2 ⟨ds, hds⟩
  have hroot : NameMap.find? (templateOf n flavor x) rootName = some (rootForm n x) :=
    (Template.find?_template_iff hn).2 (.inl ⟨rfl, rfl⟩)
  refine ⟨drafts, hdrafts, drafts, NameMap.contains_iff.2 (NameMap.mem_keys_iff.2 ⟨_, hroot⟩),
    hdrafts, checkEmpty_eq_ok_iff.2 fun d hd => ?_, rfl⟩
  obtain ⟨f, hf, hrule⟩ := (find?_drafts_iff hdrafts).1 (NameMap.find?_eq_some_iff.2 hd)
  obtain ⟨ds, hds, hne⟩ := hrules d.1 f hf
  cases hrule.symm.trans hds
  exact hne

section Drafts

variable {x : Fragment} {drafts drafts' : NameMap (List Draft)}

theorem mem_keys_drafts (hn : n.Valid) (hdrafts : DraftsOf n flavor x drafts) {s : Symbol}
    (hs : s ∈ drafts.keys) : s = rootName ∨ ∃ r, n r = s := by
  rw [NameMap.keys_mapM hdrafts] at hs
  obtain ⟨f, hf⟩ := NameMap.mem_keys_iff.1 hs
  rcases (Template.find?_template_iff hn).1 hf with ⟨hs, -⟩ | ⟨y, -, hs, -⟩
  · exact .inl hs
  · exact .inr ⟨y.role, hs⟩

theorem plain_of_mem_keys (hn : n.Valid) (hplain : ∀ r, Plain (n r))
    (hdrafts : DraftsOf n flavor x drafts) {s : Symbol} (hs : s ∈ drafts.keys) : Plain s := by
  rcases mem_keys_drafts hn hdrafts hs with rfl | ⟨r, rfl⟩
  · exact Names.plain_rootName
  · exact hplain r

theorem find?_drafts_rename (hn : n.Valid) (hn' : n'.Valid) (R : n.Respells n' ρ)
    (hdrafts : DraftsOf n flavor x drafts) (hdrafts' : DraftsOf n' flavor x drafts') {s : Symbol}
    {ds : List Draft} (hds : drafts.find? s = some ds) :
    drafts'.find? (ρ s) = some (ds.map (Draft.rename ρ)) := by
  obtain ⟨f, hf, hrule⟩ := (find?_drafts_iff hdrafts).1 hds
  refine (find?_drafts_iff hdrafts').2 ?_
  rcases (Template.find?_template_iff hn).1 hf with ⟨rfl, rfl⟩ | ⟨y, hy, rfl, hform⟩
  · cases hrule.symm.trans (draftRule_rootForm hn x)
    refine ⟨_, (Template.find?_template_iff hn').2 (.inl ⟨R.root, rfl⟩), ?_⟩
    rw [draftRule_rootForm hn', ← R.name, ← R.name]
    rfl
  · obtain ⟨ds', f', hds', -, hform', hrule'⟩ := Fragment.draftRule_form hn hn' R.name hform
    cases hrule.symm.trans hds'
    exact ⟨f', (Template.find?_template_iff hn').2 (.inr ⟨y, hy, (R.name _).symm, hform'⟩), hrule'⟩

theorem exists_key_of_respells (hn : n.Valid) (hn' : n'.Valid) (R : n.Respells n' ρ)
    (hdrafts : DraftsOf n flavor x drafts) (hdrafts' : DraftsOf n' flavor x drafts') {s' : Symbol}
    (hs' : s' ∈ drafts'.keys) : ∃ s ∈ drafts.keys, ρ s = s' := by
  rw [NameMap.keys_mapM hdrafts'] at hs'
  rw [NameMap.keys_mapM hdrafts]
  obtain ⟨f', hf'⟩ := NameMap.mem_keys_iff.1 hs'
  rcases (Template.find?_template_iff hn').1 hf' with ⟨rfl, -⟩ | ⟨y, hy, rfl, hform'⟩
  · exact ⟨rootName, NameMap.mem_keys_iff.2 ⟨_, (Template.find?_template_iff hn).2
      (.inl ⟨rfl, rfl⟩)⟩, R.root⟩
  · have hform : y.form n flavor ≠ none := by
      rw [Ne, Fragment.form_eq_none_iff, ← Fragment.form_eq_none_iff, hform']
      exact Option.some_ne_none f'
    obtain ⟨f, hf⟩ := Option.ne_none_iff_exists'.1 hform
    exact ⟨n y.role, NameMap.mem_keys_iff.2 ⟨f, (Template.find?_template_iff hn).2
      (.inr ⟨y, hy, rfl, hf⟩)⟩, R.name _⟩

/-- **The drafts of templates are the same in other names.** -/
theorem renamedDrafts (hn : n.Valid) (hn' : n'.Valid) (hplain : ∀ r, Plain (n r))
    (hplain' : ∀ r, Plain (n' r)) (R : n.Respells n' ρ) (hdrafts : DraftsOf n flavor x drafts)
    (hdrafts' : DraftsOf n' flavor x drafts') : RenamedDrafts ρ drafts drafts' where
  injective := R.injective
  root := R.root
  plain _ := plain_of_mem_keys hn hplain hdrafts
  plain' _ := plain_of_mem_keys hn' hplain' hdrafts'
  group s hs i := by
    rcases mem_keys_drafts hn hdrafts hs with rfl | ⟨r, rfl⟩
    · rw [R.groupRoot, R.root]
    · rw [R.group, R.name]
  find _ _ := find?_drafts_rename hn hn' R hdrafts hdrafts'
  onto _ := exists_key_of_respells hn hn' R hdrafts hdrafts'

end Drafts

/-- **The rules that templates come to are the same in other names.** -/
theorem exists_renames (hn : n.Valid) (hn' : n'.Valid) (hplain : ∀ r, Plain (n r))
    (hplain' : ∀ r, Plain (n' r)) (R : n.Respells n' ρ) (flavor : Flavor) (x : Fragment) :
    ∃ g g', Grammar.Prepared (templateOf n flavor x) g ∧
      Grammar.Prepared (templateOf n' flavor x) g' ∧ g.Renames ρ g' := by
  obtain ⟨drafts, hdrafts, hprepared⟩ := exists_drafts hn flavor x
  obtain ⟨drafts', hdrafts', hprepared'⟩ := exists_drafts hn' flavor x
  have hrenamed := renamedDrafts hn hn' hplain hplain' R hdrafts hdrafts'
  exact ⟨_, _, hprepared, hprepared', hrenamed.renames_expandRules⟩

theorem valid_terse : Names.terse.Valid := Names.valid_of_check rfl

theorem plain_terse (r : Role) : Plain (Names.terse r) := by
  rw [Plain]
  cases r <;> decide

/-- In short names the grammar of every fragment can be built: there are few enough to try. -/
theorem exists_grammar_terse (flavor : Flavor) (x : Fragment) :
    ∃ g, (Kit.mk .terse flavor).grammar (.fragment x) = .ok g := by
  have hbuilt : ((Kit.mk .terse flavor).grammar (.fragment x)).toOption.isSome = true := by
    cases flavor <;> cases x <;> decide +kernel
  cases hgrammar : (Kit.mk .terse flavor).grammar (.fragment x) with
  | ok g => exact ⟨g, rfl⟩
  | error e =>
    rw [hgrammar] at hbuilt
    cases hbuilt

theorem grammar_eq_ok_iff {k : Kit} {start : Start} {g : Grammar} :
    k.grammar start = .ok g ↔ Grammar.build (k.template start) = .ok g ∧ g.verify = .ok () := by
  unfold grammar
  split
  · next hbuild => simp [hbuild]
  · next g' hbuild =>
    rw [hbuild]
    split
    · next hverify =>
      constructor
      · intro h
        cases h
      · rintro ⟨h, hok⟩
        cases h
        cases hverify.symm.trans hok
    · next hverify =>
      constructor
      · intro h
        cases h
        exact ⟨rfl, hverify⟩
      · exact fun h => h.1

/-- **A grammar is built for every fragment**, in any names. Left recursion would also be there in
short names, and what root reaches in short names it reaches in any. -/
theorem exists_grammar (hn : n.Valid) (hplain : ∀ r, Plain (n r)) (flavor : Flavor)
    (x : Fragment) :
    ∃ g, (Kit.mk n flavor).grammar (.fragment x) = .ok g ∧
      Grammar.Prepared (templateOf n flavor x) g ∧ g.leftRecursion? = none := by
  obtain ⟨terse, hterse⟩ := exists_grammar_terse flavor x
  obtain ⟨hbuild, hverify⟩ := grammar_eq_ok_iff.1 hterse
  have hprepared := Grammar.prepared_of_build hbuild
  obtain ⟨ρ, R⟩ := Names.exists_respells hn valid_terse hplain plain_terse
  obtain ⟨g, _, hg, hg₁, hrenames⟩ := exists_renames hn valid_terse hplain plain_terse R flavor x
  obtain rfl := hprepared.eq hg₁
  have hacyclic := hrenames.acyclic
    (Grammar.leftRecursion?_eq_none_iff.1 (Grammar.leftRecursion?_of_build hbuild))
  obtain ⟨σ, S⟩ := Names.exists_respells valid_terse hn plain_terse hplain
  obtain ⟨_, _, hg₁, hg₂, hrenames⟩ := exists_renames valid_terse hn plain_terse hplain S flavor x
  obtain rfl := hprepared.eq hg₁
  obtain rfl := hg.eq hg₂
  exact ⟨g, grammar_eq_ok_iff.2
    ⟨(Grammar.build_of_prepared_iff hg).2 hacyclic, hrenames.verify hverify⟩, hg,
    Grammar.leftRecursion?_eq_none_iff.2 hacyclic⟩

/-- **Parsers for the grammars are the same but for the names**, if they have no actions and predict
alike, after any calls. -/
def SameParsers (ρ : Symbol → Symbol) (g g' : Grammar) : Prop :=
  ∀ settings settings' p p', Parser.make (some g) settings = .ok p →
    Parser.make (some g') settings' = .ok p' → p.settings.actions = Actions.default →
    p'.settings.actions = Actions.default → p'.settings.predict = p.settings.predict →
    ∀ calls, ∃ y y', y = (Session.start p).run calls ∧
      y' = (Session.start p').run (calls.map (Call.rename ρ)) ∧ y.Renamed ρ y' ∧
      y'.parser.frames = y.parser.frames.map (fun f => (ρ f.1, f.2)) ∧
      y'.parser.done = y.parser.done ∧
      ∀ t, (y'.parser.observe (t.rename ρ)).accepted = (y.parser.observe t).accepted

/-- The grammars of a fragment in two tables have the same rules and the same parsers. -/
theorem sameParsers_of_prepared (hn : n.Valid) (hn' : n'.Valid) (hplain : ∀ r, Plain (n r))
    (hplain' : ∀ r, Plain (n' r)) {ρ : Symbol → Symbol} (R : n.Respells n' ρ) {flavor : Flavor}
    {x : Fragment} {g g' : Grammar} (hprepared : Grammar.Prepared (templateOf n flavor x) g)
    (hprepared' : Grammar.Prepared (templateOf n' flavor x) g') (hacyclic : g.leftRecursion? = none)
    (hacyclic' : g'.leftRecursion? = none) : g.Renames ρ g' ∧ SameParsers ρ g g' := by
  obtain ⟨_, _, hg₁, hg₂, hrenames⟩ := exists_renames hn hn' hplain hplain' R flavor x
  obtain rfl := hprepared.eq hg₁
  obtain rfl := hprepared'.eq hg₂
  refine ⟨hrenames, fun settings settings' p p' hp hp' hactions hactions' hpredict calls => ?_⟩
  obtain ⟨c, rfl⟩ := Parser.eq_of_make hp
  obtain ⟨c', rfl⟩ := Parser.eq_of_make hp'
  have hpredict : c'.predict = c.predict := hpredict
  have R' : (g.engine c.predict).Renames ρ (g'.engine c'.predict) := by
    rw [hpredict]
    exact hrenames.engine hacyclic hacyclic' c.predict
  obtain ⟨hrenamed, hy, hy'⟩ := Session.Renamed.run ⟨rfl, rfl, rfl⟩ R' Session.made_start
    Session.made_start hactions hactions' calls
  refine ⟨_, _, rfl, rfl, hrenamed, hrenamed.frames, hrenamed.done, fun t => ?_⟩
  refine hrenamed.accepted_observe ?_ hy hy' hactions hactions' t
  rw [hy.engine, hy'.engine]
  exact R'

/-- **Names only change the spelling.** For two tables that pass their check and hold no `@`, a
grammar is built for every fragment in both. There are renamings that take one table to the other,
and under each of them the rules of the grammars are the same. So are parsers for them that have no
actions and predict alike, after any calls: their frames, what they have accepted, whether they are
done, their results, and whether they accept a token next. -/
theorem build_respelled (hn : n.check = .ok ()) (hn' : n'.check = .ok ())
    (hplain : ∀ r, '@' ∉ (n r).toList) (hplain' : ∀ r, '@' ∉ (n' r).toList) (flavor : Flavor)
    (x : Fragment) :
    ∃ g g', ((Kit.mk n flavor).build (.fragment x)).2 = .ok g ∧
      ((Kit.mk n' flavor).build (.fragment x)).2 = .ok g' ∧
      (∃ ρ, n.Respells n' ρ) ∧ ∀ ρ, n.Respells n' ρ → g.Renames ρ g' ∧
        ∀ settings settings' p p', Parser.make (some g) settings = .ok p →
          Parser.make (some g') settings' = .ok p' → p.settings.actions = Actions.default →
          p'.settings.actions = Actions.default → p'.settings.predict = p.settings.predict →
          ∀ calls, ∃ y y', y = (Session.start p).run calls ∧
            y' = (Session.start p').run (calls.map (Call.rename ρ)) ∧ y.Renamed ρ y' ∧
            y'.parser.frames = y.parser.frames.map (fun f => (ρ f.1, f.2)) ∧
            y'.parser.done = y.parser.done ∧
            ∀ t, (y'.parser.observe (t.rename ρ)).accepted = (y.parser.observe t).accepted := by
  have hvalid := Names.valid_of_check hn
  have hvalid' := Names.valid_of_check hn'
  obtain ⟨g, hg, hprepared, hacyclic⟩ := exists_grammar hvalid hplain flavor x
  obtain ⟨g', hg', hprepared', hacyclic'⟩ := exists_grammar hvalid' hplain' flavor x
  exact ⟨g, g', hg, hg', Names.exists_respells hvalid hvalid' hplain hplain', fun ρ R =>
    sameParsers_of_prepared hvalid hvalid' hplain hplain' R hprepared hprepared' hacyclic hacyclic'⟩

theorem build_respelled_terse : Names.verbose.check = .ok () ∧ Names.terse.check = .ok () ∧
    ∃ g g', ((Kit.mk .verbose .calculator).build (.fragment .expression)).2 = .ok g ∧
      ((Kit.mk .terse .calculator).build (.fragment .expression)).2 = .ok g' ∧
      ∃ ρ p p', Names.verbose.Respells .terse ρ ∧ g.Renames ρ g' ∧
        Parser.make (some g) [.predict] = .ok p ∧ Parser.make (some g') [.predict] = .ok p' ∧
        ∀ calls, ((Session.start p').run (calls.map (Call.rename ρ))).parser.done =
          ((Session.start p).run calls).parser.done := by
  have hverbose : Names.verbose.check = .ok () := rfl
  have hterse : Names.terse.check = .ok () := rfl
  have hplain : ∀ r, '@' ∉ (Names.verbose r).toList := by
    intro r
    cases r <;> decide
  obtain ⟨g, g', hg, hg', ⟨ρ, R⟩, hall⟩ := build_respelled hverbose hterse hplain plain_terse
    .calculator .expression
  obtain ⟨hrenames, hparsers⟩ := hall ρ R
  have hactions : { Settings.default with predict := true }.actions = Actions.default := rfl
  refine ⟨hverbose, hterse, g, g', hg, hg', ρ, _, _, R, hrenames, rfl, rfl, fun calls => ?_⟩
  obtain ⟨y, y', rfl, rfl, -, -, hdone, -⟩ :=
    hparsers [.predict] [.predict] _ _ rfl rfl hactions hactions rfl calls
  exact hdone

end Kit

end Arithmetic

end PushParser
