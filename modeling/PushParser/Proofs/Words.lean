import Mathlib.Algebra.Group.Nat.Defs
import PushParser.Proofs.Identifiers

/-!
# Words

A line of EBNF is made of words with a space between each two: identifiers, quoted terminals and
marks of punctuation. It reads in one way only. A space ends an identifier and a mark, and may well
stand in a quoted terminal; but that ends at the first double quote without a backslash, and what
kind of word begins is seen from its first character.

* `Text.unescape`, **`Text.unescape_escape`**: an escaped character, told from what follows it;
* **`Text.quote_cancel`**: a quoted string ends where its closing quote is;
* `Word`, `Word.text`, `spaced`: words, and a line of them;
* **`Word.text_cancel`**: a word ends where its space is;
* **`spaced_injective`**: a line reads in one way only.
-/

namespace PushParser

/-! ## Quoted text -/

namespace Text

/-- The value of a hexadecimal digit in lower case. -/
def hexDigitValue (c : Char) : Nat := if c.isDigit then c.toNat - 48 else c.toNat - 87

/-- The number that hexadecimal digits stand for. -/
def hexValue (cs : List Char) : Nat := cs.foldl (fun n c => n * 16 + hexDigitValue c) 0

/-- The character that a letter names after a backslash. -/
def namedBy (l : Char) : Char :=
  match l with
  | 'a' => '\x07'
  | 'b' => '\x08'
  | 'f' => '\x0c'
  | 'n' => '\n'
  | 'r' => '\r'
  | 't' => '\t'
  | 'v' => '\x0b'
  | l => l

/-- The first character of an escaped text, and what follows it. -/
def unescape : List Char → Option (Char × List Char)
  | '\\' :: 'x' :: cs => some (Char.ofNat (hexValue (cs.take 2)), cs.drop 2)
  | '\\' :: 'u' :: cs => some (Char.ofNat (hexValue (cs.take 4)), cs.drop 4)
  | '\\' :: 'U' :: cs => some (Char.ofNat (hexValue (cs.take 8)), cs.drop 8)
  | '\\' :: l :: cs => some (namedBy l, cs)
  | c :: cs => some (c, cs)
  | [] => none

theorem length_hexDigits (w n : Nat) : (hexDigits w n).length = w := by
  induction w generalizing n with
  | zero => rfl
  | succ w ih => simp [hexDigits, ih]

theorem hexValue_hexDigits {w n : Nat} (h : n < 16 ^ w) : hexValue (hexDigits w n) = n := by
  have hdigit : ∀ d < 16, hexDigitValue (Nat.digitChar d) = d := by decide
  induction w generalizing n with
  | zero =>
    obtain rfl : n = 0 := by simpa using h
    rfl
  | succ w ih =>
    have hdiv : n / 16 < 16 ^ w := Nat.div_lt_of_lt_mul (by rwa [← Nat.pow_succ'])
    have hread : hexValue (hexDigits w (n / 16) ++ [Nat.digitChar (n % 16)]) =
        hexValue (hexDigits w (n / 16)) * 16 + hexDigitValue (Nat.digitChar (n % 16)) := by
      simp [hexValue, List.foldl_append]
    rw [hexDigits, hread, ih hdiv, hdigit _ (Nat.mod_lt n (by decide))]
    omega

theorem read_hexDigits {w : Nat} {c : Char} (h : c.toNat < 16 ^ w) (r : List Char) :
    Char.ofNat (hexValue ((hexDigits w c.toNat ++ r).take w)) = c ∧
      (hexDigits w c.toNat ++ r).drop w = r := by
  have hw : (hexDigits w c.toNat).length = w := length_hexDigits w _
  constructor
  · rw [List.take_left' hw, hexValue_hexDigits h, Char.ofNat_toNat]
  · exact List.drop_left' hw

theorem unescape_of_ne {c : Char} (h : c ≠ '\\') (r : List Char) :
    unescape (c :: r) = some (c, r) := by
  unfold unescape
  split <;> simp_all

theorem unescape_named {l : Char} (h : l ∉ ['x', 'u', 'U', '\n']) (r : List Char) :
    unescape ('\\' :: l :: r) = some (namedBy l, r) := by
  unfold unescape
  split <;> grind

theorem namedBy_of_controlLetter? {c l : Char} (h : controlLetter? c = some l) :
    namedBy l = c ∧ l ∉ ['x', 'u', 'U', '\n'] := by
  have hc := Char.ofNat_toNat c
  unfold controlLetter? at h
  split at h <;> cases h <;>
    · next hn =>
      rw [hn] at hc
      subst hc
      decide

/-- **An escaped character can be told from what follows it.** -/
theorem unescape_escape (c : Char) (r : List Char) : unescape (escape c ++ r) = some (c, r) := by
  have hdigits : ∀ {w : Nat}, c.toNat < 16 ^ w →
      (Char.ofNat (hexValue ((hexDigits w c.toNat ++ r).take w)),
        (hexDigits w c.toNat ++ r).drop w) = (c, r) :=
    fun h => Prod.ext (read_hexDigits h r).1 (read_hexDigits h r).2
  unfold escape
  split
  · next h => rcases h with rfl | rfl <;> rfl
  · next hplain =>
    split
    · exact unescape_of_ne (fun h => hplain (Or.inr h)) r
    · split
      · next l hl =>
        obtain ⟨hnamed, hl⟩ := namedBy_of_controlLetter? hl
        rw [List.cons_append, List.singleton_append, unescape_named hl, hnamed]
      · split
        · next h => exact congrArg some (hdigits (by omega))
        · split
          · next h => exact congrArg some (hdigits (by omega))
          · have hc : c.toNat < 0x110000 := by
              have := c.valid
              simp only [UInt32.isValidChar, Nat.isValidChar] at this
              simp only [Char.toNat]
              omega
            exact congrArg some (hdigits (by omega))

theorem escape_ne_quote {c : Char} {r r' : List Char} : escape c ++ r ≠ '"' :: r' := by
  intro h
  have hread := unescape_escape c r
  rw [h, unescape_of_ne (by decide)] at hread
  obtain ⟨rfl, -⟩ : '"' = c ∧ r' = r := by simpa using hread
  cases h

theorem escaped_cancel {s t r r' : List Char}
    (h : s.flatMap escape ++ '"' :: r = t.flatMap escape ++ '"' :: r') : s = t ∧ r = r' := by
  induction s generalizing t with
  | nil =>
    cases t with
    | nil => simpa using h
    | cons d t =>
      rw [List.flatMap_cons, List.append_assoc] at h
      exact absurd h.symm escape_ne_quote
  | cons c s ih =>
    rw [List.flatMap_cons, List.append_assoc] at h
    cases t with
    | nil => exact absurd h escape_ne_quote
    | cons d t =>
      rw [List.flatMap_cons, List.append_assoc] at h
      have hread := unescape_escape c (s.flatMap escape ++ '"' :: r)
      rw [h, unescape_escape] at hread
      obtain ⟨rfl, hrest⟩ : d = c ∧ _ := by simpa using hread
      obtain ⟨rfl, rfl⟩ := ih hrest.symm
      exact ⟨rfl, rfl⟩

/-- **A quoted string ends where its closing quote is.** -/
theorem quote_cancel {s t : String} {r r' : List Char}
    (h : (quote s).toList ++ r = (quote t).toList ++ r') : s = t ∧ r = r' := by
  simp only [quote, String.toList_ofList, List.cons_append, List.append_assoc, List.nil_append,
    List.cons.injEq, true_and] at h
  obtain ⟨hst, hr⟩ := escaped_cancel h
  exact ⟨String.toList_inj.1 hst, hr⟩

theorem newline_not_mem_hexDigits (w n : Nat) : '\n' ∉ hexDigits w n := by
  have hdigit : ∀ d < 16, Nat.digitChar d ≠ '\n' := by decide
  induction w generalizing n with
  | zero => simp [hexDigits]
  | succ w ih =>
    rw [hexDigits, List.mem_append, List.mem_singleton, not_or]
    exact ⟨ih _, (hdigit _ (Nat.mod_lt n (by decide))).symm⟩

theorem newline_not_mem_escape (c : Char) : '\n' ∉ escape c := by
  unfold escape
  split
  · next h => rcases h with rfl | rfl <;> decide
  · split
    · next h =>
      rw [List.mem_singleton]
      rintro rfl
      exact absurd h (by decide)
    · split
      · next l hl =>
        have hne := (namedBy_of_controlLetter? hl).2
        simp only [List.mem_cons, not_or] at hne ⊢
        exact ⟨by decide, Ne.symm hne.2.2.2.1, by simp⟩
      · have := newline_not_mem_hexDigits
        split
        · simp [this]
        · split <;> simp [this]

theorem newline_not_mem_quote (s : String) : '\n' ∉ (quote s).toList := by
  have hescape : ∀ c ∈ s.toList, '\n' ∉ escape c := fun c _ => newline_not_mem_escape c
  simpa [quote, List.mem_flatMap] using hescape

end Text

/-! ## Words -/

open Text (isCapital isLetter isDecimalDigit quote)

/-- The marks of punctuation. -/
inductive Punctuation where
  | equals
  | period
  | bar
  | openBrace
  | closeBrace
  | openBracket
  | closeBracket
  | openParen
  | closeParen
  deriving DecidableEq

/-- The character of a mark. -/
def Punctuation.char : Punctuation → Char
  | .equals => '='
  | .period => '.'
  | .bar => '|'
  | .openBrace => '\x7b'
  | .closeBrace => '\x7d'
  | .openBracket => '['
  | .closeBracket => ']'
  | .openParen => '('
  | .closeParen => ')'

theorem Punctuation.char_injective : Function.Injective Punctuation.char := by
  intro m m' h
  cases m <;> cases m' <;> first | rfl | exact absurd h (by decide)

/-- **A word** of a line. -/
inductive Word where
  | name (n : String)
  | quoted (s : Symbol)
  | mark (p : Punctuation)
  deriving DecidableEq

namespace Word

/-- The characters of a word. -/
def text : Word → List Char
  | .name n => n.toList
  | .quoted s => (quote s).toList
  | .mark m => [m.char]

/-- Names are identifiers. -/
def Proper : Word → Prop
  | .name n => IsIdentifier n
  | _ => True

theorem not_mem_identifier {n : String} (h : IsIdentifier n) {c : Char} (hl : isLetter c = false)
    (hd : isDecimalDigit c = false) (hu : c ≠ '_') : c ∉ n.toList := by
  intro hc
  rcases h.chars c hc with hc | hc | hc
  · exact Bool.noConfusion (hl.symm.trans hc)
  · exact Bool.noConfusion (hd.symm.trans hc)
  · exact hu hc

/-- An identifier begins like no other word. -/
theorem head_of_identifier {n : String} (h : IsIdentifier n) :
    ∃ c cs, n.toList = c :: cs ∧ c ≠ '"' ∧ ∀ m : Punctuation, c ≠ m.char := by
  obtain ⟨c, cs, hn, hc⟩ := h.capital
  refine ⟨c, cs, hn, ?_, fun m => ?_⟩
  · rintro rfl
    exact absurd hc (by decide)
  · rintro rfl
    cases m <;> exact absurd hc (by decide)

theorem cancel_of_not_mem {x : Char} {xs ys r r' : List Char} (hx : x ∉ xs) (hy : x ∉ ys)
    (h : xs ++ x :: r = ys ++ x :: r') : xs = ys ∧ r = r' := by
  rcases List.append_eq_append_iff.1 h with ⟨as, rfl, has⟩ | ⟨as, rfl, has⟩
  · cases as with
    | nil => simpa using has
    | cons a as =>
      obtain ⟨rfl, -⟩ := List.cons.inj has
      exact absurd (by simp) hy
  · cases as with
    | nil => simpa [eq_comm] using has
    | cons a as =>
      obtain ⟨rfl, -⟩ := List.cons.inj has
      exact absurd (by simp) hx

/-- **A word ends where its space is.** -/
theorem text_cancel {v w : Word} (hv : v.Proper) (hw : w.Proper) {r r' : List Char}
    (h : v.text ++ ' ' :: r = w.text ++ ' ' :: r') : v = w ∧ r = r' := by
  have hspace : ∀ {n}, IsIdentifier n → ' ' ∉ n.toList :=
    fun hn => not_mem_identifier hn (by decide) (by decide) (by decide)
  have hmark : ∀ m : Punctuation, m.char ≠ '"' := fun m => by cases m <;> decide
  cases v with
  | name n =>
    obtain ⟨c, cs, hn, hquote, hmarks⟩ := head_of_identifier hv
    cases w with
    | name n' =>
      obtain ⟨hnn', hr⟩ := cancel_of_not_mem (hspace hv) (hspace hw) h
      exact ⟨congrArg name (String.toList_inj.1 hnn'), hr⟩
    | quoted s =>
      simp [text, hn, quote] at h
      exact absurd h.1 hquote
    | mark m =>
      simp [text, hn] at h
      exact absurd h.1 (hmarks m)
  | quoted s =>
    cases w with
    | name n' =>
      obtain ⟨c, cs, hn, hquote, -⟩ := head_of_identifier hw
      simp [text, hn, quote] at h
      exact absurd h.1.symm hquote
    | quoted t =>
      obtain ⟨rfl, hr⟩ := Text.quote_cancel h
      exact ⟨rfl, (List.cons.inj hr).2⟩
    | mark m =>
      simp [text, quote] at h
      exact absurd h.1.symm (hmark m)
  | mark m =>
    cases w with
    | name n' =>
      obtain ⟨c, cs, hn, -, hmarks⟩ := head_of_identifier hw
      simp [text, hn] at h
      exact absurd h.1.symm (hmarks m)
    | quoted t =>
      simp [text, quote] at h
      exact absurd h.1 (hmark m)
    | mark m' =>
      simp [text] at h
      exact ⟨congrArg mark (Punctuation.char_injective h.1), h.2⟩

theorem text_ne_nil {w : Word} (h : w.Proper) : w.text ≠ [] := by
  cases w with
  | name n =>
    obtain ⟨c, cs, hn, -⟩ := h.capital
    simp [text, hn]
  | quoted s => simp [text, quote]
  | mark m => simp [text]

theorem newline_not_mem_text {w : Word} (h : w.Proper) : '\n' ∉ w.text := by
  cases w with
  | name n => exact not_mem_identifier h (by decide) (by decide) (by decide)
  | quoted s => exact Text.newline_not_mem_quote s
  | mark m => cases m <;> decide

end Word

/-! ## Lines -/

/-- Words with a space between each two. -/
def spaced (ws : List Word) : List Char := [' '].intercalate (ws.map Word.text)

@[simp] theorem spaced_singleton (w : Word) : spaced [w] = w.text := by simp [spaced]

theorem spaced_cons (w : Word) {ws : List Word} (h : ws ≠ []) :
    spaced (w :: ws) = w.text ++ ' ' :: spaced ws := by
  obtain ⟨v, vs, rfl⟩ := List.exists_cons_of_ne_nil h
  simp [spaced, List.intercalate_cons_cons]

theorem spaced_append {vs ws : List Word} (hv : vs ≠ []) (hw : ws ≠ []) :
    spaced (vs ++ ws) = spaced vs ++ ' ' :: spaced ws := by
  induction vs with
  | nil => exact absurd rfl hv
  | cons v vs ih =>
    by_cases hvs : vs = []
    · subst hvs
      rw [List.singleton_append, spaced_cons v hw, spaced_singleton]
    · rw [List.cons_append, spaced_cons v (by simp [hvs]), ih hvs, spaced_cons v hvs,
        List.append_assoc, List.cons_append]

theorem spaced_concat {ws : List Word} (h : ws ≠ []) :
    spaced ws ++ [' '] = ws.flatMap fun w => w.text ++ [' '] := by
  induction ws with
  | nil => exact absurd rfl h
  | cons w ws ih =>
    by_cases hws : ws = []
    · subst hws
      simp [spaced]
    · rw [spaced_cons w hws, List.flatMap_cons, ← ih hws]
      simp

theorem flatMap_text_injective {vs ws : List Word} (hv : ∀ v ∈ vs, v.Proper)
    (hw : ∀ w ∈ ws, w.Proper)
    (h : (vs.flatMap fun v => v.text ++ [' ']) = ws.flatMap fun w => w.text ++ [' ']) :
    vs = ws := by
  induction vs generalizing ws with
  | nil =>
    cases ws with
    | nil => rfl
    | cons w ws => simp at h
  | cons v vs ih =>
    cases ws with
    | nil => simp at h
    | cons w ws =>
      simp only [List.flatMap_cons, List.append_assoc, List.singleton_append] at h
      obtain ⟨rfl, hrest⟩ := Word.text_cancel (hv v (by simp)) (hw w (by simp)) h
      rw [ih (fun x hx => hv x (by simp [hx])) (fun x hx => hw x (by simp [hx])) hrest]

theorem spaced_ne_nil {ws : List Word} (h : ∀ w ∈ ws, w.Proper) (hws : ws ≠ []) :
    spaced ws ≠ [] := by
  obtain ⟨w, ws, rfl⟩ := List.exists_cons_of_ne_nil hws
  have hw : w.text ≠ [] := Word.text_ne_nil (h w (by simp))
  by_cases hrest : ws = []
  · simpa [hrest] using hw
  · simp [spaced_cons w hrest]

/-- **A line reads in one way only.** -/
theorem spaced_injective {vs ws : List Word} (hv : ∀ v ∈ vs, v.Proper) (hw : ∀ w ∈ ws, w.Proper)
    (h : spaced vs = spaced ws) : vs = ws := by
  by_cases hvs : vs = []
  · by_cases hws : ws = []
    · rw [hvs, hws]
    · rw [hvs] at h
      exact absurd h.symm (spaced_ne_nil hw hws)
  · by_cases hws : ws = []
    · rw [hws] at h
      exact absurd h (spaced_ne_nil hv hvs)
    · refine flatMap_text_injective hv hw ?_
      rw [← spaced_concat hvs, ← spaced_concat hws, h]

theorem newline_not_mem_spaced {ws : List Word} (h : ∀ w ∈ ws, w.Proper) : '\n' ∉ spaced ws := by
  by_cases hws : ws = []
  · simp [hws, spaced]
  · have hmem : '\n' ∉ spaced ws ++ [' '] := by
      rw [spaced_concat hws]
      simpa [List.mem_flatMap] using fun w hw => Word.newline_not_mem_text (h w hw)
    exact fun hin => hmem (List.mem_append_left _ hin)

end PushParser
