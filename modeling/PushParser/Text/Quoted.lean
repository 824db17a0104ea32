import PushParser.Text.Printable

/-!
# Quoted text

**`quote`** writes a string between double quotes so that it stays on one line and shows only
printable characters.

* the double quote and the backslash follow a backslash, and so do the letters `a b f n r t v` that
  stand for the seven control characters with a name;
* another control character below the space, and DEL, is written with two hexadecimal digits;
* any other character that is not printable is written with four or eight of them;
* every other character stands for itself.
-/

namespace PushParser.Text

/-- The low `width` hexadecimal digits of `n`, in lower case, most significant first. -/
def hexDigits : (width : Nat) → (n : Nat) → List Char
  | 0, _ => []
  | w + 1, n => hexDigits w (n / 16) ++ [Nat.digitChar (n % 16)]

/-- The letter that names a control character after a backslash. -/
def controlLetter? (c : Char) : Option Char :=
  match c.toNat with
  | 0x07 => some 'a'
  | 0x08 => some 'b'
  | 0x0C => some 'f'
  | 0x0A => some 'n'
  | 0x0D => some 'r'
  | 0x09 => some 't'
  | 0x0B => some 'v'
  | _ => none

/-- A character as it stands between quotes. -/
def escape (c : Char) : List Char :=
  if c = '"' ∨ c = '\\' then ['\\', c]
  else if isPrintable c then [c]
  else match controlLetter? c with
    | some l => ['\\', l]
    | none =>
      if c.toNat < 0x20 ∨ c.toNat = 0x7F then '\\' :: 'x' :: hexDigits 2 c.toNat
      else if c.toNat < 0x10000 then '\\' :: 'u' :: hexDigits 4 c.toNat
      else '\\' :: 'U' :: hexDigits 8 c.toNat

/-- **The quoted form of a string.** -/
def quote (s : String) : String := String.ofList ('"' :: s.toList.flatMap escape ++ ['"'])

end PushParser.Text
