import ObjectPascal.Text.Basic
import ObjectPascal.Text.Graphic

/-!
A text between double quotes on one line: graphic characters stand for themselves, all else is
written as an escape that names the character or the byte.
-/

namespace ObjectPascal.Text

/-- The digit of value `n` in lower-case hexadecimal. -/
def hexDigit (n : Nat) : Char := if n < 10 then Char.ofNat (48 + n) else Char.ofNat (87 + n)

/-- The last `width` hexadecimal digits of `n`. -/
def hexDigits : Nat → Nat → List Char
  | 0, _ => []
  | width + 1, n => hexDigits width (n / 16) ++ [hexDigit (n % 16)]

/-- How one rune stands between double quotes. -/
def quoteRune : Rune → List Char
  | .stray b => ['\\', 'x'] ++ hexDigits 2 b.toNat
  | .scalar c =>
    if c = '"' then ['\\', '"']
    else if c = '\\' then ['\\', '\\']
    else if isGraphic c then [c]
    else if c.toNat = 7 then ['\\', 'a']
    else if c.toNat = 8 then ['\\', 'b']
    else if c.toNat = 12 then ['\\', 'f']
    else if c.toNat = 10 then ['\\', 'n']
    else if c.toNat = 13 then ['\\', 'r']
    else if c.toNat = 9 then ['\\', 't']
    else if c.toNat = 11 then ['\\', 'v']
    else if c.toNat < 0x20 || c.toNat == 0x7F then ['\\', 'x'] ++ hexDigits 2 c.toNat
    else if c.toNat < 0x10000 then ['\\', 'u'] ++ hexDigits 4 c.toNat
    else ['\\', 'U'] ++ hexDigits 8 c.toNat

/-- The text between double quotes, with escapes. -/
def quoted (t : Text) : Text :=
  ofChars (['"'] ++ t.runes.flatMap quoteRune ++ ['"'])

end ObjectPascal.Text
