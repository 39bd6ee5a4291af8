import ObjectPascal.Text.Basic
import ObjectPascal.Text.CaseTable

/-!
Names are compared without regard to case. `lower` gives the key under which a name is filed,
`sameFold` compares two spellings letter by letter, and `capitals` is the spelling under which
reserved words are looked up. On ASCII all three agree.
-/

namespace ObjectPascal.Text

/-- The small form of an ASCII capital; every other byte is kept. -/
def asciiLower (b : UInt8) : UInt8 := if 0x41 ≤ b ∧ b ≤ 0x5A then b + 32 else b

/-- The capital form of an ASCII small letter; every other byte is kept. -/
def asciiUpper (b : UInt8) : UInt8 := if 0x61 ≤ b ∧ b ≤ 0x7A then b - 32 else b

/-- The small form of a character. -/
def lowerChar (c : Char) : Char :=
  if c.toNat < 0x80 then c.toLower else Char.ofNat (CaseRun.apply lowerRuns c.toNat)

/-- The representative of all characters that differ from `c` in case only. -/
def foldChar (c : Char) : Char :=
  if c.toNat < 0x80 then c.toLower else Char.ofNat (CaseRun.apply foldRuns c.toNat)

/-- The capital of a character as far as it is an ASCII letter: besides the small ASCII letters
only the dotless i and the long s have such a capital. -/
def capitalChar (c : Char) : Char :=
  if c.toNat = 0x131 then 'I' else if c.toNat = 0x17F then 'S' else c.toUpper

/-- The text in small letters. Outside ASCII every stray byte becomes the replacement character,
so two names that differ in stray bytes only have one lower form. -/
def lower (t : Text) : Text :=
  if t.isAscii then ⟨t.bytes.map asciiLower⟩ else ofChars (t.chars.map lowerChar)

/-- Whether the texts are equal character by character up to case. -/
def sameFold (a b : Text) : Bool :=
  if a.isAscii && b.isAscii then
    a.bytes.map asciiLower == b.bytes.map asciiLower
  else a.chars.map foldChar == b.chars.map foldChar

/-- The spelling in capitals, as far as the capitals are ASCII letters. -/
def capitals (t : Text) : Text :=
  if t.isAscii then ⟨t.bytes.map asciiUpper⟩ else ofChars (t.chars.map capitalChar)

end ObjectPascal.Text
