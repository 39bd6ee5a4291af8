/-!
Source text is a sequence of bytes that need not be valid UTF-8. `Text.runes` reads it as scalar
values and keeps each byte that belongs to none, so nothing is lost on the way.
-/

namespace ObjectPascal

/-- A sequence of bytes, most often the UTF-8 form of a string. -/
structure Text where
  bytes : List UInt8
deriving DecidableEq, Hashable, Inhabited, Repr

/-- What stands at one place of a text: a scalar value, or a byte that belongs to none. -/
inductive Rune where
  | scalar (c : Char)
  | stray (b : UInt8)
deriving DecidableEq, Repr

namespace Text

/-- The UTF-8 form of a string. -/
def ofString (s : String) : Text := ⟨s.toByteArray.data.toList⟩

instance : Coe String Text := ⟨ofString⟩

instance : Append Text := ⟨fun a b => ⟨a.bytes ++ b.bytes⟩⟩

/-- The text without bytes. -/
def empty : Text := ⟨[]⟩

instance : EmptyCollection Text := ⟨empty⟩

/-- The number of bytes. -/
def length (t : Text) : Nat := t.bytes.length

/-- Whether there are no bytes at all. -/
def isEmpty (t : Text) : Bool := t.bytes.isEmpty

@[simp]
theorem bytes_append (a b : Text) : (a ++ b).bytes = a.bytes ++ b.bytes := rfl

@[simp]
theorem bytes_empty : (∅ : Text).bytes = [] := rfl

/-- All pieces in order, one after the other. -/
def concat (ts : List Text) : Text := ⟨ts.flatMap bytes⟩

/-- The pieces in order with `sep` between neighbours. -/
def join (sep : Text) : List Text → Text
  | [] => ∅
  | [t] => t
  | t :: ts => t ++ sep ++ join sep ts

/-- A natural number in decimal digits. -/
def ofNat (n : Nat) : Text := ofString (toString n)

/-- An integer in decimal digits, with a minus sign if it is negative. -/
def ofInt (n : Int) : Text := ofString (toString n)

/-- Texts are ordered by their first differing byte, and a beginning comes before its extensions. -/
def le (a b : Text) : Bool := go a.bytes b.bytes
where
  go : List UInt8 → List UInt8 → Bool
    | [], _ => true
    | _ :: _, [] => false
    | x :: xs, y :: ys => if x < y then true else if y < x then false else go xs ys

/-- Whether `t` begins with `p`. -/
def startsWith (t p : Text) : Bool := p.bytes.isPrefixOf t.bytes

/-- Whether `t` ends with `p`. -/
def endsWith (t p : Text) : Bool := p.bytes.isSuffixOf t.bytes

/-- Whether every byte is below 128. -/
def isAscii (t : Text) : Bool := t.bytes.all (· < 0x80)

/-- The least and greatest second byte allowed after a first byte, and how many bytes follow the
first. The bounds exclude overlong forms, surrogates and values above 10FFFF. -/
def lead (a : UInt8) : Option (UInt8 × UInt8 × Nat) :=
  if 0xC2 ≤ a ∧ a ≤ 0xDF then some (0x80, 0xBF, 1)
  else if a = 0xE0 then some (0xA0, 0xBF, 2)
  else if a = 0xED then some (0x80, 0x9F, 2)
  else if 0xE1 ≤ a ∧ a ≤ 0xEF then some (0x80, 0xBF, 2)
  else if a = 0xF0 then some (0x90, 0xBF, 3)
  else if a = 0xF4 then some (0x80, 0x8F, 3)
  else if 0xF1 ≤ a ∧ a ≤ 0xF3 then some (0x80, 0xBF, 3)
  else none

/-- The payload of the first `n` bytes of `rest`, if all are continuation bytes. -/
def continuation : Nat → Nat → List UInt8 → Option Nat
  | 0, acc, _ => some acc
  | _ + 1, _, [] => none
  | n + 1, acc, b :: rest =>
    if 0x80 ≤ b ∧ b ≤ 0xBF then continuation n (acc * 64 + (b.toNat - 0x80)) rest else none

/-- The rune that begins with byte `a` in front of `rest`, and how many bytes of `rest` it takes. -/
def runeAt (a : UInt8) (rest : List UInt8) : Rune × Nat :=
  if a < 0x80 then (.scalar (Char.ofNat a.toNat), 0)
  else
    match lead a, rest with
    | some (low, high, n), b :: _ =>
      if low ≤ b ∧ b ≤ high then
        match continuation n (a.toNat % Nat.pow 2 (6 - n)) rest with
        | some v => (.scalar (Char.ofNat v), n)
        | none => (.stray a, 0)
      else (.stray a, 0)
    | _, _ => (.stray a, 0)

/-- The runes of a byte sequence of which the first `skip` bytes are already accounted for. -/
def runesFrom : Nat → List UInt8 → List Rune
  | _, [] => []
  | skip + 1, _ :: rest => runesFrom skip rest
  | 0, a :: rest => (runeAt a rest).1 :: runesFrom (runeAt a rest).2 rest

/-- The text as scalar values and stray bytes. -/
def runes (t : Text) : List Rune := runesFrom 0 t.bytes

/-- The UTF-8 form of a sequence of scalar values. -/
def ofChars (cs : List Char) : Text := ⟨cs.flatMap String.utf8EncodeChar⟩

/-- The character that stands for bytes which are no UTF-8. -/
def replacement : Char := Char.ofNat 0xFFFD

/-- Every stray byte is read as the replacement character. -/
def chars (t : Text) : List Char :=
  t.runes.map fun
    | .scalar c => c
    | .stray _ => replacement

/-- The scalar value with code `n`; codes that are no scalar value give the replacement
character. -/
def charOfCode (n : Nat) : Char :=
  if 0xD800 ≤ n ∧ n ≤ 0xDFFF ∨ 0x10FFFF < n then replacement else Char.ofNat n

/-- Whether the text is valid UTF-8. -/
def isUtf8 (t : Text) : Bool :=
  t.runes.all fun
    | .scalar _ => true
    | .stray _ => false

/-- The string that the text is the UTF-8 form of; stray bytes become replacement characters. -/
def toString (t : Text) : String := String.ofList t.chars

end Text
end ObjectPascal
