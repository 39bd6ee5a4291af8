import ObjectPascal.Decimal.Read
import ObjectPascal.Settings.Basic
import ObjectPascal.Text.Basic

/-!
Bytes written with 64 characters. Four characters stand for three bytes, and the last four are
filled up with equals signs.
-/

namespace ObjectPascal.Text

/-- The six bits that a character stands for. -/
def sixBits? (b : UInt8) : Option Nat :=
  if 0x41 ≤ b ∧ b ≤ 0x5A then some (b.toNat - 0x41)
  else if 0x61 ≤ b ∧ b ≤ 0x7A then some (b.toNat - 0x61 + 26)
  else if 0x30 ≤ b ∧ b ≤ 0x39 then some (b.toNat - 0x30 + 52)
  else if b = 0x2B then some 62
  else if b = 0x2F then some 63
  else none

/-- The bytes that groups of four characters stand for. Only the last group may be filled up. -/
def ofGroups : List UInt8 → Option (List UInt8)
  | [] => some []
  | a :: b :: c :: d :: rest => do
    let bits := (← sixBits? a) * 64 + (← sixBits? b)
    let first := UInt8.ofNat (bits / 16)
    if c = 0x3D then
      if d = 0x3D ∧ rest.isEmpty then some [first] else none
    else
      let bits := bits * 64 + (← sixBits? c)
      let second := UInt8.ofNat (bits / 4)
      if d = 0x3D then
        if rest.isEmpty then some [first, second] else none
      else
        let third := UInt8.ofNat (bits * 64 + (← sixBits? d))
        return first :: second :: third :: (← ofGroups rest)
  | _ => none

/-- The bytes that a text stands for. Ends of lines do not count. -/
def ofBase64? (t : Text) : Option Text :=
  (ofGroups (t.bytes.filter fun b => b != 0x0A && b != 0x0D)).map Text.mk

end ObjectPascal.Text

/-!
What a scalar means. A tag says what it should be, and without one a plain scalar is what it looks
like.
-/

namespace ObjectPascal.Yaml

/-- The meaning of a scalar: nothing, a truth value, a text, or something else, which is a number or
a moment. -/
inductive Meaning where
  | absent
  | flag (isOn : Bool)
  | text (value : Text)
  | other
deriving DecidableEq

/-- Whether a text is one of these words. -/
def isWord (words : List String) (t : Text) : Bool := words.any fun w => Text.ofString w == t

/-- The words for nothing. -/
def absentWords : List String := ["", "~", "null", "Null", "NULL"]

/-- The words for a truth value. -/
def flagWords (isOn : Bool) : List String :=
  if isOn then ["true", "True", "TRUE"] else ["false", "False", "FALSE"]

/-- The words for numbers that have no digits. -/
def endlessWords : List String :=
  [".nan", ".NaN", ".NAN", ".inf", ".Inf", ".INF", "+.inf", "+.Inf", "+.INF", "-.inf", "-.Inf",
    "-.INF"]

/-- The truth value that a word stands for. -/
def flag? (t : Text) : Option Bool :=
  if isWord (flagWords true) t then some true
  else if isWord (flagWords false) t then some false
  else none

/-- The number that digits make in a base. -/
def natOf? (base : Nat) (digits : List Char) : Option Nat :=
  let values := digits.filterMap Scan.hexValue?
  if values.length = digits.length && values.all (· < base) then
    some (values.foldl (fun n d => n * base + d) 0)
  else none

/-- The number that a text without a sign is. A letter behind a zero tells the base, and a zero
alone in front means the base eight. -/
def unsigned? (cs : List Char) : Option Nat :=
  match cs with
  | [] => none
  | '0' :: mark :: c :: rest =>
    if mark == 'x' || mark == 'X' then natOf? 16 (c :: rest)
    else if mark == 'o' || mark == 'O' then natOf? 8 (c :: rest)
    else if mark == 'b' || mark == 'B' then natOf? 2 (c :: rest)
    else natOf? 8 (mark :: c :: rest)
  | '0' :: rest => natOf? 8 rest
  | cs => natOf? 10 cs

/-- Whether a text is a number of 64 bits with a sign, where `read` reads what follows the sign. -/
def isSigned (read : List Char → Option Nat) (cs : List Char) : Bool :=
  match cs with
  | '-' :: rest => (read rest).any (· ≤ Nat.pow 2 63)
  | '+' :: rest => (read rest).any (· < Nat.pow 2 63)
  | cs => (read cs).any (· < Nat.pow 2 63)

/-- Reads digits in a base, of which there is at least one. -/
def digits? (base : Nat) (cs : List Char) : Option Nat :=
  if cs.isEmpty then none else natOf? base cs

/-- Whether a text is a number of 64 bits with a sign. The sign may stand behind the letter that
tells the base, too. -/
def isShortInteger (cs : List Char) : Bool :=
  isSigned unsigned? cs ||
    match cs with
    | '0' :: 'b' :: rest => isSigned (digits? 2) rest
    | '0' :: 'o' :: rest => isSigned (digits? 8) rest
    | _ => false

/-- Whether a text is a number of 64 bits without a sign. -/
def isLongInteger (cs : List Char) : Bool := (unsigned? cs).any (· < Nat.pow 2 64)

/-- A text without its sign. -/
def withoutSign : List Char → List Char
  | '+' :: cs | '-' :: cs => cs
  | cs => cs

/-- Whether a text is digits with perhaps a fraction and an exponent, and not too large. -/
def isReal (cs : List Char) : Bool :=
  let body := withoutSign cs
  let whole := body.takeWhile Char.isDigit
  let rest := body.drop whole.length
  let fraction := if rest.head? == some '.' then (rest.drop 1).takeWhile Char.isDigit else []
  let rest := if rest.head? == some '.' then rest.drop (fraction.length + 1) else rest
  let exponent := match rest with
    | 'e' :: power | 'E' :: power =>
      !(withoutSign power).isEmpty && (withoutSign power).all Char.isDigit
    | rest => rest.isEmpty
  (!whole.isEmpty || !fraction.isEmpty) && exponent &&
    (Decimal.float? (Text.ofChars body)).isSome

/-- Whether every underscore stands between digits. -/
def joinsDigits (cs : List Char) : Bool :=
  let parts := cs.splitOn '_'
  parts.dropLast.all (fun p => p.getLast?.any Char.isDigit) &&
    parts.tail.all (fun p => p.head?.any Char.isDigit)

/-- Whether a scalar looks like a number in its first character. -/
def looksNumeric (cs : List Char) : Bool := cs.head?.any fun c => c.isDigit || c == '+' || c == '-'

/-- A text without its underscores. -/
def withoutJoints (cs : List Char) : List Char := cs.filter (· != '_')

/-- Whether a scalar is a whole number. -/
def readsInteger (cs : List Char) : Bool :=
  looksNumeric cs && (isShortInteger (withoutJoints cs) || isLongInteger (withoutJoints cs))

/-- Whether a scalar is a number and can be taken for one with a fraction. -/
def readsReal (cs : List Char) : Bool :=
  isWord endlessWords (Text.ofChars cs) ||
    (looksNumeric cs &&
      (isShortInteger (withoutJoints cs) ||
        (!isLongInteger (withoutJoints cs) && isReal (withoutJoints cs)))) ||
    (cs.head? == some '.' && joinsDigits cs && isReal (withoutJoints cs))

/-- Whether a scalar is a day, or a day with a time. -/
def readsMoment (cs : List Char) : Bool :=
  let zoned (letter : String) : Scan Unit := do
    Moment.day false
    Scan.expect letter
    Moment.time false
    Moment.zone
  let spaced : Scan Unit := do
    Moment.day false
    Scan.expect " "
    let _ ← Scan.span (· == ' ')
    Moment.time false
  [zoned "T", zoned "t", spaced, Moment.day false].any (Moment.isWhole · cs)

/-- The meaning of a scalar that has a tag. None if the scalar does not fit the tag; other tags than
the common ones fit all texts. -/
def taggedMeaning (tag text : Text) : Option Meaning :=
  let cs := text.chars
  let given (b : Bool) (m : Meaning) : Option Meaning := if b then some m else none
  if tag == "!!null" then given (isWord absentWords text) .absent
  else if tag == "!!bool" then (flag? text).map .flag
  else if tag == "!!int" then given (readsInteger cs) .other
  else if tag == "!!float" then given (readsReal cs) .other
  else if tag == "!!timestamp" then given (readsMoment cs) .other
  else if tag == "!!binary" then text.ofBase64?.map .text
  else some (.text text)

/-- The meaning of a scalar. Without a tag numbers and moments are left as texts. -/
def meaning? (tag : Option Text) (text : Text) (isPlain : Bool) : Option Meaning :=
  match tag with
  | some tag => taggedMeaning tag text
  | none =>
    if !isPlain then some (.text text)
    else if isWord absentWords text then some .absent
    else some (((flag? text).map .flag).getD (.text text))

end ObjectPascal.Yaml
