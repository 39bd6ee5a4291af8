import ObjectPascal.Token.Basic

/-!
The tokens that lie on one line. Each reader is given the unread bytes of the line and answers
with the kind, the number of bytes that the token covers and its text.
-/

namespace ObjectPascal

/-- A letter of a name: an ASCII letter, the low line, or any byte outside ASCII. -/
def isLetter (b : UInt8) : Bool :=
  (0x61 ≤ b && b ≤ 0x7A) || (0x41 ≤ b && b ≤ 0x5A) || b == 0x5F || 0x80 ≤ b

/-- A decimal digit. -/
def isDigit (b : UInt8) : Bool := 0x30 ≤ b && b ≤ 0x39

/-- A byte that continues a name. -/
def isWordByte (b : UInt8) : Bool := isLetter b || isDigit b

/-- A hexadecimal digit in either case. -/
def isHexDigit (b : UInt8) : Bool :=
  isDigit b || (0x41 ≤ b && b ≤ 0x46) || (0x61 ≤ b && b ≤ 0x66)

/-- A byte that only separates tokens. -/
def isLayout (b : UInt8) : Bool :=
  b == 0x20 || b == 0x09 || b == 0x0A || b == 0x0D || b == 0x0C

/-- The value of a digit in any base up to sixteen. -/
def digitValue (b : UInt8) : Nat :=
  if isDigit b then b.toNat - 0x30 else if 0x61 ≤ b then b.toNat - 0x57 else b.toNat - 0x37

/-- The number that the digits denote in the given base. -/
def numberOf (base : Nat) (digits : List UInt8) : Nat :=
  digits.foldl (fun n d => n * base + digitValue d) 0

/-- A token on one line before it has a place. -/
structure Lexeme where
  kind : Kind
  size : Nat
  text : Text

namespace Lexeme

/-- Punctuation marks, a longer one before each of its beginnings. -/
def marks : List (String × Kind) :=
  [("<>", .notEqual), ("<=", .lessEqual), (">=", .greaterEqual), ("(.", .leftBracket),
    ("..", .dotDot), (".)", .rightBracket), (":=", .assign), ("+", .plus), ("-", .minus),
    ("*", .star), ("/", .slash), ("=", .equal), ("<", .less), (">", .greater),
    ("(", .leftParen), (")", .rightParen), ("[", .leftBracket), ("]", .rightBracket),
    (".", .dot), (",", .comma), (";", .semicolon), (":", .colon), ("^", .caret), ("@", .atSign)]

/-- The longest punctuation mark at the head of `s`; any other byte is invalid. -/
def mark (s : List UInt8) : Lexeme :=
  match marks.find? fun (m, _) => (Text.ofString m).bytes.isPrefixOf s with
  | some (m, k) => ⟨k, (Text.ofString m).length, ∅⟩
  | none =>
    let b := s.headD 0
    ⟨.invalid, 1, "unexpected character '" ++ ⟨[b]⟩ ++ "' (" ++ Text.ofNat b.toNat ++ ")"⟩

/-- A name, which may be a reserved word or a directive. -/
def word (s : List UInt8) : Lexeme :=
  let w : Text := ⟨s.takeWhile isWordByte⟩
  ⟨Kind.ofWord w, w.length, w⟩

/-- A name behind an ampersand, which is an identifier whatever it spells. -/
def escapedWord (s : List UInt8) : Lexeme :=
  let w : Text := ⟨(s.drop 1).takeWhile isWordByte⟩
  ⟨.ident, w.length + 1, w⟩

/-- The fraction at the head of `s`: a point with at least one digit behind it. -/
def fraction (s : List UInt8) : List UInt8 :=
  match s with
  | p :: d :: r => if p == 0x2E && isDigit d then p :: (d :: r).takeWhile isDigit else []
  | _ => []

/-- The exponent mark and sign at the head of `s`. -/
def exponentMark (s : List UInt8) : List UInt8 :=
  match s with
  | e :: r =>
    if e == 0x65 || e == 0x45 then
      match r with
      | g :: _ => if g == 0x2B || g == 0x2D then [e, g] else [e]
      | [] => [e]
    else []
  | [] => []

/-- An integer or real number in decimal digits. Neither an exponent without digits nor a letter
directly behind the number is accepted. -/
def decimal (s : List UInt8) : Lexeme :=
  let whole := s.takeWhile isDigit
  let rest := s.dropWhile isDigit
  let part := fraction rest
  let rest := rest.drop part.length
  let mark := exponentMark rest
  let rest := rest.drop mark.length
  let exponent := if mark.isEmpty then [] else rest.takeWhile isDigit
  let rest := rest.drop exponent.length
  let written := whole ++ part ++ mark ++ exponent
  if !mark.isEmpty && exponent.isEmpty then ⟨.invalid, written.length, "invalid real number"⟩
  else if rest.head?.any isLetter then ⟨.invalid, written.length + 1, "invalid number literal"⟩
  else ⟨if part.isEmpty && mark.isEmpty then .integer else .real, written.length, ⟨written⟩⟩

/-- A dollar sign with hexadecimal digits. -/
def hexadecimal (s : List UInt8) : Lexeme :=
  let written := s.take 1 ++ (s.drop 1).takeWhile isHexDigit
  ⟨.integer, written.length, ⟨written⟩⟩

/-- The text up to the closing quote, in reverse in front of `acc`, and what follows the quote. A
doubled quote stands for one quote. There is no result if the line ends first. -/
def quotedPart : List UInt8 → List UInt8 → Option (List UInt8 × List UInt8)
  | _, [] => none
  | acc, [c] => if c = 0x27 then some (acc, []) else none
  | acc, c :: d :: rest =>
    if c = 0x27 then
      if d = 0x27 then quotedPart (0x27 :: acc) rest else some (acc, d :: rest)
    else quotedPart (c :: acc) (d :: rest)

/-- The digits of a character code behind its number sign, their base, and how many bytes they take
with a dollar sign in front. -/
def codeDigits (s : List UInt8) : Nat × List UInt8 × Nat :=
  if s.head? = some 0x24 then
    let digits := (s.drop 1).takeWhile isHexDigit
    (16, digits, digits.length + 1)
  else
    let digits := s.takeWhile isDigit
    (10, digits, digits.length)

/-- Why a string literal is refused. -/
inductive StringFault where
  | unclosed
  | badCode
deriving DecidableEq

/-- What a string literal at the head of a line comes to: its text in reverse or a fault, with the
bytes that follow. Quoted parts and character codes join without a gap. -/
def stringParts (acc : List UInt8) (s : List UInt8) (fuel : Nat) :
    Except StringFault (List UInt8) × List UInt8 :=
  match fuel, s with
  | 0, _ | _, [] => (.ok acc, s)
  | fuel + 1, c :: rest =>
    if c = 0x27 then
      match quotedPart acc rest with
      | some (acc, rest) => stringParts acc rest fuel
      | none => (.error .unclosed, [])
    else if c = 0x23 then
      let (base, digits, size) := codeDigits rest
      let rest := rest.drop size
      let code := numberOf base digits
      if digits.isEmpty || 0x10FFFF < code then (.error .badCode, rest)
      else stringParts ((String.utf8EncodeChar (Text.charOfCode code)).reverse ++ acc) rest fuel
    else (.ok acc, s)

/-- A string literal: quoted parts and character codes without a gap. -/
def string (s : List UInt8) : Lexeme :=
  match stringParts [] s s.length with
  | (.ok text, rest) => ⟨.string, s.length - rest.length, ⟨text.reverse⟩⟩
  | (.error .unclosed, rest) => ⟨.invalid, s.length - rest.length, "non-terminated string"⟩
  | (.error .badCode, rest) => ⟨.invalid, s.length - rest.length, "invalid character code"⟩

end Lexeme
end ObjectPascal
