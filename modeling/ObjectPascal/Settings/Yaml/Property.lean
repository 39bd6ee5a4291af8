import ObjectPascal.Settings.Yaml.Cursor
import ObjectPascal.Text.Basic

/-!
What the text of a document is made of: marks, names, tags and scalars, and where indentation begins
and ends collections.
-/

namespace ObjectPascal.Yaml

/-- A part of a document. The starts and the end of blocks come from indentation, and a key may be
noticed only by the colon behind it. -/
inductive Token where
  | streamEnd
  | version (major minor : Nat)
  | tagHandle (handle stem : Text)
  | documentStart
  | documentEnd
  | sequenceStart
  | mappingStart
  | blockEnd
  | listOpen
  | listClose
  | tableOpen
  | tableClose
  | dash
  | comma
  | key
  | value
  | reference (name : Text)
  | anchor (name : Text)
  | tag (handle suffix : Text)
  | scalar (text : Text) (isPlain : Bool)
deriving DecidableEq

end ObjectPascal.Yaml

/-!
What is said about a value beside the value: names for it, its tag, and the directives in front of a
document.
-/

namespace ObjectPascal.Yaml

open Take

/-- Takes the mark of a name and the name behind it. A gap or a mark must follow. -/
def name : Take Text := do
  skip 1
  let cs ← span isNameChar
  let next ← peek
  require (!cs.isEmpty && (isGap next || next.any fun c => "?:,]\x7d%@\x60".toList.contains c))
  return Text.ofChars cs

/-- Characters of the text of a tag. A percent sign begins an escaped byte. -/
def isTagChar (c : Char) : Bool := isNameChar c || ";/?:@&=+$,.!~*'()[]%".toList.contains c

/-- Takes an escaped byte. -/
def escapedByte : Take UInt8 := do
  let digits := (((← get).rest.drop 1).take 2).filterMap Scan.hexValue?
  require ((← peek) == some '%' && digits.length = 2)
  skip 3
  return UInt8.ofNat (digits.foldl (fun v d => v * 16 + d) 0)

/-- How many bytes follow the first byte of a character. -/
def followers? (b : UInt8) : Option Nat :=
  if b < 0x80 then some 0
  else if 0xC0 ≤ b ∧ b < 0xE0 then some 1
  else if 0xE0 ≤ b ∧ b < 0xF0 then some 2
  else if 0xF0 ≤ b ∧ b < 0xF8 then some 3
  else none

/-- Takes `n` escaped bytes that are not the first of a character. -/
def furtherBytes : Nat → Take (List UInt8)
  | 0 => return []
  | n + 1 => do
    let b ← escapedByte
    require (0x80 ≤ b && b < 0xC0)
    return b :: (← furtherBytes n)

/-- Takes an escaped character. -/
def escapedBytes : Take (List UInt8) := do
  let b ← escapedByte
  match followers? b with
  | some n => return b :: (← furtherBytes n)
  | none => refuse

/-- Takes the text of a tag onto what is already read of it. -/
def tagRest : Nat → List UInt8 → Take (List UInt8)
  | 0, done => return done
  | n + 1, done => do
    match ← peek with
    | some '%' => tagRest n (done ++ (← escapedBytes))
    | some c =>
      if isTagChar c then
        skip 1
        tagRest n (done ++ String.utf8EncodeChar c)
      else return done
    | none => return done

/-- Takes the text of a tag. -/
def tagText : Take Text := do
  let bytes ← tagRest ((← get).rest.length + 1) []
  return ⟨bytes⟩

/-- Takes the text of a tag, which is not empty. -/
def tagTextSome : Take Text := do
  let t ← tagText
  require !t.isEmpty
  return t

/-- Takes what may be a handle: exclamation marks around letters, of which the second may be
missing. -/
def handle : Take (List Char) := do
  expect '!'
  let cs ← span isNameChar
  if (← peek) == some '!' then
    skip 1
    return '!' :: cs ++ ['!']
  else return '!' :: cs

/-- Takes a tag. Between angle brackets it is written out, and otherwise a handle stands for its
begin; without a second mark the handle is the mark alone. -/
def tag : Take Token := do
  let t ←
    if (← get).peekAt 1 == some '<' then do
      skip 2
      let suffix ← tagTextSome
      expect '>'
      pure (Token.tag ∅ suffix)
    else do
      let h ← handle
      if 1 < h.length && h.getLast? == some '!' then
        pure (Token.tag (Text.ofChars h) (← tagTextSome))
      else
        let suffix := Text.ofChars (h.drop 1) ++ (← tagText)
        pure (if suffix.isEmpty then Token.tag ∅ "!" else Token.tag "!" suffix)
  require (isGap (← peek))
  return t

/-- Takes a number of one or two digits. -/
def shortNumber : Take Nat := do
  let digits ← span Char.isDigit
  require (0 < digits.length && digits.length ≤ 2)
  return digits.foldl (fun v c => v * 10 + (c.toNat - 48)) 0

/-- Takes a directive: the version of the format, or the begin of tags that a handle stands for. -/
def directive : Take Token := do
  skip 1
  let word := String.ofList (← span isNameChar)
  require (isGap (← peek))
  let t ←
    if word == "YAML" then do
      blanks
      let major ← shortNumber
      expect '.'
      pure (Token.version major (← shortNumber))
    else if word == "TAG" then do
      blanks
      let h ← handle
      require (h.length = 1 || h.getLast? == some '!')
      require ((← peek).any isBlank)
      blanks
      let stem ← tagTextSome
      require (isGap (← peek))
      pure (Token.tagHandle (Text.ofChars h) stem)
    else refuse
  lineRest
  return t

end ObjectPascal.Yaml
