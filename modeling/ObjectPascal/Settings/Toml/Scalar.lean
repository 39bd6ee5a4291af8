import ObjectPascal.Decimal.Read
import ObjectPascal.Settings.Basic
import ObjectPascal.Settings.Toml.Draft

/-!
Strings, keys, and values that are written as they are: truth values, numbers and moments.
-/

namespace ObjectPascal.Toml

open Scan

/-- Characters that end a line. -/
def isLineEnd (c : Char) : Bool := c == '\n' || c == '\r'

/-- Blanks, tabs and ends of lines. -/
def isSpace (c : Char) : Bool := c == ' ' || c == '\t' || isLineEnd c

/-- Characters of a key without quotation marks. -/
def isBare (c : Char) : Bool := c.isAlphanum || c == '_' || c == '-'

/-- Takes what follows a backslash. -/
def escaped : Scan Char := do
  match ← one with
  | 'b' => return '\x08'
  | 't' => return '\t'
  | 'n' => return '\n'
  | 'f' => return '\x0c'
  | 'r' => return '\r'
  | '"' => return '"'
  | '\\' => return '\\'
  | 'u' => hexChar 4
  | 'U' => hexChar 8
  | _ => refuse

/-- Takes a string on one line up to its closing mark, of at most `n` characters. Backslashes count
only where the mark is a double one. -/
def stringRest (mark : Char) : Nat → List Char → Scan Text
  | 0, _ => refuse
  | n + 1, done => do
    let c ← one
    if c == mark then return Text.ofChars done.reverse
    else if c == '\\' && mark == '"' then stringRest mark n ((← escaped) :: done)
    else if isLineEnd c then refuse
    else stringRest mark n (c :: done)

/-- Takes a string of several lines up to its three closing marks. In front of them two more marks
may belong to the string, and three behind an escaped backslash. A backslash at the end of a line
takes all white space that follows. -/
def longStringRest (mark : Char) : Nat → Bool → List Char → Scan Text
  | 0, _, _ => refuse
  | n + 1, isBehindSlash, done => do
    if ← accept (String.ofList [mark, mark, mark]) then
      let more ← span (· == mark)
      require (more.length ≤ if isBehindSlash then 3 else 2)
      return Text.ofChars (done.reverse ++ more)
    let c ← one
    if c == '\\' && mark == '"' then
      let space := (← get).takeWhile isSpace
      if space.contains '\n' then
        let _ ← span isSpace
        longStringRest mark n false done
      else
        let isSlash := (← peek) == some '\\'
        longStringRest mark n isSlash ((← escaped) :: done)
    else longStringRest mark n false (c :: done)

/-- Takes a string on one line. -/
def shortString (mark : Char) : Scan Text := do
  expect mark.toString
  stringRest mark ((← get).length + 1) []

/-- Takes a string. The first end of line behind three opening marks does not count. -/
def string (mark : Char) : Scan Text := do
  if ← accept (String.ofList [mark, mark, mark]) then
    let _ ← accept "\r"
    let _ ← accept "\n"
    longStringRest mark ((← get).length + 1) false []
  else shortString mark

/-- Whether a text is made of digits of a class, with single underscores between them. -/
def isRun (digit : Char → Bool) (cs : List Char) : Bool :=
  (cs.splitOn '_').all fun part => !part.isEmpty && part.all digit

/-- Digits without a superfluous zero in front. -/
def isWhole (cs : List Char) : Bool :=
  isRun Char.isDigit cs && (cs.head? != some '0' || cs.length = 1)

/-- A text without its sign. -/
def unsigned : List Char → List Char
  | '+' :: cs | '-' :: cs => cs
  | cs => cs

/-- Whether a text is a number with a base of its own that fits into 63 bits. -/
def isBased (base : Nat) (cs : List Char) : Bool :=
  let values := cs.filterMap hexValue?
  isRun (fun c => ((hexValue? c).map (decide <| · < base)).getD false) cs &&
    values.foldl (fun n d => n * base + d) 0 < Nat.pow 2 63

/-- Whether a text is an integer of 64 bits. -/
def isInteger (cs : List Char) : Bool :=
  match cs with
  | '0' :: 'x' :: cs => isBased 16 cs
  | '0' :: 'o' :: cs => isBased 8 cs
  | '0' :: 'b' :: cs => isBased 2 cs
  | _ =>
    let size := ((unsigned cs).filterMap hexValue?).foldl (fun n d => n * 10 + d) 0
    isWhole (unsigned cs) && size < Nat.pow 2 63 + (if cs.head? == some '-' then 1 else 0)

/-- Whether a text is a number with a fraction, an exponent or both that is not too large. -/
def isReal (cs : List Char) : Bool :=
  let cs := unsigned cs
  if cs == "inf".toList || cs == "nan".toList then true
  else
    let mantissa := cs.takeWhile fun c => c != 'e' && c != 'E'
    let exponent := cs.drop mantissa.length
    let whole := mantissa.takeWhile (· != '.')
    let fraction := mantissa.drop whole.length
    isWhole whole && (!fraction.isEmpty || !exponent.isEmpty) &&
      (fraction.isEmpty || isRun Char.isDigit (fraction.drop 1)) &&
      (exponent.isEmpty || isRun Char.isDigit (unsigned (exponent.drop 1))) &&
      (Decimal.float? (Text.ofChars (cs.filter (· != '_')))).isSome

/-- Whether a text is a day. -/
def isDay (cs : List Char) : Bool := Moment.isWhole (Moment.day true) cs

/-- Whether a text is a day, a time, or both with perhaps the distance to universal time. Letters
may be small, and a blank may divide a day from a time. -/
def isMoment (cs : List Char) : Bool :=
  let upper (c : Char) : Char :=
    if c == 't' || c == ' ' then 'T' else if c == 'z' then 'Z' else c
  let both : Scan Unit := do
    Moment.day true
    expect "T"
    Moment.time true
  let zoned : Scan Unit := do
    both
    Moment.zone
  [zoned, both, Moment.day true, Moment.time true].any (Moment.isWhole · (cs.map upper))

/-- The value that a word is. -/
def wordValue? (word : List Char) : Option Value :=
  if word == "true".toList then some (.flag true)
  else if word == "false".toList then some (.flag false)
  else if isInteger word || isReal word || isMoment word then some .other
  else none

/-- Takes a value that is written as it is. A blank may divide a day from a time. -/
def word : Scan Value := do
  let inside (c : Char) : Bool := !(isSpace c || ",]\x7d#".toList.contains c)
  let first ← span inside
  let rest ← get
  let all ←
    if isDay first && rest.head? == some ' ' && ((rest[1]?).map Char.isDigit).getD false then do
      let _ ← one
      pure (first ++ [' '] ++ (← span inside))
    else pure first
  match wordValue? all with
  | some v => return v
  | none => refuse

/-- Takes one part of a key. -/
def keyPart : Scan Text := do
  match ← peek with
  | some '"' => shortString '"'
  | some '\'' => shortString '\''
  | _ =>
    let word ← span isBare
    require !word.isEmpty
    return Text.ofChars word

/-- Takes the parts of a key, which are at most `n` and one. -/
def keyParts : Nat → Scan (List Text)
  | 0 => return [← keyPart]
  | n + 1 => do
    let part ← keyPart
    blanks
    if ← accept "." then
      blanks
      return part :: (← keyParts n)
    else return [part]

/-- Takes a key. -/
def key : Scan (List Text) := do keyParts (← get).length

/-- Takes a comment up to the end of its line, if there is one. -/
def comment : Scan Unit := do
  if ← accept "#" then
    let _ ← span (!isLineEnd ·)

/-- Takes white space and comments, at most `n` lines of them. -/
def gaps : Nat → Scan Unit
  | 0 => pure ()
  | n + 1 => do
    let _ ← span isSpace
    if (← peek) == some '#' then
      comment
      gaps n

/-- Takes the rest of a line, on which nothing but a comment may follow. -/
def lineRest : Scan Unit := do
  blanks
  comment
  require ((← peek).all isLineEnd)

end ObjectPascal.Toml
