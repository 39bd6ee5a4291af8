import ObjectPascal.Text.Basic
import ObjectPascal.Token.Lexeme

/-!
White space around a text: the blanks, tabs and line ends of ASCII and the separators of Unicode.
-/

namespace ObjectPascal.Text

/-- Whether the character is white space. -/
def isBlankChar (c : Char) : Bool :=
  let n := c.toNat
  (9 ≤ n && n ≤ 13) || n == 0x20 || n == 0x85 || n == 0xA0 || n == 0x1680 ||
    (0x2000 ≤ n && n ≤ 0x200A) || n == 0x2028 || n == 0x2029 || n == 0x202F || n == 0x205F ||
    n == 0x3000

/-- Whether the rune is white space; a stray byte is not. -/
def isBlankRune : Rune → Bool
  | .scalar c => isBlankChar c
  | .stray _ => false

/-- The bytes of one rune. -/
def runeBytes : Rune → List UInt8
  | .scalar c => String.utf8EncodeChar c
  | .stray b => [b]

/-- The text of a sequence of runes. -/
def ofRunes (rs : List Rune) : Text := ⟨rs.flatMap runeBytes⟩

/-- The text without the white space at its two ends. -/
def trim (t : Text) : Text :=
  ofRunes ((t.runes.dropWhile isBlankRune).reverse.dropWhile isBlankRune).reverse

end ObjectPascal.Text

/-!
A cursor stands somewhere in a source and hands out its tokens one by one. Comments and assembler
blocks may run over several lines and are read here; everything else lies on one line.
-/

namespace ObjectPascal

/-- A place in a source: the line number, how many bytes of the line are read, the bytes of the line
that are not, and the lines below. `sloc` counts the lines on which code begins, and `counted` is
the last of them. -/
structure Cursor where
  line : Nat := 0
  col : Nat := 0
  here : List UInt8 := []
  below : List (List UInt8) := []
  sloc : Nat := 0
  counted : Nat := 0
deriving Inhabited

namespace Cursor

/-- The pieces between line feeds; a line feed at the very end begins no further line. -/
def splitLines (s : List UInt8) : List (List UInt8) :=
  let pieces := s.splitOn 0x0A
  if pieces.getLast? = some [] then pieces.dropLast else pieces

/-- A line without the carriage returns at its end. -/
def trimLine (l : List UInt8) : List UInt8 := (l.reverse.dropWhile (· == 0x0D)).reverse

/-- The start of a source. A byte order mark is not part of it. -/
def start (source : Text) : Cursor :=
  let bytes := source.bytes
  let bytes := if [0xEF, 0xBB, 0xBF].isPrefixOf bytes then bytes.drop 3 else bytes
  { below := (splitLines bytes).map trimLine }

/-- How many bytes and line ends lie ahead. -/
def size (c : Cursor) : Nat :=
  c.below.foldr (fun line n => line.length + 1 + n) c.here.length

/-- The place of the next byte. -/
def place (c : Cursor) : Place := ⟨c.line, c.col + 1⟩

/-- Moves over `n` bytes of the line. -/
def advance (c : Cursor) (n : Nat) : Cursor := { c with col := c.col + n, here := c.here.drop n }

/-- Counts the line as code, once. -/
def count (c : Cursor) : Cursor :=
  if c.counted = c.line then c else { c with sloc := c.sloc + 1, counted := c.line }

/-- Moves over layout and line ends, to the next byte of a token or to the end of the source. -/
def seekFrom (c : Cursor) (line col : Nat) (here : List UInt8) : List (List UInt8) → Cursor
  | [] =>
    match here.dropWhile isLayout with
    | [] => { c with line := line, col := 0, here := [], below := [] }
    | s => { c with line := line, col := col + (here.takeWhile isLayout).length, here := s,
                    below := [] }
  | next :: below =>
    match here.dropWhile isLayout with
    | [] => seekFrom c (line + 1) 0 next below
    | s => { c with line := line, col := col + (here.takeWhile isLayout).length, here := s,
                    below := next :: below }

/-- Moves to the next byte that is no layout. -/
def seek (c : Cursor) : Cursor := c.seekFrom c.line c.col c.here c.below

/-- The bytes in front of the first `pat` in `s`, in reverse in front of `acc`, and the bytes
behind it. -/
def breakOn (pat : List UInt8) : List UInt8 → List UInt8 → Option (List UInt8 × List UInt8)
  | _, [] => none
  | acc, c :: rest =>
    if pat.isPrefixOf (c :: rest) then some (acc.reverse, (c :: rest).drop pat.length)
    else breakOn pat (c :: acc) rest

/-- The bytes in front of the first word `end` of a line, in reverse in front of `acc`, with the
bytes behind that word. `inside` says that the byte before belongs to a word. -/
def breakOnEnd : Bool → List UInt8 → List UInt8 → Option (List UInt8 × List UInt8)
  | _, _, [] => none
  | inside, acc, c :: rest =>
    if isLetter c && !inside && Text.sameFold ⟨(c :: rest).takeWhile isWordByte⟩ "end" then
      some (acc.reverse, (c :: rest).dropWhile isWordByte)
    else breakOnEnd (isWordByte c) (c :: acc) rest

/-- Where a token that may run over lines ends: its text so far, the line, the bytes read of that
line, the bytes unread and the lines below. -/
structure Stretch where
  text : List UInt8
  line : Nat
  col : Nat
  here : List UInt8
  below : List (List UInt8)

/-- Reads on until `find` succeeds on a line. Line ends become single line feeds of the text.
`find` is told the line and answers with the text before the end mark and the bytes behind it. -/
def stretch (find : List UInt8 → Option (List UInt8 × List UInt8)) (line : Nat) :
    List (List UInt8) → Option Stretch
  | [] => none
  | next :: below =>
    match find next with
    | some (text, rest) => some ⟨0x0A :: text, line + 1, next.length - rest.length, rest, below⟩
    | none => (stretch find (line + 1) below).map fun s => { s with text := 0x0A :: next ++ s.text }

/-- As `stretch`, beginning in the current line behind its first `skip` bytes, where `first`
searches the end mark. -/
def stretchHere (c : Cursor) (skip : Nat)
    (first find : List UInt8 → Option (List UInt8 × List UInt8)) : Option Stretch :=
  let rest := c.here.drop skip
  match first rest with
  | some (text, after) =>
    some ⟨text, c.line, c.col + (c.here.length - after.length), after, c.below⟩
  | none => (stretch find c.line c.below).map fun s => { s with text := rest ++ s.text }

/-- The cursor behind a stretch. -/
def behind (c : Cursor) (s : Stretch) : Cursor :=
  { c with line := s.line, col := s.col, here := s.here, below := s.below }

/-- The cursor at the end of the source. -/
def atEnd (c : Cursor) : Cursor :=
  { c with line := c.line + c.below.length, col := 0, here := [], below := [] }

/-- A comment up to `close` behind an opening mark of `skip` bytes. -/
def comment (c : Cursor) (skip : Nat) (close : Text) : Token × Cursor :=
  match c.stretchHere skip (breakOn close.bytes []) (breakOn close.bytes []) with
  | some s => (⟨.comment, UInt16.ofNat s.text.length, c.place, ⟨s.text⟩⟩, c.behind s)
  | none => (⟨.invalid, 0, c.place, "non-terminated comment"⟩, c.atEnd)

/-- An assembler block up to its `end`. The block is one token, its text is trimmed, and its length
is that of the text before trimming. -/
def assembler (c : Cursor) : Token × Cursor :=
  let c := c.count
  match c.stretchHere 3 (breakOnEnd true []) (breakOnEnd false []) with
  | some s => (⟨.asm, UInt16.ofNat s.text.length, c.place, Text.trim ⟨s.text⟩⟩, c.behind s)
  | none => (⟨.invalid, 0, c.place, "non-terminated asm block"⟩, c.atEnd)

/-- A token on one line. Only valid tokens other than comments make the line count as code. -/
def take (c : Cursor) (l : Lexeme) : Token × Cursor :=
  let c := if l.kind = .invalid ∨ l.kind = .comment then c else c.count
  (⟨l.kind, UInt16.ofNat l.size, c.place, l.text⟩, c.advance l.size)

/-- The token that begins with byte `b`, where `peek` is the byte behind it. -/
def tokenAt (c : Cursor) (b peek : UInt8) : Token × Cursor :=
  if b = 0x27 ∨ b = 0x23 then c.take (Lexeme.string c.here)
  else if isLetter b then
    if Text.sameFold ⟨c.here.takeWhile isWordByte⟩ "asm" then c.assembler
    else c.take (Lexeme.word c.here)
  else if b = 0x26 ∧ isLetter peek then c.take (Lexeme.escapedWord c.here)
  else if isDigit b then c.take (Lexeme.decimal c.here)
  else if b = 0x24 ∧ isHexDigit peek then c.take (Lexeme.hexadecimal c.here)
  else if b = 0x7B then c.comment 1 "\x7d"
  else if b = 0x28 ∧ peek = 0x2A then c.comment 2 "*)"
  else if b = 0x2F ∧ peek = 0x2F then c.take ⟨.comment, c.here.length, ⟨c.here⟩⟩
  else c.take (Lexeme.mark c.here)

/-- The end token at the cursor. -/
def eof (c : Cursor) : Token := ⟨.eof, 0, c.place, ∅⟩

/-- The next token, comments included, and the cursor behind it. -/
def next (c : Cursor) : Token × Cursor :=
  let c := c.seek
  match c.here with
  | [] => (c.eof, c)
  | b :: rest => c.tokenAt b (rest.headD 0)

/-- The first of at most `fuel` tokens that is no comment. -/
def nextCodeWithin : Nat → Cursor → Token × Cursor
  | 0, c => (c.eof, c)
  | fuel + 1, c =>
    match c.next with
    | (t, c) => if t.kind = .comment then nextCodeWithin fuel c else (t, c)

/-- The next token that is no comment. No more tokens than bytes lie ahead. -/
def nextCode (c : Cursor) : Token × Cursor := nextCodeWithin (c.size + 1) c

/-- At most `fuel` tokens, each with the cursor behind it; the end token is the last. -/
def tokensWithin : Nat → Cursor → List (Token × Cursor)
  | 0, _ => []
  | fuel + 1, c =>
    match c.next with
    | (t, c) => (t, c) :: if t.kind = .eof then [] else tokensWithin fuel c

/-- All tokens ahead up to the end token, each with the cursor behind it. -/
def tokens (c : Cursor) : List (Token × Cursor) := tokensWithin (c.size + 1) c

end Cursor
end ObjectPascal
