import ObjectPascal.Settings.Basic

/-!
A place in a text of lines. Where a line is indented and where it ends has a meaning, so every step
keeps count of the line, the column and the characters passed.
-/

namespace ObjectPascal.Yaml

/-- Blanks and tabs. -/
def isBlank (c : Char) : Bool := c == ' ' || c == '\t'

/-- Characters that end a line. -/
def isBreak (c : Char) : Bool :=
  c == '\n' || c == '\r' || c == '\u0085' || c == '\u2028' || c == '\u2029'

/-- Whether a place is the end of the text. -/
def isEnd (c : Option Char) : Bool := c.isNone

/-- Whether a place is the end of a line. -/
def isLineEnd (c : Option Char) : Bool := (c.map isBreak).getD true

/-- Whether a place is a blank or the end of a line. -/
def isGap (c : Option Char) : Bool := (c.map fun c => isBlank c || isBreak c).getD true

/-- Letters, digits and the two strokes: the characters of names. -/
def isNameChar (c : Char) : Bool := c.isAlphanum || c == '_' || c == '-'

/-- A place in a text: what is left, how many characters were passed, the line and the column, and
whether only blanks were passed since the last end of a line. -/
structure Cursor where
  rest : List Char
  index : Nat := 0
  line : Nat := 0
  column : Nat := 0
  isFresh : Bool := false

namespace Cursor

/-- The character at the place. -/
def peek (c : Cursor) : Option Char := c.rest.head?

/-- The character some steps further. -/
def peekAt (c : Cursor) (n : Nat) : Option Char := c.rest[n]?

/-- Passes this many characters of one line. -/
def pass (c : Cursor) (n : Nat) : Cursor where
  rest := c.rest.drop n
  index := c.index + n
  line := c.line
  column := c.column + n
  isFresh := c.isFresh && (c.rest.take n).all isBlank

/-- Passes all characters of a class that has no ends of lines in it. -/
def span (p : Char → Bool) (c : Cursor) : List Char × Cursor :=
  let word := c.rest.takeWhile p
  (word, c.pass word.length)

/-- Goes to the next line behind an end of a line of `n` characters. -/
def nextLine (c : Cursor) (n : Nat) : Cursor where
  rest := c.rest.drop n
  index := c.index + n
  line := c.line + 1
  column := 0
  isFresh := true

/-- Passes the end of a line if there is one, and tells what it stands for in a value: a line feed,
but the two separators for themselves. -/
def takeBreak (c : Cursor) : Option Char × Cursor :=
  match c.rest with
  | '\r' :: '\n' :: _ => (some '\n', c.nextLine 2)
  | b :: _ =>
    if b == '\u2028' || b == '\u2029' then (some b, c.nextLine 1)
    else if isBreak b then (some '\n', c.nextLine 1)
    else (none, c)
  | [] => (none, c)

/-- Whether a mark of three equal characters for the begin or end of a document is here. -/
def hasMark (c : Cursor) (mark : Char) : Bool :=
  c.column = 0 && [mark, mark, mark].isPrefixOf c.rest && isGap (c.peekAt 3)

/-- Whether a document begins or ends here. -/
def isDocumentMark (c : Cursor) : Bool := c.hasMark '-' || c.hasMark '.'

end Cursor

/-- Takes characters from the place on, or refuses the text. -/
abbrev Take := StateT Cursor Option

namespace Take

/-- Refuses the text. -/
def refuse {α : Type} : Take α := fun _ => none

/-- Goes on only if a condition holds. -/
def require (b : Bool) : Take Unit := if b then pure () else refuse

/-- The next character, which is not taken. -/
def peek : Take (Option Char) := do return (← get).peek

/-- Takes this many characters of one line. -/
def skip (n : Nat) : Take Unit := modify (·.pass n)

/-- Takes all characters of a class that has no ends of lines in it. -/
def span (p : Char → Bool) : Take (List Char) := modifyGet (Cursor.span p)

/-- Takes blanks and tabs. -/
def blanks : Take Unit := do let _ ← span isBlank

/-- Takes the end of a line, if there is one. -/
def takeBreak : Take (Option Char) := modifyGet Cursor.takeBreak

/-- Takes a character, which must come next. -/
def expect (c : Char) : Take Unit := do
  require ((← peek) == some c)
  skip 1

/-- Takes the rest of a line, on which there is at most a comment, and its end. -/
def lineRest : Take Unit := do
  blanks
  if (← peek) == some '#' then
    let _ ← span (!isBreak ·)
  require (isLineEnd (← peek))
  let _ ← takeBreak

end Take
end ObjectPascal.Yaml
