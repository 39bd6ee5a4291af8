import ObjectPascal.Settings.Yaml.Property
import ObjectPascal.Settings.Yaml.Scalar

/-!
The tokens of a text, taken one after the other. A scalar or a collection in brackets may turn out
to be a key when the colon behind it is met, so tokens wait in a queue until that is decided.
-/

namespace ObjectPascal.Yaml

/-- What may turn out to be a key: the number of its first token, where it begins, whether nothing
but a key can stand there, and whether it may still be one. -/
structure Candidate where
  isPossible : Bool := false
  isRequired : Bool := false
  token : Nat := 0
  index : Nat := 0
  line : Nat := 0
  column : Nat := 0

/-- A text of which tokens are taken. `queue` holds those that are read but not taken, and `taken`
is the number of those that are. `candidates` has one entry for each pair of brackets that is open
and one for the text around them, the innermost first. `awaited` says which tokens may be preceded
by a key mark, and at what depth of brackets. `margin` is the least column of what belongs to the
innermost block, and `margins` has those of the blocks around it. Of two marks of byte order in
front of a text the second is still there if `isMarkedTwice`. -/
structure Stream where
  cursor : Cursor
  isMarkedTwice : Bool := false
  queue : List Token := []
  taken : Nat := 0
  candidates : List Candidate := [{}]
  awaited : List (Nat × Nat) := []
  keyAllowed : Bool := true
  margin : Nat := 0
  margins : List Nat := []

namespace Stream

/-- How deep brackets or blocks may be nested. -/
def nestingLimit : Nat := 10000

/-- How far behind its begin the colon of a key may be. -/
def keyLimit : Nat := 1024

/-- How far behind a token its comment is looked for. -/
def commentLimit : Nat := 512

/-- The number of brackets that are open. -/
def depth (s : Stream) : Nat := s.candidates.length - 1

/-- Whether a bracket is open. -/
def inBrackets (s : Stream) : Bool := 0 < s.depth

/-- The number of the next token that is read. -/
def nextNumber (s : Stream) : Nat := s.taken + s.queue.length

/-- Adds a token. -/
def push (s : Stream) (t : Token) : Stream := { s with queue := s.queue ++ [t] }

/-- Puts a token in front of the one with a number; if that was taken already, at the end. -/
def insertAt (s : Stream) (number : Nat) (t : Token) : Stream :=
  if number < s.taken then s.push t
  else
    let n := number - s.taken
    { s with queue := s.queue.take n ++ t :: s.queue.drop n }

/-- Takes characters, or refuses the text. -/
def lift {α : Type} (s : Stream) (t : Take α) : Option (α × Stream) := do
  let (a, cursor) ← t.run s.cursor
  return (a, { s with cursor })

/-- Passes this many characters of one line. -/
def pass (s : Stream) (n : Nat) : Stream := { s with cursor := s.cursor.pass n }

/-- Whether a candidate may still become a key here: it must be on the same line and near. None if
it may not, and nothing else can stand there. -/
def isViable (s : Stream) (k : Candidate) : Option Bool :=
  if !k.isPossible then some false
  else if k.line < s.cursor.line || k.index + keyLimit < s.cursor.index then
    if k.isRequired then none else some false
  else some true

/-- The innermost candidate. -/
def candidate (s : Stream) : Candidate := s.candidates.headD {}

/-- Changes the innermost candidate. -/
def setCandidate (s : Stream) (k : Candidate) : Stream :=
  { s with candidates := k :: s.candidates.tail }

/-- No key is expected any more in front of a token. -/
def forget (s : Stream) (number : Nat) : Stream :=
  { s with awaited := s.awaited.filter (·.1 != number) }

/-- The innermost candidate is no key. -/
def dropCandidate (s : Stream) : Option Stream :=
  let k := s.candidate
  if !k.isPossible then some s
  else if k.isRequired then none
  else some ((s.setCandidate { k with isPossible := false }).forget k.token)

/-- The next token may turn out to be the begin of a key, if a key is allowed here. -/
def addCandidate (s : Stream) : Option Stream :=
  if !s.keyAllowed then some s
  else do
    let c := s.cursor
    let k : Candidate := {
      isPossible := true
      isRequired := !s.inBrackets && s.margin = c.column + 1
      token := s.nextNumber
      index := c.index
      line := c.line
      column := c.column }
    let s ← s.dropCandidate
    let s := (s.setCandidate k).forget k.token
    return { s with awaited := (k.token, s.depth) :: s.awaited }

/-- Begins a block at a column, unless one is already there. The token for it is put in front of the
one with a number. -/
def openBlock (s : Stream) (column : Nat) (number : Option Nat) (t : Token) : Option Stream :=
  if s.inBrackets || column + 1 ≤ s.margin then some s
  else if nestingLimit ≤ s.margins.length then none
  else
    let s := { s with margins := s.margin :: s.margins, margin := column + 1 }
    some (match number with
      | some n => s.insertAt n t
      | none => s.push t)

/-- Ends the blocks with a margin above the limit, the innermost first. -/
def closeBlocks (s : Stream) (limit : Nat) : Stream :=
  if s.inBrackets then s else go s s.margins
where
  /-- Ends blocks one by one. -/
  go (s : Stream) : List Nat → Stream
    | [] => s
    | m :: rest =>
      if limit < s.margin then go { s.push .blockEnd with margin := m, margins := rest } rest else s

/-- Takes a comment up to the end of its line, and further lines of comments with nothing but empty
lines between them. -/
def comments : Nat → Cursor → Cursor
  | 0, c => c
  | n + 1, c =>
    let c := (c.span (!isBreak ·)).2
    let space := c.rest.takeWhile fun x => isBlank x || x == '\n' || x == '\r'
    if !space.isEmpty && space.length < commentLimit && c.peekAt space.length == some '#' then
      comments n (skipSpace space.length c)
    else c
where
  /-- Passes `n` blanks and ends of lines. -/
  skipSpace : Nat → Cursor → Cursor
    | 0, c => c
    | n + 1, c =>
      match c.peek with
      | some ' ' | some '\t' => skipSpace n (c.pass 1)
      | some '#' => c
      | _ => skipSpace n c.takeBreak.2

/-- Goes to the next token. Tabs are allowed only where no key can begin, and a new line allows a
key. In a text that begins with a mark of byte order twice, the first character of each line does
not count. -/
def skipToToken : Nat → Stream → Stream
  | 0, s => s
  | n + 1, s =>
    let c := s.cursor
    let c := if s.isMarkedTwice && c.column = 0 && !(c.rest.drop 3).isEmpty then c.pass 1 else c
    let isSpace (x : Char) : Bool := x == ' ' || (x == '\t' && (s.inBrackets || !s.keyAllowed))
    let c := (c.span isSpace).2
    let c := if c.peek == some '#' then comments (c.rest.length + 1) c else c
    match c.takeBreak with
    | (some _, c) =>
      skipToToken n { s with cursor := c, keyAllowed := s.keyAllowed || !s.inBrackets }
    | (none, c) => { s with cursor := c }

/-- Takes a comment that follows a token on its line. -/
def lineComment (s : Stream) : Stream :=
  let c := s.cursor
  let blanks := c.rest.takeWhile isBlank
  if !c.isFresh && blanks.length < commentLimit && c.peekAt blanks.length == some '#' then
    { s with cursor := (c.span (!isBreak ·)).2 }
  else s

/-- Adds a token of `n` characters, behind which a key is or is not allowed. -/
def mark (s : Stream) (n : Nat) (t : Token) (keyAllowed : Bool) : Stream :=
  { (s.pass n).push t with keyAllowed }

/-- Ends all blocks; no key is open any more. -/
def reset (s : Stream) : Option Stream := do
  let s ← (s.closeBlocks 0).dropCandidate
  return { s with keyAllowed := false }

/-- Adds the end of the text. -/
def readEnd (s : Stream) : Option Stream := do
  let c := s.cursor
  let c := if c.column = 0 then c else { c with column := 0, line := c.line + 1 }
  let s ← { s with cursor := c }.reset
  return s.push .streamEnd

/-- Adds a directive. -/
def readDirective (s : Stream) : Option Stream := do
  let (t, s) ← (← s.reset).lift directive
  return s.push t

/-- Adds an opening bracket, which may begin a key. -/
def readOpen (s : Stream) (t : Token) : Option Stream := do
  let s ← s.addCandidate
  if nestingLimit ≤ s.depth then none
  else
    let k : Candidate := { token := s.nextNumber }
    return { s with candidates := k :: s.candidates }.mark 1 t true

/-- Adds a closing bracket. -/
def readClose (s : Stream) (t : Token) : Option Stream := do
  let s ← s.dropCandidate
  let s := if s.inBrackets then
      { s.forget s.candidate.token with candidates := s.candidates.tail }
    else s
  return s.mark 1 t false

/-- Adds a dash. -/
def readDash (s : Stream) : Option Stream := do
  if !s.inBrackets && !s.keyAllowed then none
  let s ← s.openBlock s.cursor.column none .sequenceStart
  return (← s.dropCandidate).mark 1 .dash true

/-- Adds the mark of a key. -/
def readKey (s : Stream) : Option Stream := do
  if !s.inBrackets && !s.keyAllowed then none
  let s ← s.openBlock s.cursor.column none .mappingStart
  return (← s.dropCandidate).mark 1 .key !s.inBrackets

/-- Adds the colon in front of a value. If what is in front of it may be a key, it is one. -/
def readValue (s : Stream) : Option Stream := do
  let k := s.candidate
  if ← s.isViable k then
    let s := s.insertAt k.token .key
    let s ← s.openBlock k.column (some k.token) .mappingStart
    let s := (s.setCandidate { k with isPossible := false }).forget k.token
    return s.mark 1 .value false
  else
    let s := s.setCandidate { k with isPossible := false }
    if !s.inBrackets && !s.keyAllowed then none
    let s ← s.openBlock s.cursor.column none .mappingStart
    return s.mark 1 .value !s.inBrackets

/-- Adds a token that may be the begin of a key, and behind which none can begin. -/
def readWord (s : Stream) (take : Take Token) : Option Stream := do
  let s ← s.addCandidate
  let (t, s) ← { s with keyAllowed := false }.lift take
  return s.push t

/-- Adds a plain scalar. Behind its last line a key is allowed. -/
def readPlain (s : Stream) : Option Stream := do
  let s ← s.addCandidate
  let ((text, isFolded), s) ← s.lift (plain s.inBrackets s.margin)
  return { s.push (.scalar text true) with keyAllowed := isFolded }

/-- Adds a block of lines. -/
def readBlock (s : Stream) (folded : Bool) : Option Stream := do
  let s ← s.dropCandidate
  let (text, s) ← { s with keyAllowed := true }.lift (block folded s.margin)
  return s.push (.scalar text false)

/-- Whether a plain scalar can begin at a place. -/
def beginsPlain (inBrackets : Bool) (c : Char) (next : Option Char) : Bool :=
  if c == '-' then !next.any isBlank
  else if c == '?' || c == ':' then !inBrackets && !isGap next
  else !(isBlank c || isBreak c || ",[]\x7b\x7d#&*!|>'\"%@\x60".toList.contains c)

/-- Adds the token that begins with a character, and perhaps tokens in front of it. -/
def readMark (s : Stream) (c : Char) : Option Stream :=
  let next := s.cursor.peekAt 1
  match c with
  | '[' => s.readOpen .listOpen
  | '\x7b' => s.readOpen .tableOpen
  | ']' => s.readClose .listClose
  | '\x7d' => s.readClose .tableClose
  | ',' => do return (← s.dropCandidate).mark 1 .comma true
  | '*' => s.readWord (do return .reference (← name))
  | '&' => s.readWord (do return .anchor (← name))
  | '!' => s.readWord tag
  | '\'' | '"' => s.readWord (do return .scalar (← quoted c) false)
  | _ =>
    if c == '-' && isGap next then s.readDash
    else if c == '?' && (s.inBrackets || isGap next) then s.readKey
    else if c == ':' && (s.inBrackets || isGap next) then s.readValue
    else if (c == '|' || c == '>') && !s.inBrackets then s.readBlock (c == '>')
    else if beginsPlain s.inBrackets c next then s.readPlain
    else none

/-- Reads one token, and perhaps tokens in front of it. A comment behind a dash belongs to what
follows. -/
def readToken (s : Stream) : Option Stream := do
  let s := skipToToken (s.cursor.rest.length + 1) s
  let s := s.closeBlocks (s.cursor.column + 1)
  match s.cursor.peek with
  | none => s.readEnd
  | some c =>
    if s.cursor.column = 0 && c == '%' then s.readDirective
    else if s.cursor.hasMark '-' then return (← s.reset).mark 3 .documentStart false
    else if s.cursor.hasMark '.' then return (← s.reset).mark 3 .documentEnd false
    else
      let s ← s.readMark c
      return if s.queue.getLast? == some .dash then s else s.lineComment

/-- Reads tokens until there are three and no key can come in front of the first. -/
def fill : Nat → Stream → Option Stream
  | 0, _ => none
  | n + 1, s =>
    if s.queue.length < 3 then s.readToken.bind (fill n)
    else
      match s.awaited.lookup s.taken with
      | none => some s
      | some depth =>
        let below := s.candidates.length - 1 - depth
        match s.candidates[below]? with
        | none => some s
        | some k =>
          match s.isViable k with
          | none => none
          | some true => s.readToken.bind (fill n)
          | some false =>
            let k := { k with isPossible := false }
            some { s with candidates := s.candidates.set below k }

/-- The first token, with the stream in which it is the first. -/
def peek (s : Stream) : Option (Token × Stream) := do
  let s ← fill (s.cursor.rest.length + 8) s
  return (← s.queue.head?, s)

/-- Takes the first token. -/
def next (s : Stream) : Stream := { s with queue := s.queue.tail, taken := s.taken + 1 }

/-- The tokens of a text. -/
def ofChars (cs : List Char) : Stream :=
  { cursor := { rest := cs }, isMarkedTwice := cs.head? == some '\uFEFF' }

end Stream
end ObjectPascal.Yaml
