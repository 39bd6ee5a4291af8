import ObjectPascal.Settings.Yaml.Cursor
import ObjectPascal.Text.Basic

/-!
Scalars: in quotation marks, plain, or as a block of lines. In all but literal blocks the ends of
lines inside a scalar are folded: one becomes a blank, and of several all but the first are kept.
-/

namespace ObjectPascal.Yaml

open Take

/-- What stands between two words of a scalar: blanks, or ends of lines with the blanks around them.
The first end of a line is kept apart from all others; there is none if it was escaped. -/
structure Gap where
  blanks : List Char := []
  first : Option Char := none
  more : List Char := []
  isFolded : Bool := false

/-- What a gap is in the value. -/
def Gap.text (g : Gap) : List Char :=
  if !g.isFolded then g.blanks
  else
    match g.first with
    | none => g.more
    | some '\n' => if g.more.isEmpty then [' '] else g.more
    | some b => b :: g.more

/-- Adds an end of a line to a gap. -/
def Gap.addBreak (g : Gap) (b : Char) : Gap :=
  if g.isFolded then { g with more := g.more ++ [b] }
  else { first := some b, isFolded := true }

/-- Takes a gap of at most `n` blanks and ends of lines. A tab in front of column `margin` of a
further line is refused. -/
def gap (margin : Nat) : Nat → Gap → Take Gap
  | 0, g => pure g
  | n + 1, g => do
    let c ← get
    match c.peek with
    | none => pure g
    | some b =>
      if isBlank b then
        require !(g.isFolded && b == '\t' && c.column < margin)
        skip 1
        gap margin n (if g.isFolded then g else { g with blanks := g.blanks ++ [b] })
      else
        match ← takeBreak with
        | some b => gap margin n (g.addBreak b)
        | none => pure g

/-- Takes the character whose code is given by `n` hexadecimal digits. -/
def hexChar (n : Nat) : Take Char := do
  let digits := ((← get).rest.take n).filterMap Scan.hexValue?
  let code := digits.foldl (fun v d => v * 16 + d) 0
  require (digits.length = n && decide code.isValidChar)
  skip n
  return Char.ofNat code

/-- Takes a backslash and what follows it. -/
def escaped : Take Char := do
  let c := (← get).peekAt 1
  skip 2
  match c with
  | some '0' => return '\x00'
  | some 'a' => return '\x07'
  | some 'b' => return '\x08'
  | some 't' | some '\t' => return '\t'
  | some 'n' => return '\n'
  | some 'v' => return '\x0b'
  | some 'f' => return '\x0c'
  | some 'r' => return '\r'
  | some 'e' => return '\x1b'
  | some ' ' => return ' '
  | some '"' => return '"'
  | some '\'' => return '\''
  | some '\\' => return '\\'
  | some 'N' => return '\u0085'
  | some '_' => return '\u00a0'
  | some 'L' => return '\u2028'
  | some 'P' => return '\u2029'
  | some 'x' => hexChar 2
  | some 'u' => hexChar 4
  | some 'U' => hexChar 8
  | _ => refuse

/-- Takes characters of a quoted scalar up to a gap or the closing mark, onto those that are already
read, of which the last comes first. An escaped end of a line is taken too, and begins a gap. -/
def quotedWord (mark : Char) : Nat → List Char → Take (List Char × Gap)
  | 0, done => return (done, {})
  | n + 1, done => do
    let c ← get
    match c.peek with
    | none => return (done, {})
    | some x =>
      if isBlank x || isBreak x then return (done, {})
      else if x == mark then
        if mark == '\'' && c.peekAt 1 == some mark then
          skip 2
          quotedWord mark n (mark :: done)
        else return (done, {})
      else if x == '\\' && mark == '"' then
        if (c.peekAt 1).any isBreak then
          skip 1
          let _ ← takeBreak
          return (done, { isFolded := true })
        else quotedWord mark n ((← escaped) :: done)
      else
        skip 1
        quotedWord mark n (x :: done)

/-- Takes a quoted scalar up to its closing mark. No document may begin or end inside. -/
def quotedRest (mark : Char) : Nat → List Char → Take (List Char)
  | 0, _ => refuse
  | n + 1, done => do
    let c ← get
    require !(c.isDocumentMark || isEnd c.peek)
    let (done, start) ← quotedWord mark (c.rest.length + 1) done
    if (← peek) == some mark then
      skip 1
      return done.reverse
    let g ← gap 0 (c.rest.length + 1) start
    quotedRest mark n (g.text.reverse ++ done)

/-- Takes a quoted scalar. -/
def quoted (mark : Char) : Take Text := do
  skip 1
  return Text.ofChars (← quotedRest mark ((← get).rest.length + 1) [])

/-- Characters that divide what is in brackets. -/
def isDivider (c : Char) : Bool := ",?[]\x7b\x7d".toList.contains c

/-- The characters of a plain scalar up to a gap or what ends it: a colon in front of a gap, and in
brackets also what divides their content. -/
def plainWord (inBrackets : Bool) : List Char → List Char
  | [] => []
  | c :: rest =>
    if isBlank c || isBreak c || (c == ':' && isGap rest.head?) || (inBrackets && isDivider c) then
      []
    else c :: plainWord inBrackets rest

/-- Takes a plain scalar onto words that are already read and the gap behind them, and tells whether
it ends behind an end of a line. Outside brackets each line must be indented by `margin` at
least. -/
def plainRest (inBrackets : Bool) (margin : Nat) : Nat → List Char → Gap → Take (List Char × Bool)
  | 0, _, _ => refuse
  | n + 1, done, g => do
    let c ← get
    if c.isDocumentMark || c.peek == some '#' then return (done, g.isFolded)
    let word := plainWord inBrackets c.rest
    skip word.length
    let (done, g) := if word.isEmpty then (done, g) else (done ++ g.text ++ word, {})
    if !((← peek).any fun c => isBlank c || isBreak c) then return (done, g.isFolded)
    let g ← gap margin (c.rest.length + 1) g
    if !inBrackets && (← get).column < margin then return (done, g.isFolded)
    plainRest inBrackets margin n done g

/-- Takes a plain scalar. -/
def plain (inBrackets : Bool) (margin : Nat) : Take (Text × Bool) := do
  let (cs, isFolded) ← plainRest inBrackets margin ((← get).rest.length + 1) [] {}
  return (Text.ofChars cs, isFolded)

/-- What becomes of the ends of lines at the end of a block. -/
inductive Chomping where
  | clip
  | strip
  | keep
deriving DecidableEq

/-- Takes the sign for the ends of lines at the end of a block, if there is one. -/
def chomping : Take (Option Chomping) := do
  match ← peek with
  | some '+' => skip 1; return some .keep
  | some '-' => skip 1; return some .strip
  | _ => return none

/-- Takes the number of columns by which a block is indented, if there is one. -/
def increment : Take (Option Nat) := do
  match ← peek with
  | some d =>
    if d.isDigit then
      require (d != '0')
      skip 1
      return some (d.toNat - 48)
    else return none
  | none => return none

/-- Takes the header of a block, up to the end of the line. -/
def blockHeader : Take (Chomping × Option Nat) := do
  match ← chomping with
  | some ending =>
    let columns ← increment
    lineRest
    return (ending, columns)
  | none =>
    let columns ← increment
    let ending ← if columns.isSome then chomping else pure none
    lineRest
    return (ending.getD .clip, columns)

/-- Takes the indentation of the next line of a block and the empty lines in front of it; the width
is the largest indentation seen. As long as the indentation is not known, that is all blanks. -/
def blockBreaks (indent : Option Nat) : Nat → List Char → Nat → Take (List Char × Nat)
  | 0, breaks, width => return (breaks, width)
  | n + 1, breaks, width => do
    let c ← get
    let here := c.rest.takeWhile (· == ' ')
    skip (match indent with
      | some i => min here.length (i - c.column)
      | none => here.length)
    let c ← get
    let width := max width c.column
    require !(c.peek == some '\t' && (indent.map (decide <| c.column < ·)).getD true)
    match ← takeBreak with
    | some b => blockBreaks indent n (breaks ++ [b]) width
    | none => return (breaks, width)

/-- The lines of a block that were read: its text, the end of the last line, the empty lines behind
it, and whether the last line began with a blank. -/
structure Block where
  text : List Char := []
  last : List Char := []
  empty : List Char := []
  beganBlank : Bool := false

/-- Takes the lines of a block that are indented as its first one. In a folded block the end of a
line becomes a blank, unless one of the two lines begins with a blank. -/
def blockLines (folded : Bool) (indent : Nat) : Nat → Block → Take Block
  | 0, b => return b
  | n + 1, b => do
    let c ← get
    if c.column != indent || isEnd c.peek then return b
    let beginsBlank := c.peek.any isBlank
    let joint :=
      if folded && !b.beganBlank && !beginsBlank && b.last.head? == some '\n' then
        if b.empty.isEmpty then [' '] else []
      else b.last
    let line ← span (!isBreak ·)
    let last ← takeBreak
    let (empty, _) ← blockBreaks (some indent) (c.rest.length + 1) [] 0
    blockLines folded indent n {
      text := b.text ++ joint ++ b.empty ++ line
      last := last.toList
      empty
      beganBlank := beginsBlank }

/-- Takes a block of lines that stands below column `margin`. -/
def block (folded : Bool) (margin : Nat) : Take Text := do
  skip 1
  let (ending, columns) ← blockHeader
  let size := (← get).rest.length + 1
  let (empty, width) ← blockBreaks (columns.map (margin - 1 + ·)) size [] 0
  let indent := match columns with
    | some n => margin - 1 + n
    | none => max width (max margin 1)
  let b ← blockLines folded indent size { empty }
  return Text.ofChars (b.text ++
    (if ending = .strip then [] else b.last) ++ (if ending = .keep then b.empty else []))

end ObjectPascal.Yaml
