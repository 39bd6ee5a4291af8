import ObjectPascal.Token.Cursor

/-!
A scanner reads one source after the other. It remembers the path of the source and the line of
the token handed out last, drops comments unless told otherwise, and can be stopped.
-/

namespace ObjectPascal

/-- A scanner, at first without a source. -/
structure Scanner where
  cursor : Cursor := {}
  path : Text := ∅
  line : Nat := 0
  keepComments : Bool := false
  stopped : Bool := false
deriving Inhabited

namespace Scanner

/-- Begins a new source. Only the treatment of comments is kept. -/
def open_ (s : Scanner) (source path : Text) : Scanner :=
  { cursor := Cursor.start source, path, keepComments := s.keepComments }

/-- From now on only the end token is handed out. -/
def stop (s : Scanner) : Scanner := { s with stopped := true }

/-- The next token. -/
def next (s : Scanner) : Token × Scanner :=
  let (t, c) :=
    if s.stopped then (s.cursor.eof, s.cursor)
    else if s.keepComments then s.cursor.next
    else s.cursor.nextCode
  (t, { s with cursor := c, line := t.line })

/-- The source lines on which code begins, as far as the scanner has read. -/
def sloc (s : Scanner) : Nat := s.cursor.sloc

/-- At most `fuel` tokens up to the first for which `last` holds, and the scanner behind it. -/
def readWithin (last : Token → Bool) : Nat → Scanner → List Token × Scanner
  | 0, s => ([], s)
  | fuel + 1, s =>
    let (t, s) := s.next
    if last t then ([t], s)
    else
      let (ts, s) := readWithin last fuel s
      (t :: ts, s)

/-- The tokens up to the first for which `last` holds or the end token. -/
def readUntil (s : Scanner) (last : Token → Bool) : List Token × Scanner :=
  readWithin (fun t => last t || t.kind == .eof) (s.cursor.size + 1) s

/-- The tokens of a source without its end token. An invalid token ends the list. -/
def tokens (s : Scanner) (source : Text) : List Token × Scanner :=
  let (ts, s) := (s.open_ source ∅).readUntil (·.kind == .invalid)
  (ts.filter (·.kind != .eof), s)

end Scanner
end ObjectPascal
