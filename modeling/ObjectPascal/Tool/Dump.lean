import ObjectPascal.Annotations
import ObjectPascal.Syntax.Outline
import ObjectPascal.Text.Quoted

/-!
The outline of a tree together with what is found out about it.
-/

namespace ObjectPascal.Annotations

/-- What an outline shows about an expression: what stands in for it, down to `n` levels, and its
constant value. -/
def entries (a : Annotations) : Nat → Expr → List Outline.Entry
  | 0, e => constEntry e
  | n + 1, e =>
    let r := a.effective e
    (if r.info = e.info then [] else [("resolved", r.outline (a.entries n))]) ++ constEntry e
where
  /-- The entry for a constant value. -/
  constEntry (e : Expr) : List Outline.Entry :=
    match a.valueOf e.info with
    | some v => [("const", .text v.text)]
    | none => []

/-- The outline of a bound source. What stands in for an expression is built of new nodes, for which
nothing else stands in, so two levels show all. -/
def outline (a : Annotations) (g : Goal) : Outline := g.outline (a.entries 2)

end ObjectPascal.Annotations

/-!
The outline of a tree as lines of text. What belongs to an entry is indented below it.
-/

namespace ObjectPascal.Outline

/-- Whether a text can stand without quotation marks. -/
def isPlain (t : Text) : Bool :=
  !t.isEmpty && t.bytes.all fun b =>
    (0x30 ≤ b && b ≤ 0x39) || (0x41 ≤ b && b ≤ 0x5A) || (0x61 ≤ b && b ≤ 0x7A) || b = 0x5F ||
      b = 0x2E

/-- A text, in quotation marks where it needs them. -/
def scalar (t : Text) : Text := if isPlain t then t else t.quoted

/-- Indents lines by four blanks. -/
def indented (ls : List Text) : List Text := ls.map (Text.ofString "    " ++ ·)

/-- Puts a dash in front of the first line and as many blanks in front of the others. -/
def dashed : List Text → List Text
  | [] => ["-"]
  | first :: rest => (Text.ofString "- " ++ first) :: rest.map (Text.ofString "  " ++ ·)

mutual

/-- The lines of an outline. -/
def lines : Outline → List Text
  | .text t => [scalar t]
  | .list items => itemLines items
  | .record entries => entryLines entries

/-- The lines of a list. -/
def itemLines : List Outline → List Text
  | [] => []
  | item :: rest => dashed item.lines ++ itemLines rest

/-- The lines of the entries of a record. -/
def entryLines : List (String × Outline) → List Text
  | [] => []
  | (key, value) :: rest => entryLine key value ++ entryLines rest

/-- The lines of one entry. -/
def entryLine (key : String) : Outline → List Text
  | .text t => [Text.ofString (key ++ ": ") ++ scalar t]
  | .list items => Text.ofString (key ++ ":") :: indented (itemLines items)
  | .record entries => Text.ofString (key ++ ":") :: indented (entryLines entries)

end

/-- An outline as text. -/
def dump (o : Outline) : Text := Text.concat (o.lines.map (· ++ Text.ofString "\n"))

end ObjectPascal.Outline
