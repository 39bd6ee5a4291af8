import ObjectPascal.Settings.Toml.Draft
import ObjectPascal.Settings.Toml.Scalar

/-!
Settings in the format of tables in square brackets. Every line has one key with its value, or the
heading of a table; keys with points reach into tables.
-/

namespace ObjectPascal.Toml

open Scan

/-- Takes characters and keeps what they say in a draft, or refuses the text. -/
abbrev Build := StateT Draft Scan

/-- Changes the draft, if that is allowed. -/
def alterDraft (f : Draft → Option Draft) : Build Unit := do
  match f (← get) with
  | some d => set d
  | none => Scan.refuse

/-- The number of characters that are left, and one. -/
def size : Scan Nat := do return (← get).length + 1

/-- Takes the items of a list up to its closing bracket. -/
def items (value : Build Value) : Nat → List Value → Build Value
  | 0, _ => Scan.refuse
  | n + 1, done => do
    gaps (← size)
    if ← accept "]" then return .list done.reverse
    let v ← value
    gaps (← size)
    if ← accept "," then items value n (v :: done)
    else
      expect "]"
      return .list (v :: done).reverse

/-- Takes a key, the sign behind it, and its value, which goes to the table of the key. The table in
which keys begin is the same afterwards. -/
def pair (value : Build Value) : Build (List Text × Value) := do
  let outer := (← get).context
  let k ← (key : Scan (List Text))
  blanks
  expect "="
  blanks
  alterDraft (·.descend k)
  let v ← value
  let name := (← get).key
  alterDraft (·.setValue name v)
  modify fun d => { d.setType name v.isList with context := outer }
  return (k, v)

/-- Takes the keys and values of a table on one line up to its closing brace. -/
def pairs (value : Build Value) : Nat → Entries → Build Value
  | 0, _ => Scan.refuse
  | n + 1, done => do
    blanks
    let (k, v) ← pair value
    let last ← k.getLast?
    let done ← Entries.setWithin last v k.dropLast done
    blanks
    if ← accept "," then pairs value n done
    else
      expect "\x7d"
      return .table done

/-- Takes a table on one line behind its opening brace. While it is read it stands in the draft,
below its key. -/
def inlineTable (value : Build Value) (isItem : Bool) : Build Value := do
  let outer ← get
  let path := outer.context ++ [outer.key]
  alterDraft fun d => (d.imply path).enter path isItem
  blanks
  let v ← if ← accept "\x7d" then pure (.table []) else pairs value (← size) []
  modify fun d => { d with context := outer.context, key := outer.key }
  return v

/-- Takes a value, which may be an item of a list, and in which lists and tables are nested at most
`n` deep. -/
def valueWithin : Nat → Bool → Build Value
  | 0, _ => Scan.refuse
  | n + 1, isItem => do
    match ← (peek : Scan (Option Char)) with
    | some '"' => return .text (← string '"')
    | some '\'' => return .text (← string '\'')
    | some '[' =>
      expect "["
      modify fun d => d.setType d.key true
      items (valueWithin n true) (← size) []
    | some '\x7b' =>
      expect "\x7b"
      inlineTable (valueWithin n false) isItem
    | _ => word

/-- Takes a value. -/
def value : Build Value := do valueWithin (← size) false

/-- Takes the heading of a table, or of one more table of a name. -/
def heading : Build Unit := do
  expect "["
  let isOneMore ← accept "["
  blanks
  let k ← (key : Scan (List Text))
  blanks
  expect (if isOneMore then "]]" else "]")
  alterDraft (·.enter k isOneMore)
  modify (·.setType ∅ false)

/-- Takes the lines of a file. Keys go to the table of the last heading. -/
def lines : Nat → Build Unit
  | 0 => Scan.refuse
  | n + 1 => do
    gaps (← size)
    match ← (peek : Scan (Option Char)) with
    | none => return ()
    | some '[' => heading
    | some _ => let _ ← pair value
    lineRest
    lines n

/-- Whether control characters stand only where they may: tabs, and ends of lines. -/
def isClean : List Char → Bool
  | [] => true
  | '\r' :: rest => rest.head? == some '\n' && isClean rest
  | c :: rest => (0x20 ≤ c.toNat && c.toNat != 0x7F || c == '\t' || c == '\n') && isClean rest

/-- The settings of a file. -/
def read (t : Text) : Option Entries :=
  let cs := match t.chars with
    | '\uFEFF' :: rest => rest
    | cs => cs
  if !t.isUtf8 || !isClean cs then none
  else
    match ((lines (cs.length + 1)).run {}).run cs with
    | some (((), d), _) => some d.root
    | none => none

end ObjectPascal.Toml
