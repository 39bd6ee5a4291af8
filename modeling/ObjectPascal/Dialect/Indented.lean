import ObjectPascal.Dialect.Config
import ObjectPascal.Settings.Yaml.Meaning
import ObjectPascal.Settings.Yaml.Node

/-!
A configuration from a file with nesting by indentation. Values may be meant by name, and a table
may take over the entries of others, of which those that it has itself do not count. What a file
does not set, or sets to nothing, keeps its value.
-/

namespace ObjectPascal.Config

/-- How far a document was read: how many values were read, how many of them were inside a
reference, and the references that lead to the value that is being read. -/
structure Progress where
  count : Nat := 1
  inside : Nat := 0
  references : List Nat := []

/-- Reads values of a document, or refuses it. -/
abbrev Reading := StateT Progress Option

namespace Reading

/-- Refuses the document. -/
def refuse {α : Type} : Reading α := fun _ => none

/-- The part of all values that may be inside references, in millionths. It falls from 99 to 10 in a
hundred in large documents. -/
def allowedShare (count : Nat) : Nat :=
  if count ≤ 400000 then 990000
  else if 4000000 ≤ count then 100000
  else 990000 - 890000 * (count - 400000) / 3600000

/-- Whether references make a document much larger than it is. -/
def Progress.isExcessive (p : Progress) : Bool :=
  100 < p.inside && 1000 < p.count && allowedShare p.count * p.count < p.inside * 1000000

/-- Counts a value. -/
def step : Reading Unit := do
  modify fun p =>
    { p with count := p.count + 1, inside := p.inside + if p.references.isEmpty then 0 else 1 }
  if Progress.isExcessive (← get) then refuse

/-- Reads a value, or the one that it refers to. A reference does not lead to itself. -/
def follow {α : Type} (named : List (Nat × Yaml.Node)) (node : Yaml.Node)
    (read : Yaml.Node → Reading α) : Reading α := do
  step
  match node with
  | .reference number _ target =>
    let outer := (← get).references
    match named.lookup target with
    | some node =>
      if outer.contains number then refuse
      modify fun p => { p with references := number :: outer }
      step
      let a ← read node
      modify fun p => { p with references := outer }
      return a
    | none => refuse
  | node => read node

/-- The text of a scalar; none if it means nothing. Numbers and truth values are taken as they are
written. -/
def text (named : List (Nat × Yaml.Node)) (node : Yaml.Node) : Reading (Option Text) :=
  follow named node fun
    | .scalar tag text isPlain => do
      match ← Yaml.meaning? tag text isPlain with
      | .absent => return none
      | .text value => return some value
      | .flag _ | .other => return some text
    | _ => refuse

/-- The words for on that are texts. -/
def onWords : List String := ["y", "Y", "yes", "on"]

/-- The words for off that are texts. -/
def offWords : List String := ["n", "N", "no", "off"]

/-- The state of a switch; none if the scalar means nothing. -/
def flag (named : List (Nat × Yaml.Node)) (node : Yaml.Node) : Reading (Option Bool) :=
  follow named node fun
    | .scalar tag text isPlain => do
      match ← Yaml.meaning? tag text isPlain with
      | .absent => return none
      | .flag b => return some b
      | .text t =>
        if Yaml.isWord onWords t then return some true
        else if Yaml.isWord offWords t then return some false
        else refuse
      | .other => refuse
    | _ => refuse

/-- The texts of a list, without items that mean nothing. -/
def texts (named : List (Nat × Yaml.Node)) (node : Yaml.Node) : Reading (List Text) :=
  follow named node fun
    | .scalar tag text isPlain => do
      if (← Yaml.meaning? tag text isPlain) = .absent then return [] else refuse
    | .sequence items => items.filterMapM (text named)
    | _ => refuse

/-- What two keys of one table may not share: their form and how they are written. -/
def keyForm : Yaml.Node → Nat × Text
  | .scalar _ text _ => (0, text)
  | .sequence _ => (1, ∅)
  | .mapping _ => (2, ∅)
  | .reference _ name _ => (3, name)

/-- Whether a key comes twice. -/
def repeats : List (Yaml.Node × Yaml.Node) → Bool
  | [] => false
  | (k, _) :: rest => rest.any (fun (l, _) => keyForm k == keyForm l) || repeats rest

/-- Whether a key says that its value is a table to take entries from. -/
def isMergeKey : Yaml.Node → Bool
  | .scalar tag text isPlain =>
    text == "<<" && (match tag with
      | some tag => tag == "!!merge"
      | none => isPlain)
  | _ => false

/-- The tables to take entries from: one, or a list of them. References to tables count as
tables. -/
def sources? (named : List (Nat × Yaml.Node)) (node : Yaml.Node) : Option (List Yaml.Node) :=
  let isTable (node : Yaml.Node) : Bool :=
    match node with
    | .mapping _ => true
    | .reference _ _ target => (named.lookup target).any fun
      | .mapping _ => true
      | _ => false
    | _ => false
  match node with
  | .sequence items => if items.all isTable then some items else none
  | node => if isTable node then some [node] else none

/-- The settings that tables change: the configuration so far, the names that were set in the table
at hand, and, where entries are taken over, the names that count no longer. -/
structure State where
  config : Config
  done : List Text := []
  taken : Option (List Text) := none

variable {α : Type} (set : α → Yaml.Node → Config → Reading Config) (names : List (String × α))
  (named : List (Nat × Yaml.Node))

/-- Changes what an entry names. No setting is set twice by one table. -/
def setEntry (s : State) (k v : Yaml.Node) : Reading State := do
  if isMergeKey k then return s
  match ← text named k with
  | none => return s
  | some name =>
    if s.taken.any (·.contains name) then return s
    let s := { s with taken := s.taken.map (name :: ·) }
    match names.find? fun (n, _) => Text.ofString n == name with
    | none => return s
    | some (_, a) =>
      if s.done.contains name then refuse
      return { s with config := ← set a v s.config, done := name :: s.done }

/-- Changes what a table names, and then what the tables name that it takes entries from. The names
that count no longer are given and returned. -/
def setTable : Nat → Option (List Text) → Yaml.Node → Config → Reading (Config × Option (List Text))
  | 0, _, _, _ => refuse
  | n + 1, taken, node, c =>
    follow named node fun
      | .scalar tag text isPlain => do
        if (← Yaml.meaning? tag text isPlain) = .absent then return (c, taken) else refuse
      | .sequence _ => refuse
      | .mapping entries => do
        if repeats entries then refuse
        let s ← entries.foldlM (fun s (k, v) => setEntry set names named s k v)
          ({ config := c, taken } : State)
        match entries.find? fun (k, _) => isMergeKey k with
        | none => return (s.config, s.taken)
        | some (_, v) =>
          let own ← match s.taken with
            | some taken => pure taken
            | none => entries.filterMapM fun (k, _) => text named k
          let (c, all) ← (← sources? named v).foldlM
            (fun (c, all) node => setTable n all node c) (s.config, some own)
          return (c, if taken.isSome then all else none)
      | .reference _ _ _ => refuse

/-- Changes a setting, if the value is of its kind. -/
def setField (f : Field) (node : Yaml.Node) (c : Config) : Reading Config := do
  match f with
  | .text put => return ((← text named node).map (put c)).getD c
  | .flag put => return ((← flag named node).map (put c)).getD c
  | .texts put => return put c (← texts named node)

/-- Changes a setting or those of a table. -/
def setSection (size : Nat) (s : Section) (node : Yaml.Node) (c : Config) : Reading Config := do
  match s with
  | .field f => setField named f node c
  | .table fields => return (← setTable (setField named) fields named size none node c).1

end Reading

/-- The configuration that a file with nesting by indentation gives. -/
def ofIndented (t : Text) : Option Config := do
  match ← Yaml.Document.read t with
  | none => return {}
  | some d =>
    let size := (t.length + 2) * (t.length + 2)
    let read :=
      Reading.setTable (Reading.setSection d.named size) sections d.named size none d.root {}
    return (← read.run' {}).1

end ObjectPascal.Config
