import ObjectPascal.Settings.Yaml.Stream

/-!
The first document of a text as a tree. A value can be given a name and be meant again by it further
on; the tree has references there, and a document keeps the values with a name.
-/

namespace ObjectPascal.Yaml

/-- A value. A scalar has the tag that it was given, and tells whether it was written plainly. Every
reference has a number of its own and the number of the value that it means. -/
inductive Node where
  | scalar (tag : Option Text) (text : Text) (isPlain : Bool)
  | sequence (items : List Node)
  | mapping (entries : List (Node × Node))
  | reference (number : Nat) (name : Text) (target : Nat)

/-- A value that is not there. -/
def Node.absent : Node := .scalar none ∅ true

/-- The first document of a text: its value, and those values that have names. -/
structure Document where
  root : Node
  named : List (Nat × Node) := []

/-- The begin of the tags that every document knows. -/
def commonStem : Text := "tag:yaml.org,2002:"

/-- A tag in short form. An exclamation mark alone says nothing. -/
def shortTag (t : Text) : Option Text :=
  if t.isEmpty || t == "!" then none
  else if t.startsWith commonStem then some ("!!" ++ ⟨t.bytes.drop commonStem.length⟩)
  else some t

/-- A document that is being read: the tokens that are left, what handles of tags stand for, the
numbers of names, of which the last counts, the named values that are complete, and how many numbers
were given. -/
structure Draft where
  stream : Stream
  handles : List (Text × Text) := []
  names : List (Text × Nat) := []
  named : List (Nat × Node) := []
  count : Nat := 0

/-- Takes tokens, or refuses the text. -/
abbrev Compose := StateT Draft Option

namespace Compose

/-- Refuses the text. -/
def refuse {α : Type} : Compose α := fun _ => none

/-- Goes on only if a condition holds. -/
def require (b : Bool) : Compose Unit := if b then pure () else refuse

/-- The next token, which is not taken. -/
def peek : Compose Token := fun d => do
  let (t, stream) ← d.stream.peek
  return (t, { d with stream })

/-- Takes the next token. -/
def next : Compose Unit := modify fun d => { d with stream := d.stream.next }

/-- Takes a token if it comes next, and tells whether it did. -/
def accept (t : Token) : Compose Bool := do
  if (← peek) == t then
    next
    return true
  else return false

/-- A new number. -/
def number : Compose Nat := modifyGet fun d => (d.count, { d with count := d.count + 1 })

/-- What is said about a value in front of it. -/
structure Properties where
  name : Option Text := none
  tag : Option Text := none

/-- The tag that a handle and the text behind it make. -/
def fullTag (handle suffix : Text) : Compose Text := do
  if handle.isEmpty then return suffix
  match (← get).handles.lookup handle with
  | some stem => return stem ++ suffix
  | none => refuse

/-- Takes a name and a tag in any order; both may be missing. -/
def properties : Compose Properties := do
  match ← peek with
  | .anchor name =>
    next
    match ← peek with
    | .tag h s =>
      next
      return { name := some name, tag := some (← fullTag h s) }
    | _ => return { name := some name }
  | .tag h s =>
    next
    let tag ← fullTag h s
    match ← peek with
    | .anchor name =>
      next
      return { name := some name, tag := some tag }
    | _ => return { tag := some tag }
  | _ => return {}

/-- Gives a value its name while it is read, so that it can be meant already inside itself. -/
def named (name : Option Text) (read : Compose Node) : Compose Node := do
  match name with
  | none => read
  | some name =>
    let i ← number
    modify fun d => { d with names := (name, i) :: d.names }
    let node ← read
    modify fun d => { d with named := (i, node) :: d.named }
    return node

/-- Takes a value, or none in front of these tokens. -/
def nodeOrNone (stops : List Token) (node : Compose Node) : Compose Node := do
  if stops.contains (← peek) then return .absent else node

/-- Takes a value behind a colon; both may be missing. -/
def valueOrNone (stops : List Token) (node : Compose Node) : Compose Node := do
  if ← accept .value then nodeOrNone stops node else return .absent

/-- Takes the items of a list behind dashes. In a block of its own the list ends with the block. -/
def dashItems (isBlock : Bool) (node : Compose Node) : Nat → List Node → Compose Node
  | 0, _ => refuse
  | n + 1, done => do
    if ← accept .dash then
      let stops := if isBlock then [.dash, .blockEnd] else [.dash, .key, .value, .blockEnd]
      dashItems isBlock node n ((← nodeOrNone stops node) :: done)
    else
      if isBlock then require (← accept .blockEnd)
      return .sequence done.reverse

/-- Takes the keys and values of a block. -/
def blockEntries (node : Compose Node) : Nat → List (Node × Node) → Compose Node
  | 0, _ => refuse
  | n + 1, done => do
    if ← accept .key then
      let stops := [.key, .value, .blockEnd]
      let k ← nodeOrNone stops node
      let v ← valueOrNone stops node
      blockEntries node n ((k, v) :: done)
    else
      require (← accept .blockEnd)
      return .mapping done.reverse

/-- Takes a key with its value as an item of a list in brackets. Where the key is missing, the token
in its place is taken. -/
def listPair (node : Compose Node) : Compose Node := do
  let k ←
    if [.value, .comma, .listClose].contains (← peek) then do
      next
      pure .absent
    else node
  let v ← valueOrNone [.comma, .listClose] node
  return .mapping [(k, v)]

/-- Takes the items of a list in brackets. -/
def listItems (node : Compose Node) : Nat → List Node → Compose Node
  | 0, _ => refuse
  | n + 1, done => do
    if ← accept .listClose then return .sequence done.reverse
    if !done.isEmpty then require (← accept .comma)
    if ← accept .listClose then return .sequence done.reverse
    let item ← if ← accept .key then listPair node else node
    listItems node n (item :: done)

/-- Takes the keys and values of a table in braces. A key alone has no value. -/
def tableEntries (node : Compose Node) : Nat → List (Node × Node) → Compose Node
  | 0, _ => refuse
  | n + 1, done => do
    if ← accept .tableClose then return .mapping done.reverse
    if !done.isEmpty then require (← accept .comma)
    if ← accept .tableClose then return .mapping done.reverse
    if ← accept .key then
      let k ← nodeOrNone [.value, .comma, .tableClose] node
      let v ← valueOrNone [.comma, .tableClose] node
      tableEntries node n ((k, v) :: done)
    else tableEntries node n ((← node, .absent) :: done)

/-- Takes a value. Only where blocks are allowed it may be one, and only behind a key or a colon may
a list begin with a dash that is not indented. -/
def node : Nat → Bool → Bool → Compose Node
  | 0, _, _ => refuse
  | n + 1, allowsBlock, allowsDash => do
    match ← peek with
    | .reference name =>
      match (← get).names.lookup name with
      | some target =>
        next
        return .reference (← number) name target
      | none => refuse
    | _ =>
      let p ← properties
      let start ← peek
      named p.name do
        match start with
        | .scalar text isPlain =>
          next
          return .scalar (p.tag.bind shortTag) text isPlain
        | .listOpen =>
          next
          listItems (node n false false) n []
        | .tableOpen =>
          next
          tableEntries (node n false false) n []
        | _ =>
          if start = .dash && allowsDash then dashItems false (node n true false) n []
          else if start = .sequenceStart && allowsBlock then
            next
            dashItems true (node n true false) n []
          else if start = .mappingStart && allowsBlock then
            next
            blockEntries (node n true true) n []
          else
            require (p.name.isSome || p.tag.isSome)
            return .scalar (p.tag.bind shortTag) ∅ true

/-- What handles stand for unless a document says otherwise. -/
def commonHandles : List (Text × Text) := [("!", "!"), ("!!", commonStem)]

/-- Takes the directives in front of a document. The version is given at most once and is the one
that is known, and no handle is explained twice. -/
def directives : Nat → Bool → Compose Unit
  | 0, _ => refuse
  | n + 1, hasVersion => do
    match ← peek with
    | .version major minor =>
      require (!hasVersion && major = 1 && minor = 1)
      next
      directives n true
    | .tagHandle handle stem =>
      require ((← get).handles.lookup handle).isNone
      modify fun d => { d with handles := (handle, stem) :: d.handles }
      next
      directives n hasVersion
    | _ => modify fun d => { d with handles := d.handles ++ commonHandles }

/-- Whether a document has directives or its begin is marked. -/
def isMarked : Token → Bool
  | .version _ _ | .tagHandle _ _ | .documentStart => true
  | _ => false

/-- Takes the first document, if there is one, up to the token behind it. -/
def document (size : Nat) : Compose (Option Document) := do
  let first ← peek
  if first = .streamEnd then return none
  let root ←
    if isMarked first then do
      directives size false
      require (← accept .documentStart)
      let start ← peek
      if isMarked start || start = .documentEnd || start = .streamEnd then pure .absent
      else node size true false
    else do
      directives size false
      node size true false
  let _ ← peek
  return some { root, named := (← get).named }

end Compose

/-- Characters that a text may hold. -/
def isPrintable (c : Char) : Bool :=
  c == '\t' || c == '\n' || c == '\r' || (0x20 ≤ c.toNat && c.toNat ≤ 0x7E) || c.toNat = 0x85 ||
    (0xA0 ≤ c.toNat && c.toNat != 0xFFFE && c.toNat != 0xFFFF)

/-- The first document of a text. The outer option is none if the text is not well-formed as far as
it is read, and the inner one if there is no document. -/
def Document.read (t : Text) : Option (Option Document) :=
  let cs := match t.chars with
    | '\uFEFF' :: rest => rest
    | cs => cs
  if !t.isUtf8 || !cs.all isPrintable then none
  else (Compose.document (4 * cs.length + 16)).run' { stream := .ofChars cs }

end ObjectPascal.Yaml
