import ObjectPascal.Tool.Options

/-!
What could come next on a command line. A shell asks for it by a word in front of the line, which
then holds what is written so far; its last argument is the part of a word that is to be completed.
Only the names of switches are proposed.
-/

namespace ObjectPascal.Completion

/-- The word by which proposals are asked for, and the one for proposals without their
descriptions. -/
def requestWords : List String := ["__complete", "__completeNoDesc"]

/-- Whether a text has an equals sign in it. -/
def hasEquals (t : Text) : Bool := t.bytes.contains 0x3D

/-- Whether an argument in front of the word that says what is to be done takes the next one with
it: all switches do that are not known to be on or off. The one for help is not known here. -/
def takesNext (t : Tool) (arg : Text) : Bool :=
  let isPlain (s : Switch) : Bool := !s.hasValue && s != .help
  if hasEquals arg then false
  else if arg.startsWith "--" && !((t.ofWord? ⟨arg.bytes.drop 2⟩).map isPlain).getD false then true
  else
    match arg.bytes with
    | [0x2D, c] => !((t.ofLetter? c).map isPlain).getD false
    | _ => false

/-- The first argument that is no switch, and all others. -/
def firstWord (t : Tool) : List Text → Option (Text × List Text)
  | [] => none
  | arg :: rest =>
    if arg == "--" then none
    else if takesNext t arg then
      match rest with
      | value :: next :: more =>
        (firstWord t (next :: more)).map fun (w, others) => (w, arg :: value :: others)
      | _ => none
    else if arg.isEmpty || arg.startsWith "-" then
      (firstWord t rest).map fun (w, others) => (w, arg :: others)
    else some (arg, rest)

/-- What is to be completed: the arguments in front, the part of a word, the switch whose value this
is, and whether the switch in front of it, if there is one, is a switch of the tool. -/
structure Aim where
  words : List Text
  part : Text
  switch : Option Switch := none
  isKnown : Bool := true

/-- The last switch that an argument names. Behind one stroke it is a letter. -/
def nameIn (arg : List UInt8) : Text :=
  if (Text.mk arg).startsWith "--" then ⟨arg.drop 2⟩ else ⟨arg.getLast?.toList⟩

/-- The switch of a name or letter. -/
def switch? (t : Tool) (name : Text) : Option Switch :=
  match name.bytes with
  | [c] => t.ofLetter? c
  | _ => t.ofWord? name

/-- Whether an argument gives a switch that leaves its value to the next one. -/
def isOpen (arg : Text) : Bool := arg.startsWith "-" && arg != "-" && arg != "--" && !hasEquals arg

/-- What is to be completed by the last argument behind the given ones. Behind an equals sign it is
the value of a switch, and otherwise perhaps the value of the switch in front. -/
def aim (t : Tool) (words : List Text) (last : Text) : Aim :=
  let isSwitch := last.startsWith "-"
  if isSwitch && !hasEquals last then { words, part := last }
  else
    let head := last.bytes.takeWhile (· != 0x3D)
    let own := if isSwitch then nameIn head else ∅
    let part := if isSwitch then ⟨last.bytes.drop (head.length + 1)⟩ else last
    let (name, before) :=
      if !own.isEmpty then (own, words)
      else
        match words.getLast? with
        | some arg => if isOpen arg then (nameIn arg.bytes, words.dropLast) else (∅, words)
        | none => (∅, words)
    if name.isEmpty then { words, part }
    else
      match switch? t name with
      | none => { words, part := last, isKnown := false }
      | some s =>
        if isSwitch || s.hasValue then { words := before, part, switch := some s }
        else { words, part }

/-- The ways to write a switch that begin with a part of a word. -/
def spellings (s : Switch) (part : Text) : List Text :=
  let short := s.letter?.map fun c => Text.ofString ("-" ++ c.toString)
  (Text.ofString ("--" ++ s.name) :: short.toList).filter (·.startsWith part)

/-- The proposals, one on a line, and whether files may be proposed besides. -/
structure Proposal where
  lines : List Text := []
  filesToo : Bool := true

/-- What could stand in place of the last argument. A switch that was given is not proposed again,
and none is behind two strokes alone. -/
def propose (t : Tool) (described : Bool) (words : List Text) (last : Text) : Proposal :=
  let a := aim t words last
  match Options.readFrom t {} a.words with
  | .error _ => {}
  | .ok o =>
    if !a.isKnown && !o.isClosed then {}
    else if o.given.contains .help then { filesToo := false }
    else if a.switch.isNone && a.part.startsWith "-" && !hasEquals a.part && !o.isClosed then
      let line (s : Switch) (spelling : Text) : Text :=
        if described then spelling ++ "\t" ++ t.describe s else spelling
      let lines := t.switches.flatMap fun s =>
        if o.given.contains s then [] else (spellings s a.part).map (line s)
      { lines, filesToo := false }
    else {}

/-- How proposals are printed: the last line tells the shell what else it may propose. -/
def Proposal.text (p : Proposal) : Text :=
  Text.concat (p.lines.map (· ++ "\n")) ++ (if p.filesToo then ":0\n" else ":4\n")

/-- The proposals that a command line asks for, if it asks for any; there are none without a last
argument. -/
def ofArgs? (t : Tool) (args : List Text) : Option (Option Text) :=
  match firstWord t args with
  | none => none
  | some (word, line) =>
    if requestWords.any fun w => Text.ofString w == word then
      some (line.getLast?.map fun last =>
        (propose t (word == "__complete") line.dropLast last).text)
    else none

end ObjectPascal.Completion
