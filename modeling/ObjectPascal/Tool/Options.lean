import ObjectPascal.Complaint
import ObjectPascal.Dialect.Load
import ObjectPascal.Tool.Folder

/-!
How findings are listed.
-/

namespace ObjectPascal.Report

/-- A text with blanks in front of it up to a width. -/
def padLeft (width : Nat) (t : Text) : Text :=
  ⟨List.replicate (width - t.length) 0x20⟩ ++ t

/-- A text with blanks behind it up to a width in characters. -/
def padRight (width : Nat) (t : Text) : Text :=
  t ++ ⟨List.replicate (width - t.runes.length) 0x20⟩

/-- One numbered line on a finding. -/
def findingLine (i : Nat) (f : Finding) : Text :=
  "    " ++ padLeft 2 (Text.ofNat (i + 1)) ++ ") " ++ f.message ++ "\n"

/-- The first findings, each on a line, and how many more there are. Without a limit all are
listed. -/
def findings (limit : Option Nat) (fs : List Finding) : Text :=
  match limit with
  | none => Text.concat (fs.mapIdx findingLine)
  | some n =>
    Text.concat ((fs.take n).mapIdx findingLine) ++
      (if n < fs.length then
        Text.ofString "    ... " ++ Text.ofNat (fs.length - n) ++ " more\n"
      else ∅)

/-- The closing line of a run. -/
def summary (succeeded failed : Nat) : Text :=
  "Summary: " ++ Text.ofNat succeeded ++ " succeeded, " ++ Text.ofNat failed ++ " failed"

end ObjectPascal.Report

/-!
The tools and their command lines. Switches and other arguments may be mixed; behind two strokes
alone there are no switches.
-/

namespace ObjectPascal

/-- The tools. -/
inductive Tool where
  | parserTest
  | lexerTest
  | closureChecker
deriving DecidableEq

/-- What can be switched. -/
inductive Switch where
  | bind
  | comments
  | config
  | dump
  | help
  | verbosity
  | watch
deriving DecidableEq

/-- What a command line asks for: the state of each switch, the other arguments, the switches that
were given at all, and whether two strokes alone were among the arguments. -/
structure Options where
  config : Text := ∅
  verbosity : Text := ∅
  watch : Bool := false
  dump : Bool := false
  bind : Bool := false
  comments : Bool := true
  help : Bool := false
  args : List Text := []
  given : List Switch := []
  isClosed : Bool := false

namespace Switch

/-- The name of a switch. -/
def name : Switch → String
  | bind => "bind"
  | comments => "comments"
  | config => "config"
  | dump => "dump"
  | help => "help"
  | verbosity => "verbosity"
  | watch => "watch"

/-- The letter that stands for a switch. -/
def letter? : Switch → Option Char
  | help => some 'h'
  | verbosity => some 'v'
  | watch => some 'w'
  | _ => none

/-- Whether a switch must have a value. All others are on or off. -/
def hasValue : Switch → Bool
  | config | verbosity => true
  | _ => false

/-- The words for on and off. -/
def state? (t : Text) : Option Bool :=
  if ["1", "t", "T", "TRUE", "true", "True"].any fun w => Text.ofString w == t then some true
  else if ["0", "f", "F", "FALSE", "false", "False"].any fun w => Text.ofString w == t then
    some false
  else none

/-- Sets a switch to a value that is written out. -/
def set? (s : Switch) (o : Options) (value : Text) : Option Options :=
  match s with
  | config => some { o with config := value }
  | verbosity => some { o with verbosity := value }
  | bind => (state? value).map fun b => { o with bind := b }
  | comments => (state? value).map fun b => { o with comments := b }
  | dump => (state? value).map fun b => { o with dump := b }
  | help => (state? value).map fun b => { o with help := b }
  | watch => (state? value).map fun b => { o with watch := b }

end Switch

namespace Tool

/-- The name of a tool. -/
def name : Tool → String
  | parserTest => "parsertest"
  | lexerTest => "lexertest"
  | closureChecker => "closurechecker"

/-- The tool of a name. -/
def ofName? (name : String) : Option Tool :=
  [parserTest, lexerTest, closureChecker].find? (·.name == name)

/-- The switches of a tool, by name. -/
def switches : Tool → List Switch
  | parserTest => [.bind, .config, .dump, .help, .verbosity, .watch]
  | lexerTest => [.comments, .config, .help, .verbosity, .watch]
  | closureChecker => [.config, .help, .verbosity, .watch]

/-- The switch of a letter. -/
def ofLetter? (t : Tool) (c : UInt8) : Option Switch :=
  t.switches.find? fun s => (s.letter?.map fun l => l.toNat == c.toNat).getD false

/-- The switch of a name. -/
def ofWord? (t : Tool) (name : Text) : Option Switch :=
  t.switches.find? fun s => Text.ofString s.name == name

/-- What a tool does. -/
def purpose : Tool → String
  | parserTest => "Parse Delphi source files and report the outcome per file"
  | lexerTest => "Tokenize a Delphi source file"
  | closureChecker => "List the nested routines which need closure parameters"

/-- The arguments of a tool besides its switches. -/
def operands : Tool → String
  | lexerTest => "<file.pas>"
  | _ => "[files or directories]"

/-- What a switch does. -/
def describe (t : Tool) : Switch → String
  | .bind => "resolve the names of each parsed file"
  | .comments => "list comments as tokens"
  | .config => "configuration file (.toml, .yaml)"
  | .dump => "print the syntax tree of each file as YAML"
  | .help => "help for " ++ t.name
  | .verbosity => "log level: debug, info, warn, error"
  | .watch => "run again whenever a source file changes"

/-- What is said of a switch that is on unless it is switched off. -/
def initial : Switch → String
  | .comments => " (default true)"
  | _ => ""

/-- How a switch is written. -/
def switchForm (s : Switch) : String :=
  (match s.letter? with
    | some c => "  -" ++ c.toString ++ ", --"
    | none => "      --") ++ s.name ++ (if s.hasValue then " string" else "")

/-- What a tool tells about itself. -/
def helpText (t : Tool) : Text :=
  let width := (t.switches.map fun s => (switchForm s).length).foldl max 0
  let line (s : Switch) : Text :=
    Report.padRight (width + 3) (Text.ofString (switchForm s)) ++ t.describe s ++ initial s ++ "\n"
  let sample : Text := if t = .lexerTest then "\nExamples:\nlexertest TestUnit.pas\n" else ∅
  Text.ofString (t.purpose ++ "\n\nUsage:\n  " ++ t.name ++ " " ++ t.operands ++ " [flags]\n") ++
    sample ++ "\nFlags:\n" ++ Text.concat (t.switches.map line)

end Tool

namespace Options

/-- Why a command line is refused. -/
inductive Refusal where
  | malformed (arg : Text)
  | unknown (arg : Text)
  | noValue (arg : Text)
  | badValue (arg value : Text)
  | wrongCount (count : Nat)
deriving DecidableEq

/-- The wording of a refusal. -/
def Refusal.message : Refusal → Text
  | malformed arg => "bad flag syntax: " ++ arg
  | unknown arg => "unknown flag: " ++ arg
  | noValue arg => "flag needs an argument: " ++ arg
  | badValue arg value => "invalid argument " ++ value.quoted ++ " for " ++ arg ++ " flag"
  | wrongCount count => "accepts 1 arg(s), received " ++ Text.ofNat count

/-- Sets a switch, or refuses the argument that it was given by. -/
def put (o : Options) (s : Switch) (arg value : Text) : Except Refusal Options :=
  match s.set? o value with
  | some o => .ok { o with given := s :: o.given }
  | none => .error (.badValue arg value)

/-- The beginning of letters that are for a test of the tool and do not count. -/
def testMark : List UInt8 := (Text.ofString "test.").bytes

/-- Reads letters behind one stroke. A letter with a value takes the rest, or, if there is none,
leaves its value to the next argument. -/
def letters (t : Tool) (arg : Text) (o : Options) :
    List UInt8 → Except Refusal (Options × Option Switch)
  | [] => .ok (o, none)
  | c :: rest =>
    if testMark.isPrefixOf (c :: rest) then .ok (o, none)
    else match t.ofLetter? c with
    | none => .error (.unknown arg)
    | some s =>
      match rest with
      | 0x3D :: value@(_ :: _) => do return (← o.put s arg ⟨value⟩, none)
      | _ =>
        if !s.hasValue then
          match o.put s arg "true" with
          | .ok o => letters t arg o rest
          | .error r => .error r
        else if rest.isEmpty then .ok (o, some s)
        else do return (← o.put s arg ⟨rest⟩, none)

/-- Reads a name behind two strokes. A switch with a value takes what follows an equals sign, or
leaves its value to the next argument. -/
def word (t : Tool) (arg : Text) (o : Options) : Except Refusal (Options × Option Switch) :=
  let body := arg.bytes.drop 2
  let name := body.takeWhile (· != 0x3D)
  if name.isEmpty || name.head? == some 0x2D then .error (.malformed arg)
  else
    match t.ofWord? ⟨name⟩ with
    | none => .error (.unknown arg)
    | some s =>
      if name.length < body.length then do
        return (← o.put s arg ⟨body.drop (name.length + 1)⟩, none)
      else if s.hasValue then .ok (o, some s)
      else do return (← o.put s arg "true", none)

/-- Reads the arguments from left to right. -/
def readFrom (t : Tool) (o : Options) : List Text → Except Refusal Options
  | [] => .ok o
  | arg :: rest =>
    if arg == "--" then .ok { o with args := o.args ++ rest, isClosed := true }
    else if !arg.startsWith "-" || arg.length = 1 then
      readFrom t { o with args := o.args ++ [arg] } rest
    else
      match if arg.startsWith "--" then word t arg o else letters t arg o (arg.bytes.drop 1) with
      | .error r => .error r
      | .ok (o, none) => readFrom t o rest
      | .ok (o, some s) =>
        match rest with
        | [] => .error (.noValue arg)
        | value :: rest =>
          match o.put s arg value with
          | .ok o => readFrom t o rest
          | .error r => .error r

/-- Reads a command line. The listing of tokens takes one file. -/
def read (t : Tool) (args : List Text) : Except Refusal Options := do
  let o ← readFrom t {} args
  if t = .lexerTest && !o.help && o.args.length != 1 then throw (.wrongCount o.args.length)
  return o

end Options
end ObjectPascal
