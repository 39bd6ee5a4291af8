import ObjectPascal.Closure
import ObjectPascal.Parse
import ObjectPascal.Token.Scanner
import ObjectPascal.Tool.Completion
import ObjectPascal.Tool.Dump
import ObjectPascal.Tool.Options

/-!
What the tools do with their files, and what they print.
-/

namespace ObjectPascal.Tool

/-- How a run ends: its exit code, what it prints, and what it complains about. -/
structure Outcome where
  exit : Nat
  out : Text := ∅
  complaint : Text := ∅

/-- The paths of the sources that arguments name. A folder contributes the sources in it, and a path
at which there is nothing is left out. -/
def sources (c : Config) (folder : Folder) (args : List Text) : List Text :=
  args.flatMap fun path =>
    match folder.entry? path with
    | none => []
    | some (.file _) => [path]
    | some (.folder names) => (names.filter c.isSourceFile).map (Folder.inside path)

/-- The configuration of a run. The verbosity of the command line wins. -/
def configOf (o : Options) (folder : Folder) : Except Text Config := do
  let c ←
    if o.config.isEmpty then pure ({} : Config)
    else
      match Config.Format.ofPath o.config with
      | .error f => throw f.message
      | .ok format =>
        match folder.content? o.config with
        | none => throw ("no file " ++ o.config)
        | some content =>
          match Config.read format content with
          | .error .malformed => throw ("cannot read " ++ o.config)
          | .error (.refused f) => throw f.message
          | .ok c => pure c
  if o.verbosity.isEmpty then return c
  let c := { c with verbosity := o.verbosity }
  match c.validate with
  | .ok () => return c
  | .error f => throw f.message

/-- How many findings are listed for one source. -/
def findingLimit : Nat := 10

/-- What is printed on one source, and how it went. -/
inductive Step where
  | succeeded (out : Text)
  | failed (out : Text)
  | broken (out : Text) (breach : Breach)

/-- The word for what a source is. -/
def goalWord : Goal → String
  | .program _ => "program"
  | .library _ => "library"
  | .unit _ => "unit"
  | .package _ => "package"

/-- Tells that a source was parsed, with its tree if that is wanted. -/
def parsed (o : Options) (g : Goal) (outline : Goal → Outline) : Text :=
  "  SUCCESS: parsed " ++ Text.ofString (goalWord g) ++ " " ++ g.name ++ "\n" ++
    (if o.dump then (outline g).dump else ∅)

/-- Parses a source, and binds it if that is wanted. -/
def checkSource (o : Options) (c : Config) (path content : Text) : Step :=
  let p := parse c content
  match p.result with
  | .error f => .failed ("  FAILED: " ++ f.text path ++ "\n")
  | .ok g =>
    if !o.bind then .succeeded (parsed o g (Goal.outline fun _ => []))
    else
      match Binding.ofGoal c path g p.last with
      | (.error e, _) => .broken ∅ e
      | (.ok (), b) =>
        let warnings : Text :=
          if b.warnings.isEmpty then ∅
          else Text.ofString "  " ++ Text.ofNat b.warnings.size ++ " warning(s):\n" ++
            Report.findings (some findingLimit) b.warnings.toList
        if b.isClean then .succeeded (warnings ++ parsed o g b.notes.outline)
        else .failed (warnings ++ "  FAILED with " ++ Text.ofNat b.errors.size ++ " error(s):\n" ++
          Report.findings (some findingLimit) b.errors.toList)

/-- A source that was parsed. -/
structure ParsedSource where
  path : Text
  goal : Goal
  last : Nat

/-- What is printed on sources so far, how many went well and how many did not, and those that were
kept for later. -/
structure Tally where
  out : Text := ∅
  succeeded : Nat := 0
  failed : Nat := 0
  kept : List ParsedSource := []

/-- Adds what was printed on one source. A broken rule ends the run. -/
def Tally.add (t : Tally) : Step → Except Outcome Tally
  | .succeeded out => .ok { t with out := t.out ++ out, succeeded := t.succeeded + 1 }
  | .failed out => .ok { t with out := t.out ++ out, failed := t.failed + 1 }
  | .broken out breach => .error { exit := 2, out := t.out ++ out, complaint := breach.message }

/-- The closing lines, and the exit code. -/
def Tally.outcome (t : Tally) (more : Text) : Outcome where
  exit := if 0 < t.failed then 1 else 0
  out := t.out ++ more

/-- The closing line on all sources. -/
def Tally.summary (t : Tally) : Text :=
  Text.ofString "\n" ++ Report.summary t.succeeded t.failed ++ "\n"

/-- Handles each source in turn; other files are named and left out. -/
def eachSource (c : Config) (folder : Folder) (paths : List Text)
    (handle : Tally → Text → Text → Except Outcome Tally) : Except Outcome Tally :=
  paths.foldlM (fun t path =>
    if !c.isSourceFile path then
      .ok { t with out := t.out ++ "Skipping " ++ path ++ " (not a source file)\n" }
    else
      let t := { t with out := t.out ++ "Parsing: " ++ path ++ "\n" }
      handle t path ((folder.content? path).getD ∅)) {}

/-- What is printed if there is nothing to do. -/
def nothing : Outcome := { exit := 0, out := "No source files provided. Nothing to do.\n" }

/-- Parses sources. -/
def runParser (o : Options) (c : Config) (folder : Folder) : Except Outcome Outcome := do
  let paths := sources c folder o.args
  if paths.isEmpty then return nothing
  let t ← eachSource c folder paths fun t path content => t.add (checkSource o c path content)
  return t.outcome t.summary

/-- Lists the captures of a source that was parsed. -/
def checkClosures (c : Config) (t : Tally) (s : ParsedSource) : Except Outcome Tally :=
  match Binding.ofGoal c s.path s.goal s.last with
  | (.error e, _) => t.add (.broken ∅ e)
  | (.ok (), b) =>
    if !b.isClean then
      t.add (.failed (Text.ofString "binding of '" ++ s.goal.name ++ "' FAILED with " ++
        Text.ofNat b.errors.size ++ " error(s):\n" ++
        Report.findings (some findingLimit) b.errors.toList))
    else
      let found := Closure.analyze b s.goal
      t.add (.succeeded (if found.isEmpty then
          s.goal.name ++ ": no nested routine captures outer variables\n"
        else Closure.report s.goal found))

/-- Parses sources, and then lists the captures in those that can be parsed. -/
def runClosures (o : Options) (c : Config) (folder : Folder) : Except Outcome Outcome := do
  let paths := sources c folder o.args
  if paths.isEmpty then return nothing
  let t ← eachSource c folder paths fun t path content =>
    let p := parse c content
    match p.result with
    | .error f => t.add (.failed ("  FAILED: " ++ f.text path ++ "\n"))
    | .ok goal =>
      let kept := t.kept ++ [{ path, goal, last := p.last }]
      Tally.add { t with kept } (.succeeded ∅)
  let begun := { t with out := t.out ++ t.summary ++ "=== Closure Conversion Analysis ===\n" }
  let t ← t.kept.foldlM (checkClosures c) begun
  return t.outcome ∅

/-- The first line of a text of several lines, with their number. Tabs are widened to four
blanks. -/
def firstLine (t : Text) : Text :=
  let lines := t.bytes.splitOn 0x0A
  let first : Text := ⟨(lines.headD []).flatMap fun b =>
    if b = 0x09 then List.replicate 4 0x20 else [b]⟩
  if lines.length > 1 then first ++ "... (" ++ Text.ofNat lines.length ++ " lines)" else first

/-- One line on a token. -/
def tokenLine (t : Token) : Text :=
  let place := Report.padRight 6 (Text.ofNat t.place.line) ++
    Report.padRight 5 (Text.ofNat t.place.col) ++ " "
  let name := Text.ofString t.kind.name
  let wide := place ++ Report.padRight 12 name
  match t.kind with
  | .eof => wide ++ "\n"
  | .invalid => wide ++ " ERROR: " ++ t.text ++ "\n"
  | kind =>
    if t.text.isEmpty then place ++ name ++ "\n"
    else
      let isFree := kind == .comment || kind == .asm
      wide ++ " " ++ (if isFree then firstLine t.text else t.text) ++ "\n"

/-- Lists the tokens of a file up to its end or the first that is not valid. -/
def listTokens (comments : Bool) (path content : Text) : Text :=
  let start : Scanner := { keepComments := comments }
  let (tokens, s) := (start.open_ content path).readUntil (·.kind == .invalid)
  "Tokenizing file: " ++ path ++ "\n" ++ Report.padRight 12 "Position" ++ " " ++
    Report.padRight 12 "Token" ++ " Value\n" ++ Text.concat (tokens.map tokenLine) ++
    "\nTokenization complete. Total tokens: " ++ Text.ofNat (tokens.filter Token.isValid).length ++
    "\nSource lines of code (SLOC): " ++ Text.ofNat s.sloc ++ "\n"

/-- Lists the tokens of a file. -/
def runLexer (o : Options) (folder : Folder) : Except Outcome Outcome :=
  let path := o.args.headD ∅
  match folder.entry? path with
  | none => .error { exit := 1, complaint := "opening " ++ path ++ ": no such file" }
  | some (.file content) => .ok { exit := 0, out := listTokens o.comments path content }
  | some (.folder _) => .ok { exit := 0, out := listTokens o.comments path ∅ }

/-- Runs a tool on what its command line asks for. -/
def runOptions (t : Tool) (o : Options) (folder : Folder) : Outcome :=
  if o.help then { exit := 0, out := t.helpText }
  else
    match configOf o folder with
    | .error complaint => { exit := 1, complaint }
    | .ok c =>
      let result := match t with
        | parserTest => runParser o c folder
        | closureChecker => runClosures o c folder
        | lexerTest => runLexer o folder
      match result with
      | .ok outcome | .error outcome => outcome

/-- Runs a tool. A command line may ask for proposals how to go on with it instead. -/
def run (t : Tool) (args : List Text) (folder : Folder) : Outcome :=
  match Completion.ofArgs? t args with
  | some (some out) => { exit := 0, out }
  | some none => { exit := 1, complaint := "requires at least 1 arg(s), only received 0" }
  | none =>
    match Options.read t args with
    | .error r => { exit := 1, complaint := r.message }
    | .ok o => runOptions t o folder

end ObjectPascal.Tool
