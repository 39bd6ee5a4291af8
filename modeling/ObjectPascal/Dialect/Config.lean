import ObjectPascal.Dialect.Version
import ObjectPascal.Text.Case
import ObjectPascal.Text.Quoted

/-!
What a run is configured with: the version of the dialect, the target platform, how strict names
are resolved, which files are sources, and how much is said.
-/

namespace ObjectPascal

/-- A construct that exists from some version of the dialect on. -/
inductive Feature where
  | forIn
  | strictVisibility
  | recordMethods
  | inlining
  | unicodeString
deriving DecidableEq

namespace Feature

/-- All features. -/
def all : List Feature := [forIn, strictVisibility, recordMethods, inlining, unicodeString]

/-- The name of a feature. -/
def name : Feature → String
  | forIn => "for-in"
  | strictVisibility => "strict-visibility"
  | recordMethods => "record-methods"
  | inlining => "inline"
  | unicodeString => "unicode-string"

/-- The feature with a given name. -/
def ofName? (s : String) : Option Feature := all.find? (·.name == s)

/-- The first version that has the feature. -/
def since : Feature → UInt64
  | forIn => 17
  | strictVisibility => 18
  | recordMethods => 18
  | inlining => 17
  | unicodeString => 20

end Feature

/-- How much is said. -/
inductive Level where
  | debug
  | info
  | warn
  | error
deriving DecidableEq

/-- The rank of a level. -/
def Level.rank : Level → Int
  | debug => -4
  | info => 0
  | warn => 4
  | error => 8

/-- The configuration of a run. -/
structure Config where
  verbosity : Text := "warn"
  version : Text := "36.0.0"
  target : Text := "win32"
  extensions : List Text := [".pas", ".dpr", ".dpk", ".inc"]
  strict : Bool := false
deriving DecidableEq, Inhabited

namespace Config

/-- Why a configuration is refused. -/
inductive Fault where
  | badVersion (version : Text) (cause : Version.Fault)
  | badTarget (target : Text)
  | badVerbosity (verbosity : Text)
  | badFormat (extension : Text)
deriving DecidableEq

/-- The wording of a refusal. -/
def Fault.message (f : Fault) : Text :=
  "invalid configuration: " ++
    match f with
    | badVersion v cause => "dialect version " ++ v.quoted ++ ": " ++ cause.message
    | badTarget t => "unknown platform " ++ t.quoted
    | badVerbosity v => "verbosity " ++ v.quoted
    | badFormat e => "unknown config format " ++ e.quoted

/-- Whether the dialect has a feature. A version that cannot be read has none. -/
def supports (c : Config) (f : Feature) : Bool :=
  match Version.parse c.version with
  | .ok v => v.isAtLeast f.since
  | .error _ => false

/-- Whether the dialect has the feature of that name. Every unknown name is taken as supported. -/
def supportsName (c : Config) (name : String) : Bool :=
  match Feature.ofName? name with
  | some f => c.supports f
  | none => true

/-- The version as a source sees it: the first number and tenths for the second. -/
def compilerVersion (c : Config) : Float :=
  match Version.parse c.version with
  | .ok v => v.major.toFloat + v.minor.toFloat / 10
  | .error _ => 0

/-- Platforms with pointers of four bytes. -/
def narrowTargets : List String := ["win32", "linux32", "osx32", "android32", "ios32"]

/-- Platforms with pointers of eight bytes. -/
def wideTargets : List String := ["win64", "linux64", "osx64", "android64", "ios64", "osxarm64"]

/-- The size of a pointer in bytes, 0 for an unknown platform. -/
def pointerSize (c : Config) : Nat :=
  let target := c.target.lower
  if narrowTargets.any fun t => Text.ofString t == target then 4
  else if wideTargets.any fun t => Text.ofString t == target then 8
  else 0

/-- The level that the verbosity names. -/
def level (c : Config) : Except Fault Level :=
  let v := c.verbosity.lower
  if v == "" || v == "warn" || v == "warning" then .ok .warn
  else if v == "debug" then .ok .debug
  else if v == "info" then .ok .info
  else if v == "error" then .ok .error
  else .error (.badVerbosity c.verbosity)

/-- A configuration is usable if its version, platform and verbosity are known, asked in this
order. -/
def validate (c : Config) : Except Fault Unit :=
  match Version.parse c.version with
  | .error cause => .error (.badVersion c.version cause)
  | .ok _ =>
    if c.pointerSize = 0 then .error (.badTarget c.target)
    else
      match c.level with
      | .error f => .error f
      | .ok _ => .ok ()

/-- The end of a file name from its last point on; a name without one has none. -/
def extensionOf (path : Text) : Text :=
  let name := path.bytes.reverse.takeWhile (· != 0x2F)
  if name.contains 0x2E then ⟨(name.takeWhile (· != 0x2E) ++ [0x2E]).reverse⟩ else ∅

/-- Whether a file is a source, by its extension in any case. -/
def isSourceFile (c : Config) (path : Text) : Bool :=
  let extension := (extensionOf path).lower
  c.extensions.any fun e => e.lower == extension

end Config
end ObjectPascal

/-!
The settings of a configuration by name, as files give them.
-/

namespace ObjectPascal.Config

/-- A setting: a text, a switch, or a list of texts, with what it changes. -/
inductive Field where
  | text (put : Config → Text → Config)
  | flag (put : Config → Bool → Config)
  | texts (put : Config → List Text → Config)

/-- A setting with a name of its own, or a table of such settings. -/
inductive Section where
  | field (f : Field)
  | table (fields : List (String × Field))

/-- All settings by name. -/
def sections : List (String × Section) := [
  ("verbosity", .field (.text fun c t => { c with verbosity := t })),
  ("dialect", .table [("version", .text fun c t => { c with version := t })]),
  ("platform", .table [("target", .text fun c t => { c with target := t })]),
  ("parser", .table [
    ("extensions", .texts fun c ts => { c with extensions := ts }),
    ("strict", .flag fun c b => { c with strict := b })])]

end ObjectPascal.Config
