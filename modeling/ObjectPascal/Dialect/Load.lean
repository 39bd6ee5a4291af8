import ObjectPascal.Dialect.Config
import ObjectPascal.Dialect.Indented
import ObjectPascal.Settings.Toml
import ObjectPascal.Text.Case

/-!
A configuration from a file of tables. Every setting has a value of its own kind, and its name may
be written in any case. What a file does not set keeps its value.
-/

namespace ObjectPascal.Config

/-- Changes a setting, if the value is of its kind. -/
def Field.setTabular (c : Config) : Field → Toml.Value → Option Config
  | .text put, .text t => some (put c t)
  | .flag put, .flag b => some (put c b)
  | .texts put, .list items => do
    let texts ← items.mapM fun
      | .text t => some t
      | _ => none
    return put c texts
  | _, _ => none

/-- Changes what entries name, where `set` changes what a name stands for. -/
def setEntries {α : Type} (set : Config → α → Toml.Value → Option Config)
    (names : List (String × α)) (c : Config) (es : Toml.Entries) : Option Config :=
  es.foldlM (fun c (k, v) =>
    match names.find? fun (name, _) => (Text.ofString name).sameFold k with
    | some (_, a) => set c a v
    | none => some c) c

/-- Changes a setting or those of a table. -/
def Section.setTabular (c : Config) : Section → Toml.Value → Option Config
  | .field f, v => f.setTabular c v
  | .table fields, .table es => setEntries Field.setTabular fields c es
  | .table _, _ => none

/-- The configuration that a file of tables gives. -/
def ofTabular (t : Text) : Option Config := do
  setEntries Section.setTabular sections {} (← Toml.read t)

end ObjectPascal.Config

/-!
Configurations from files. What a file does not set keeps its usual value, and settings of other
names do not count.
-/

namespace ObjectPascal.Config

/-- The formats of a configuration file. -/
inductive Format where
  | toml
  | yaml
deriving DecidableEq

/-- The format of a file, by its extension in any case. -/
def Format.ofPath (path : Text) : Except Fault Format :=
  let extension := extensionOf path
  let lower := extension.lower
  if lower == ".toml" then .ok .toml
  else if lower == ".yaml" || lower == ".yml" then .ok .yaml
  else .error (.badFormat extension)

/-- Why a file gives no configuration. -/
inductive ReadFault where
  | malformed
  | refused (fault : Fault)
deriving DecidableEq

/-- The configuration that a file gives. -/
def read (f : Format) (content : Text) : Except ReadFault Config :=
  let found := match f with
    | .toml => ofTabular content
    | .yaml => ofIndented content
  match found with
  | none => .error .malformed
  | some c =>
    match c.validate with
    | .ok () => .ok c
    | .error fault => .error (.refused fault)

end ObjectPascal.Config
