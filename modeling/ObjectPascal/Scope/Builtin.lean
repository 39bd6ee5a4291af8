import ObjectPascal.Decimal.Double
import ObjectPascal.Scope.Basic

/-!
What the language itself declares: types, the roots of classes and interfaces, constants and
routines. Some of it depends on the dialect and the platform.
-/

namespace ObjectPascal
namespace Builtin

/-- Declarations of the language are numbered above this number, so that they share none with the
nodes of a source. -/
def base : Nat := Nat.pow 2 31

/-- The frame so far and the number of its last node. -/
structure Loading where
  frame : Frame := { name := "runtime" }
  last : Nat := base

/-- Declares one thing after the other. -/
abbrev Load := StateM Loading

/-- A new node. -/
def node : Load NodeInfo := do
  modify fun l => { l with last := l.last + 1 }
  return { id := (← get).last, line := 0 }

/-- Declares a name. -/
def declare (name : Text) (d : Decl) : Load Unit :=
  modify fun l => { l with frame := l.frame.addFirst name d }

/-- A reference to a type. -/
def named (name : Text) : Load TypeExpr := do return .named { info := ← node, name }

/-- Declares a type. -/
def typeDecl (name : Text) (type : NodeInfo → TypeExpr) : Load Unit := do
  let type := type (← node)
  declare name (.type { info := ← node, name, type })

/-- Declares an ordinal type. -/
def ordinal (kind : OrdinalKind) (size : Nat) (signed : Bool) (name : Text) : Load Unit :=
  typeDecl name fun i => .ordinal i name kind size signed

/-- Declares a real type. -/
def realType (size : Nat) (name : Text) : Load Unit := typeDecl name fun i => .real i name size

/-- Declares a second name for a type. -/
def synonym (name target : Text) : Load Unit :=
  typeDecl name fun info => .named { info, name := target }

/-- A routine with an optional result. -/
def routine (kind : RoutineKind) (name : Text) (result : Option Text) : Load CallableDecl := do
  return { info := ← node, name, kind, result := ← result.mapM named, builtin := true }

/-- A method that everyone sees. -/
def method (kind : RoutineKind) (name : Text) (result : Option Text := none)
    (directives : List Kind := []) : Load CallableDecl := do
  let d ← routine kind name result
  return { d with visibility := .public_, directives := directives.map fun kind => { kind } }

/-- A parameter. -/
def param (kind : ParamKind) (name type : Text) : Load ParamDecl := do
  return { info := ← node, name, kind, type := some (← named type) }

/-- A field. -/
def field (visibility : Visibility) (name type : Text) : Load VarDecl := do
  return { info := ← node, name, type := some (← named type), kind := .field, visibility }

/-- Declares a class or an interface with its members. -/
def composite (name : Text) (kind : CompositeKind) (heritage : List Text) (members : List Member) :
    Load Unit := do
  let members := members.map fun
    | .callable d => .callable { d with owner := name }
    | m => m
  let i ← node
  let type := match kind with
    | .classType => TypeExpr.classType i heritage members false
    | _ => .interface i heritage none members false false
  declare name (.composite { info := ← node, name, kind, heritage, members, type })

/-- Declares a constant. -/
def constant (name type : Text) (value : NodeInfo → Expr) : Load Unit := do
  let value := value (← node)
  declare name
    (.const { info := ← node, name, type := some (← named type), value := some value })

/-- Numbers and characters. -/
def loadOrdinals (pointer : Nat) (char : Text) : Load Unit := do
  ordinal .integer 1 true "ShortInt"
  ordinal .integer 2 true "SmallInt"
  ordinal .integer 4 true "Integer"
  ordinal .integer 4 true "LongInt"
  ordinal .integer 8 true "Int64"
  ordinal .integer pointer true "NativeInt"
  ordinal .integer 1 false "Byte"
  ordinal .integer 2 false "Word"
  ordinal .integer 4 false "Cardinal"
  ordinal .integer 4 false "LongWord"
  ordinal .integer 8 false "UInt64"
  ordinal .integer pointer false "NativeUInt"
  ordinal .char 1 false "AnsiChar"
  ordinal .char 2 false "WideChar"
  synonym "Char" char
  ordinal .boolean 1 false "Boolean"
  ordinal .boolean 1 false "ByteBool"
  ordinal .boolean 2 false "WordBool"
  ordinal .boolean 4 false "LongBool"
  realType 4 "Single"
  realType 8 "Double"
  realType 8 "Real"
  realType 6 "Real48"
  realType 8 "Comp"
  realType 8 "Currency"
  realType (if pointer = 4 then 10 else 8) "Extended"

/-- The type that a name declared so far stands for. -/
def target (name : Text) : Load (Option TypeExpr) := do
  match (← get).frame.find? name with
  | some (.type d) => return some d.type
  | _ => return none

/-- Strings, pointers and variants. -/
def loadStrings (wide : Bool) (string : Text) : Load Unit := do
  typeDecl "ShortString" fun i => .rawString i "ShortString" false true
  typeDecl "AnsiString" fun i => .rawString i "AnsiString" false false
  typeDecl "WideString" fun i => .rawString i "WideString" true false
  typeDecl "UnicodeString" fun i => .rawString i "UnicodeString" true false
  synonym "string" string
  typeDecl "Pointer" fun i => .rawPointer i "Pointer" none
  let ansi ← target "AnsiChar"
  typeDecl "PAnsiChar" fun i => .rawPointer i "PAnsiChar" ansi
  let unicode ← target "WideChar"
  typeDecl "PWideChar" fun i => .rawPointer i "PWideChar" unicode
  synonym "PChar" (if wide then "PWideChar" else "PAnsiChar")
  typeDecl "Variant" fun i => .variant i "Variant"
  typeDecl "OleVariant" fun i => .variant i "OleVariant"

/-- The roots of classes and interfaces, and what depends on them. -/
def loadComposites : Load Unit := do
  let create ← method .constructor "Create"
  let destroy ← method .destructor "Destroy" none [.VIRTUAL]
  let free ← method .procedure "Free"
  let className ← method .function "ClassName" (some "ShortString")
  let inheritsFrom ← method .function "InheritsFrom" (some "Boolean")
  let after ← method .procedure "AfterConstruction" none [.VIRTUAL]
  let before ← method .procedure "BeforeDestruction" none [.VIRTUAL]
  composite "TObject" .classType []
    ([create, destroy, free, { className with classMethod := true },
      { inheritsFrom with classMethod := true }, after, before].map .callable)
  let object ← named "TObject"
  typeDecl "TClass" fun i => .classRef i object
  let query ← method .function "QueryInterface" (some "HRESULT") [.STDCALL]
  let params := [← param .const "IID" "TGUID", ← param .out "Obj" "Pointer"]
  let addRef ← method .function "_AddRef" (some "Integer") [.STDCALL]
  let release ← method .function "_Release" (some "Integer") [.STDCALL]
  composite "IInterface" .interface []
    ([{ query with params := some params }, addRef, release].map .callable)
  synonym "IUnknown" "IInterface"
  synonym "HRESULT" "LongInt"
  typeDecl "TGUID" fun i => .record i false [] none
  let refCount ← field .plainProtected "FRefCount" "Integer"
  composite "TInterfacedObject" .classType ["TObject", "IInterface"] [.var refCount]
  let message ← field .plainPrivate "FMessage" "string"
  let create ← method .constructor "Create"
  let params := [← param .const "Msg" "string"]
  let property : PropertyDecl :=
    { info := ← node, name := "Message", type := some (← named "string"), read := "FMessage",
      write := "FMessage", visibility := .public_ }
  composite "Exception" .classType ["TObject"]
    [.var message, .callable { create with params := some params }, .property property]

/-- Constants. -/
def loadConstants (version : Float) : Load Unit := do
  constant "True" "Boolean" fun i => .bool i true
  constant "False" "Boolean" fun i => .bool i false
  constant "MaxInt" "Integer" fun i => .int i 2147483647 "2147483647"
  constant "MaxLongInt" "LongInt" fun i => .int i 2147483647 "2147483647"
  constant "CompilerVersion" "Double" fun i => .real i version (Decimal.onePlace version)
  constant "RTLVersion" "Double" fun i => .real i version (Decimal.onePlace version)

/-- The names of the procedures. -/
def procedures : List String :=
  ["Write", "Writeln", "Read", "Readln", "Inc", "Dec", "Exit", "Halt", "New", "Dispose", "GetMem",
    "FreeMem", "SetLength", "Assert", "Include", "Exclude", "FillChar", "Move", "Randomize"]

/-- The names of the functions with their results. -/
def functions : List (String × String) :=
  [("Length", "Integer"), ("High", "Integer"), ("Low", "Integer"), ("Ord", "Integer"),
    ("Chr", "Char"), ("Succ", "Integer"), ("Pred", "Integer"), ("SizeOf", "Integer"),
    ("Assigned", "Boolean"), ("Odd", "Boolean"), ("Copy", "string"), ("Pos", "Integer"),
    ("IntToStr", "string"), ("StrToInt", "Integer"), ("Format", "string"), ("Abs", "Integer"),
    ("Sqr", "Integer"), ("Sqrt", "Extended"), ("Trunc", "Int64"), ("Round", "Int64"),
    ("Random", "Integer"), ("Trim", "string"), ("UpperCase", "string"), ("LowerCase", "string")]

/-- Procedures and functions. -/
def loadRoutines : Load Unit := do
  for name in procedures do
    declare name (.callable (← routine .procedure name none))
  for (name, result) in functions do
    declare name (.callable (← routine .function name (some result)))

/-- The type that the word for strings stands for. -/
def defaultString (config : Config) : Text :=
  if config.supports .unicodeString then "UnicodeString" else "AnsiString"

/-- The type that the name for characters stands for. -/
def defaultChar (config : Config) : Text :=
  if config.supports .unicodeString then "WideChar" else "AnsiChar"

/-- All declarations in order. An unknown platform counts as one with short pointers. -/
def load (config : Config) : Load Unit := do
  loadOrdinals (if config.pointerSize = 0 then 4 else config.pointerSize) (defaultChar config)
  loadStrings (config.supports .unicodeString) (defaultString config)
  loadComposites
  loadConstants config.compilerVersion
  loadRoutines

end Builtin

/-- The frame of the language. -/
def Frame.runtime (config : Config) : Frame := ((Builtin.load config).run {}).2.frame

/-- The scopes before a source is bound: the frame of the language and an empty global one. -/
def Scopes.initial (config : Config) : Scopes :=
  { config, inner := [{ name := "global" }], runtime := Frame.runtime config }

end ObjectPascal
