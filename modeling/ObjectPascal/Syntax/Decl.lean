import ObjectPascal.Syntax.Stmt
import ObjectPascal.Token.Kind

/-!
Types and declarations. They refer to each other: a record holds fields and methods, a routine
holds a block, and a block declares types.
-/

namespace ObjectPascal

/-- From where a member can be seen. -/
inductive Visibility where
  | default
  | strictPrivate
  | plainPrivate
  | strictProtected
  | plainProtected
  | public_
  | published
deriving DecidableEq, Inhabited

/-- The spelling of a visibility. -/
def Visibility.spelling : Visibility → String
  | .default => ""
  | .strictPrivate => "strict private"
  | .plainPrivate => "private"
  | .strictProtected => "strict protected"
  | .plainProtected => "protected"
  | .public_ => "public"
  | .published => "published"

/-- Whether descendants see a member. -/
def Visibility.isInheritable (v : Visibility) : Bool := v != .strictPrivate

/-- The forms of a named type with members. -/
inductive CompositeKind where
  | classType
  | interface
  | dispInterface
  | record
deriving DecidableEq, Inhabited

/-- What a variable is. -/
inductive VarKind where
  | plain
  | thread
  | field
  | result
deriving DecidableEq, Inhabited

/-- What a constant is. -/
inductive ConstKind where
  | plain
  | typed
  | resource
deriving DecidableEq, Inhabited

/-- How a parameter is passed. -/
inductive ParamKind where
  | plain
  | const
  | var
  | out
deriving DecidableEq, Inhabited

/-- The word in front of a parameter. -/
def ParamKind.spelling : ParamKind → String
  | .plain => ""
  | .const => "const"
  | .var => "var"
  | .out => "out"

/-- What a routine is. -/
inductive RoutineKind where
  | procedure
  | function
  | constructor
  | destructor
deriving DecidableEq, Inhabited

/-- The word that begins a routine. -/
def RoutineKind.spelling : RoutineKind → String
  | .procedure => "procedure"
  | .function => "function"
  | .constructor => "constructor"
  | .destructor => "destructor"

/-- The kinds of ordinal values. -/
inductive OrdinalKind where
  | integer
  | char
  | boolean
  | enum
deriving DecidableEq, Inhabited

/-- The name of an ordinal kind. -/
def OrdinalKind.spelling : OrdinalKind → String
  | .integer => "integer"
  | .char => "char"
  | .boolean => "boolean"
  | .enum => "enum"

/-- A directive of a routine, with the argument of a message directive. -/
structure Directive where
  kind : Kind
  arg : Option Expr := none

/-- Where an external routine is found. -/
structure ExternalSpec where
  library : Option Expr := none
  name : Option Expr := none
  index : Option Expr := none

/-- A member of an enumeration. -/
structure EnumMember where
  info : NodeInfo
  name : Text
  value : Option Expr := none

/-- A label of a block. -/
structure LabelDecl where
  info : NodeInfo
  name : Text

/-- An item of a clause that lists units. -/
structure UnitRef where
  info : NodeInfo
  name : Text
  path : Text := ∅

/-- An item of an exports clause. -/
structure ExportDecl where
  info : NodeInfo
  name : Text
  exportName : Option Expr := none
  index : Option Expr := none

mutual

/-- A type. The forms from `ordinal` on are built in and never written out. -/
inductive TypeExpr where
  | named (type : NamedType)
  | string (info : NodeInfo) (length : Option Expr)
  | subrange (info : NodeInfo) (low high : Expr)
  | enum (info : NodeInfo) (members : List EnumMember)
  | pointer (info : NodeInfo) (target : TypeExpr)
  | classRef (info : NodeInfo) (target : TypeExpr)
  | array (info : NodeInfo) (packed : Bool) (index : List TypeExpr) (elem : Option TypeExpr)
      (ofConst : Bool)
  | set (info : NodeInfo) (elem : TypeExpr)
  | file (info : NodeInfo) (elem : Option TypeExpr)
  | record (info : NodeInfo) (packed : Bool) (members : List Member) (variant : Option VariantPart)
  | classType (info : NodeInfo) (heritage : List Text) (members : List Member) (forward : Bool)
  | interface (info : NodeInfo) (heritage : List Text) (guid : Option Expr) (members : List Member)
      (dispatch forward : Bool)
  | proc (info : NodeInfo) (params : Option (List ParamDecl)) (result : Option TypeExpr)
      (ofObject : Bool)
  | ordinal (info : NodeInfo) (name : Text) (kind : OrdinalKind) (size : Nat) (signed : Bool)
  | real (info : NodeInfo) (name : Text) (size : Nat)
  | rawPointer (info : NodeInfo) (name : Text) (target : Option TypeExpr)
  | rawString (info : NodeInfo) (name : Text) (wide short : Bool)
  | variant (info : NodeInfo) (name : Text)

/-- A parameter. -/
structure ParamDecl where
  info : NodeInfo
  name : Text
  kind : ParamKind := .plain
  type : Option TypeExpr := none
  default : Option Expr := none

/-- A variable or a field. -/
structure VarDecl where
  info : NodeInfo
  name : Text
  type : Option TypeExpr := none
  init : Option Expr := none
  absolute : Text := ∅
  kind : VarKind := .plain
  visibility : Visibility := .default

/-- The fields of a record for some values of its tag. -/
structure VariantCase where
  info : NodeInfo
  labels : List Expr
  fields : List VarDecl

/-- The part of a record that depends on a tag; the tag need not be a field. -/
structure VariantPart where
  info : NodeInfo
  tag : Text
  tagType : TypeExpr
  cases : List VariantCase

/-- A routine or method. Headings, forward and external declarations have no body. -/
structure CallableDecl where
  info : NodeInfo
  name : Text
  owner : Text := ∅
  kind : RoutineKind := .procedure
  classMethod : Bool := false
  params : Option (List ParamDecl) := none
  result : Option TypeExpr := none
  directives : List Directive := []
  body : Option Block := none
  forward : Bool := false
  external : Option ExternalSpec := none
  visibility : Visibility := .default
  builtin : Bool := false

/-- A property. -/
structure PropertyDecl where
  info : NodeInfo
  name : Text
  params : List ParamDecl := []
  type : Option TypeExpr := none
  read : Text := ∅
  write : Text := ∅
  index : Option Expr := none
  default : Option Expr := none
  stored : Option Expr := none
  noDefault : Bool := false
  implements : List Text := []
  defaultArray : Bool := false
  visibility : Visibility := .default

/-- A member of a class, interface or record. -/
inductive Member where
  | var (d : VarDecl)
  | callable (d : CallableDecl)
  | property (d : PropertyDecl)

/-- Declarations with a statement part. -/
structure Block where
  info : NodeInfo
  decls : List Decl
  body : Stmt

/-- A type under a name. -/
structure TypeDecl where
  info : NodeInfo
  name : Text
  type : TypeExpr

/-- A class, interface or record type under a name. -/
structure CompositeDecl where
  info : NodeInfo
  name : Text
  kind : CompositeKind
  heritage : List Text := []
  members : List Member := []
  type : TypeExpr

/-- A constant. -/
structure ConstDecl where
  info : NodeInfo
  name : Text
  type : Option TypeExpr := none
  value : Option Expr
  kind : ConstKind := .plain

/-- A named entity. -/
inductive Decl where
  | type (d : TypeDecl)
  | composite (d : CompositeDecl)
  | var (d : VarDecl)
  | const (d : ConstDecl)
  | param (d : ParamDecl)
  | callable (d : CallableDecl)
  | property (d : PropertyDecl)
  | label (d : LabelDecl)
  | unit (d : UnitRef)
  | exported (d : ExportDecl)
  | enumMember (d : EnumMember)

end

namespace TypeExpr

/-- Number and line of a type. -/
def info : TypeExpr → NodeInfo
  | .named t => t.info
  | .string i _ | .subrange i _ _ | .enum i _ | .pointer i _ | .classRef i _ | .array i _ _ _ _
  | .set i _ | .file i _ | .record i _ _ _ | .classType i _ _ _ | .interface i _ _ _ _ _
  | .proc i _ _ _ | .ordinal i _ _ _ _ | .real i _ _ | .rawPointer i _ _ | .rawString i _ _ _
  | .variant i _ => i

instance : Inhabited TypeExpr := ⟨.named default⟩

/-- The name of the kind of a type. -/
def kindName : TypeExpr → String
  | .named .. => "NamedType"
  | .string .. => "StringType"
  | .subrange .. => "SubrangeType"
  | .enum .. => "EnumType"
  | .pointer .. => "PointerType"
  | .classRef .. => "ClassRefType"
  | .array .. => "ArrayType"
  | .set .. => "SetType"
  | .file .. => "FileType"
  | .record .. => "RecordType"
  | .classType .. => "ClassType"
  | .interface .. => "InterfaceType"
  | .proc .. => "ProcType"
  | .ordinal .. => "OrdinalType"
  | .real .. => "RealType"
  | .rawPointer .. => "BuiltinPointerType"
  | .rawString .. => "BuiltinStringType"
  | .variant .. => "VariantType"

end TypeExpr

namespace CallableDecl

/-- Whether the routine has a result. -/
def isFunction (d : CallableDecl) : Bool := d.kind == .function

/-- Whether a directive is given. -/
def hasDirective (d : CallableDecl) (k : Kind) : Bool := d.directives.any (·.kind == k)

/-- The name with that of the owner in front. -/
def qualifiedName (d : CallableDecl) : Text :=
  if d.owner.isEmpty then d.name else d.owner ++ "." ++ d.name

/-- The parameters; a missing list has none. -/
def paramList (d : CallableDecl) : List ParamDecl := d.params.getD []

end CallableDecl

namespace Member

/-- The member as a declaration. -/
def decl : Member → Decl
  | .var d => .var d
  | .callable d => .callable d
  | .property d => .property d

/-- The name of a member. -/
def name : Member → Text
  | .var d => d.name
  | .callable d => d.name
  | .property d => d.name

/-- Number and line of a member. -/
def info : Member → NodeInfo
  | .var d => d.info
  | .callable d => d.info
  | .property d => d.info

/-- From where the member can be seen. -/
def visibility : Member → Visibility
  | .var d => d.visibility
  | .callable d => d.visibility
  | .property d => d.visibility

end Member

namespace Decl

/-- Number and line of a declaration. -/
def info : Decl → NodeInfo
  | .type d => d.info
  | .composite d => d.info
  | .var d => d.info
  | .const d => d.info
  | .param d => d.info
  | .callable d => d.info
  | .property d => d.info
  | .label d => d.info
  | .unit d => d.info
  | .exported d => d.info
  | .enumMember d => d.info

/-- The declared name. -/
def name : Decl → Text
  | .type d => d.name
  | .composite d => d.name
  | .var d => d.name
  | .const d => d.name
  | .param d => d.name
  | .callable d => d.name
  | .property d => d.name
  | .label d => d.name
  | .unit d => d.name
  | .exported d => d.name
  | .enumMember d => d.name

/-- The name of the kind of a declaration. -/
def kindName : Decl → String
  | .type _ => "TypeDecl"
  | .composite _ => "CompositeDecl"
  | .var _ => "VarDecl"
  | .const _ => "ConstDecl"
  | .param _ => "ParamDecl"
  | .callable _ => "CallableDecl"
  | .property _ => "PropertyDecl"
  | .label _ => "LabelDecl"
  | .unit _ => "UnitRef"
  | .exported _ => "ExportDecl"
  | .enumMember _ => "EnumMember"

instance : Inhabited Decl := ⟨.label ⟨default, ∅⟩⟩

end Decl

/-- A program: its parameters, units and block. -/
structure Program where
  info : NodeInfo
  name : Text
  params : List Text := []
  uses : List UnitRef := []
  block : Block

/-- A unit: its public and its own part, and what runs at start and end. -/
structure Module where
  info : NodeInfo
  name : Text
  publicUses : List UnitRef := []
  publicDecls : List Decl := []
  ownUses : List UnitRef := []
  ownDecls : List Decl := []
  init : List Stmt := []
  final : List Stmt := []

/-- A library. -/
structure Library where
  info : NodeInfo
  name : Text
  uses : List UnitRef := []
  block : Block

/-- A package. -/
structure Package where
  info : NodeInfo
  name : Text
  requires : List Text := []
  contains : List UnitRef := []

/-- The root of a source. -/
inductive Goal where
  | program (g : Program)
  | unit (g : Module)
  | library (g : Library)
  | package (g : Package)

namespace Goal

/-- Number and line of the root. -/
def info : Goal → NodeInfo
  | .program g => g.info
  | .unit g => g.info
  | .library g => g.info
  | .package g => g.info

/-- The name of the source. -/
def name : Goal → Text
  | .program g => g.name
  | .unit g => g.name
  | .library g => g.name
  | .package g => g.name

/-- The name of the kind of a source. -/
def kindName : Goal → String
  | .program _ => "Program"
  | .unit _ => "Unit"
  | .library _ => "Library"
  | .package _ => "Package"

end Goal
end ObjectPascal
