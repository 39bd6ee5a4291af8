import ObjectPascal.Syntax.Decl
import ObjectPascal.Token.Basic

/-!
What a parse computes for the phrases of the language. Most phrases give a node of the tree; some
give parts that only an enclosing phrase can turn into nodes. A `Shape` names the type of such a
value, so that a rule can be held to the shapes of its parts.
-/

namespace ObjectPascal.Rule

/-- Names declared together with one type. -/
structure VarGroup where
  names : List Token
  type : TypeExpr
  init : Option Expr := none
  absolute : Text := ∅

/-- What follows the type of a variable: a value, or the variable whose place it shares. -/
structure VarInit where
  init : Option Expr := none
  absolute : Text := ∅

/-- The name of a routine, with that of its owner if one is written. -/
structure RoutineName where
  owner : Text := ∅
  name : Text

/-- The heading of a routine. -/
structure RoutineHead where
  kind : RoutineKind
  classMethod : Bool
  name : RoutineName
  params : Option (List ParamDecl)
  result : Option TypeExpr
  line : Nat

/-- Parameters and type of a property. -/
structure PropertyFace where
  params : List ParamDecl := []
  type : TypeExpr

/-- One specifier of a property. -/
inductive PropertySpec where
  | read (name : Text)
  | write (name : Text)
  | index (e : Expr)
  | default (e : Expr)
  | stored (e : Expr)
  | noDefault
  | implements (names : List Text)

/-- A member that does not yet know its visibility, or a word that changes the visibility of the
members behind it. -/
inductive PendingMember where
  | visibility (v : Visibility)
  | fields (g : VarGroup)
  | method (head : RoutineHead) (directives : List Directive)
  | property (name : Token) (face : Option PropertyFace) (specs : List PropertySpec)
      (isDefault : Bool) (line : Nat)

/-- The members read so far and the visibility of the next one. -/
structure MemberList where
  items : List Member := []
  visibility : Visibility := .default

/-- What a unit runs at its start and end. -/
structure UnitEnd where
  init : List Stmt := []
  final : List Stmt := []

/-- What a try statement does on an exception. -/
structure ExceptBody where
  handlers : List Handler := []
  rest : List Stmt := []
  plain : List Stmt := []

/-- The shape of a value. A `mark` tells only that something is written. -/
inductive Shape where
  | token | text | mark
  | expr | fieldInit | stmt | caseArm | handler | exceptBody | type
  | decl | callable | block | unitRef | unitEnd | goal
  | varGroup | varInit | routineName | routineHead | param | directive | external
  | enumMember | variantCase | variantPart
  | members | member | propertyFace | propertySpec
  | list (s : Shape)
  | opt (s : Shape)
deriving DecidableEq

namespace Shape

/-- The values of a shape. -/
def Val : Shape → Type
  | token => Token
  | text => Text
  | mark => Unit
  | expr => Expr
  | fieldInit => FieldInit
  | stmt => Stmt
  | caseArm => CaseArm
  | handler => Handler
  | exceptBody => ExceptBody
  | type => TypeExpr
  | decl => Decl
  | callable => CallableDecl
  | block => Block
  | unitRef => UnitRef
  | unitEnd => UnitEnd
  | goal => Goal
  | varGroup => VarGroup
  | varInit => VarInit
  | routineName => RoutineName
  | routineHead => RoutineHead
  | param => ParamDecl
  | directive => Directive
  | external => ExternalSpec
  | enumMember => EnumMember
  | variantCase => VariantCase
  | variantPart => VariantPart
  | members => MemberList
  | member => PendingMember
  | propertyFace => PropertyFace
  | propertySpec => PropertySpec
  | list s => List s.Val
  | opt s => Option s.Val

/-- The line of a value: tokens and nodes have one. -/
def line : (s : Shape) → s.Val → Option Nat
  | token, t => some (Token.line t)
  | expr, e => some (Expr.info e).line
  | fieldInit, f => some (FieldInit.info f).line
  | stmt, s => some (Stmt.info s).line
  | caseArm, a => some (CaseArm.info a).line
  | handler, h => some (Handler.info h).line
  | type, t => some (TypeExpr.info t).line
  | decl, d => some (Decl.info d).line
  | callable, d => some (CallableDecl.info d).line
  | block, b => some (Block.info b).line
  | unitRef, u => some (UnitRef.info u).line
  | goal, g => some (Goal.info g).line
  | param, p => some (ParamDecl.info p).line
  | enumMember, m => some (EnumMember.info m).line
  | variantCase, c => some (VariantCase.info c).line
  | variantPart, p => some (VariantPart.info p).line
  | opt _, none => none
  | opt s, some v => s.line v
  | _, _ => none

end Shape

/-- A value with its shape. -/
abbrev Value := (s : Shape) × s.Val

end ObjectPascal.Rule
