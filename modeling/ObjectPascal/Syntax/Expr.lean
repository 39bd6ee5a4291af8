import ObjectPascal.Syntax.Operator

/-!
Expressions. Every node carries its number, which is unique within one tree, and its line.
-/

namespace ObjectPascal

/-- What every node of a tree carries. Numbers are given in the order of construction. Nodes of
different trees may share a number; `origin` tells them apart. -/
structure NodeInfo where
  id : Nat
  line : Nat
  origin : Nat := 0
deriving DecidableEq, Inhabited

mutual

/-- An expression. A `name` may denote a variable or a call without arguments; an `ident` is known
to denote a value, type or unit. Arguments are absent where no parentheses are written. -/
inductive Expr where
  | int (info : NodeInfo) (value : UInt64) (text : Text)
  | real (info : NodeInfo) (value : Float) (text : Text)
  | char (info : NodeInfo) (code : Nat)
  | string (info : NodeInfo) (value : Text)
  | bool (info : NodeInfo) (value : Bool)
  | nil (info : NodeInfo)
  | array (info : NodeInfo) (elems : List Expr)
  | record (info : NodeInfo) (fields : List FieldInit)
  | set (info : NodeInfo) (elems : List Expr)
  | range (info : NodeInfo) (low high : Expr)
  | unary (info : NodeInfo) (op : UnaryOp) (operand : Expr)
  | binary (info : NodeInfo) (op : BinaryOp) (left right : Expr)
  | ident (info : NodeInfo) (name : Text)
  | call (info : NodeInfo) (callee : Expr) (args : Option (List Expr))
  | field (info : NodeInfo) (object : Expr) (name : Text)
  | index (info : NodeInfo) (array : Expr) (indexes : List Expr)
  | deref (info : NodeInfo) (pointer : Expr)
  | inherited (info : NodeInfo) (method : Text) (args : Option (List Expr))
  | name (info : NodeInfo) (name : Text)
  | result (info : NodeInfo) (routine : Text)

/-- A field of a record constant with its value. -/
structure FieldInit where
  info : NodeInfo
  name : Text
  value : Expr

end

namespace Expr

/-- Number and line of an expression. -/
def info : Expr → NodeInfo
  | int i _ _ | real i _ _ | char i _ | string i _ | bool i _ | nil i | array i _ | record i _
  | set i _ | range i _ _ | unary i _ _ | binary i _ _ _ | ident i _ | call i _ _ | field i _ _
  | index i _ _ | deref i _ | inherited i _ _ | name i _ | result i _ => i

instance : Inhabited Expr := ⟨nil default⟩

/-- The name of the kind of an expression. -/
def kindName : Expr → String
  | int .. => "IntLiteral"
  | real .. => "RealLiteral"
  | char .. => "CharLiteral"
  | string .. => "StringLiteral"
  | bool .. => "BoolLiteral"
  | nil .. => "NilLiteral"
  | array .. => "ArrayConst"
  | record .. => "RecordConst"
  | set .. => "SetConstructor"
  | range .. => "RangeExpr"
  | unary .. => "UnaryExpr"
  | binary .. => "BinaryExpr"
  | ident .. => "Identifier"
  | call .. => "RoutineCall"
  | field .. => "FieldAccess"
  | index .. => "ArrayAccess"
  | deref .. => "PointerDeref"
  | inherited .. => "InheritedCall"
  | name .. => "UnresolvedName"
  | result .. => "ResultRef"

/-- Whether the expression has the form of a place that can be assigned to. -/
def isPlace : Expr → Bool
  | ident .. | name .. | field .. | index .. | deref .. | result .. => true
  | _ => false

end Expr
end ObjectPascal
