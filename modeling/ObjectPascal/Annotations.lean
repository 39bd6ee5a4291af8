import ObjectPascal.Breach
import ObjectPascal.Syntax.Node
import Std.Data.TreeMap

/-!
What is found out about the nodes of a tree. Trees do not change; types, constant values and
declarations are kept beside them under the numbers of the nodes, and so are the expressions that
stand in for others.
-/

namespace ObjectPascal

/-- What is known about one node. -/
structure Annotation where
  type : Option TypeExpr := none
  const : Option Constant := none
  enforceConst : Bool := false
  forcedType : Option TypeExpr := none
  decl : Option Decl := none
  nonLocal : Bool := false
  op : Option BinaryOp := none
deriving Inhabited

/-- The sorts of types that constant values can have. -/
inductive ValueSort where
  | none
  | integral
  | real
  | string
deriving DecidableEq

namespace TypeExpr

/-- The sort of values of a type. A pointer to characters takes string constants. -/
def valueSort : TypeExpr → ValueSort
  | .ordinal .. | .enum .. | .subrange .. => .integral
  | .real .. => .real
  | .rawString .. | .string .. => .string
  | .rawPointer _ _ (some (.ordinal ..)) => .string
  | _ => .none

/-- Whether a type is ordinal. -/
def isOrdinal (t : TypeExpr) : Bool := t.valueSort == .integral

/-- Whether two types are the same node, or refer to one name. -/
def same (t u : TypeExpr) : Bool :=
  t.info == u.info || match t, u with
    | .named t, .named u => t.name.lower == u.name.lower
    | _, _ => false

end TypeExpr

/-- The sort of a constant value. -/
def Constant.sort : Constant → ValueSort
  | integral _ => .integral
  | real _ => .real
  | string _ => .string

/-- Whether a constant value can have a type. -/
def Constant.fits (v : Constant) (type : Option TypeExpr) : Bool :=
  match type with
  | some t => t.valueSort == v.sort
  | none => false

/-- What is found out about a tree. Nodes made later are numbered from `next` on, in 32 bits. -/
structure Annotations where
  notes : Std.TreeMap Nat Annotation := {}
  substitutes : Std.TreeMap Nat Expr := {}
  next : Nat
  origin : Nat := 0

namespace Annotations

/-- How many numbers there are. -/
def numberCount : Nat := Nat.pow 2 32

/-- Nothing is known about a tree whose last node has the given number. -/
def forTree (last : Nat) (origin : Nat := 0) : Annotations :=
  { next := (last + 1) % numberCount, origin }

/-- The number for a new node. -/
def newId (a : Annotations) : Nat × Annotations :=
  (a.next, { a with next := (a.next + 1) % numberCount })

/-- A new node on a line. -/
def newInfo (a : Annotations) (line : Nat) : NodeInfo × Annotations :=
  let (id, b) := a.newId
  ({ id, line, origin := a.origin }, b)

/-- What is known about a node. -/
def get? (a : Annotations) (n : NodeInfo) : Option Annotation := a.notes[n.id]?

/-- The number of nodes about which something is known. -/
def size (a : Annotations) : Nat := a.notes.size

/-- Changes what is known about a node. The node must have a number. -/
def update (a : Annotations) (n : Node) (f : Annotation → Annotation) : Except Breach Annotations :=
  if n.info.id = 0 then .error (.unnumbered n.kindName)
  else .ok { a with notes := a.notes.insert n.info.id (f ((a.get? n.info).getD {})) }

/-- Records a type. -/
def setType (a : Annotations) (n : Node) (type : Option TypeExpr) : Except Breach Annotations :=
  a.update n fun an => { an with type }

/-- The recorded type. -/
def typeOf (a : Annotations) (n : NodeInfo) : Option TypeExpr := (a.get? n).bind (·.type)

/-- Records a constant value, which must fit its type. -/
def setConst (a : Annotations) (n : Node) (type : Option TypeExpr) (v : Constant) :
    Except Breach Annotations :=
  if v.fits type then a.update n fun an => { an with type, const := some v }
  else .error (.unfit v (type.map TypeExpr.kindName))

/-- The recorded constant value. -/
def valueOf (a : Annotations) (n : NodeInfo) : Option Constant := (a.get? n).bind (·.const)

/-- Records that a constant is wanted. -/
def setEnforceConst (a : Annotations) (e : Expr) : Except Breach Annotations :=
  a.update (.expr e) fun an => { an with enforceConst := true }

/-- Records the type that a context asks for. -/
def setForcedType (a : Annotations) (e : Expr) (type : Option TypeExpr) :
    Except Breach Annotations :=
  a.update (.expr e) fun an => { an with forcedType := type }

/-- Records the declaration that a node refers to. -/
def bind (a : Annotations) (n : Node) (d : Decl) : Except Breach Annotations :=
  a.update n fun an => { an with decl := some d }

/-- Records the declaration that a node refers to, if there is one. -/
def bindFound (a : Annotations) (n : Node) : Option Decl → Except Breach Annotations
  | none => .ok a
  | some d => a.bind n d

/-- The recorded declaration. -/
def declOf (a : Annotations) (n : NodeInfo) : Option Decl := (a.get? n).bind (·.decl)

/-- Records that a name denotes a variable of an enclosing routine. -/
def markNonLocal (a : Annotations) (n : Node) : Except Breach Annotations :=
  a.update n fun an => { an with nonLocal := true }

/-- Whether that is recorded. -/
def isNonLocal (a : Annotations) (n : NodeInfo) : Bool := ((a.get? n).map (·.nonLocal)).getD false

/-- Records the operator that is meant. -/
def refine (a : Annotations) (e : Expr) (op : BinaryOp) : Except Breach Annotations :=
  a.update (.expr e) fun an => { an with op := some op }

/-- The operator that is meant by one that is written. -/
def opOf (a : Annotations) (n : NodeInfo) (op : BinaryOp) : BinaryOp :=
  ((a.get? n).bind (·.op)).getD op

/-- Lets one expression stand in for another. -/
def substitute (a : Annotations) (e by_ : Expr) : Annotations :=
  { a with substitutes := a.substitutes.insert e.info.id by_ }

/-- What stands in for an expression after at most `n` replacements. -/
def effectiveWithin (a : Annotations) : Nat → Expr → Expr
  | 0, e => e
  | n + 1, e =>
    match a.substitutes[e.info.id]? with
    | none => e
    | some r => a.effectiveWithin n r

/-- What stands in for an expression. -/
def effective (a : Annotations) (e : Expr) : Expr := a.effectiveWithin 8 e

/-- Whether two expressions are known to be the same constant, however they are written. -/
def equal (a : Annotations) (e f : Expr) : Bool :=
  match a.get? (a.effective e).info, a.get? (a.effective f).info with
  | some { type := some t, const := some v, .. }, some { type := some u, const := some w, .. } =>
    t.same u && v.equal w
  | _, _ => false

/-- The ordinal value of an expression, which must have one. -/
def integralOf (a : Annotations) (e : Expr) : Except Breach Integral :=
  match a.get? (a.effective e).info with
  | none => .error (.noIntegralType e.info.line)
  | some an =>
    if (an.type.map TypeExpr.isOrdinal).getD false then
      match an.const with
      | some (.integral v) => .ok v
      | _ => .error (.noIntegralValue e.info.line)
    else .error (.noIntegralType e.info.line)

end Annotations
end ObjectPascal
