import ObjectPascal.Annotations
import ObjectPascal.Complaint
import ObjectPascal.Constant.Operation
import ObjectPascal.Scope.Basic

/-!
Constant values with their types: literals, and what operators and the functions of the language
give for constant operands.
-/

namespace ObjectPascal.Folding

/-- A constant value with its type. -/
abbrev Typed := Option TypeExpr × Constant

/-- Whether a type has eight bytes. -/
def isWide : Option TypeExpr → Bool
  | some (.ordinal _ _ _ size _) => size == 8
  | _ => false

/-- A whole number as it is written: the first of the signed types, or else the largest unsigned
one, that holds it. -/
def literal (s : Scopes) (n : UInt64) : Typed :=
  if n ≤ 0x7FFFFFFF then (s.builtin? "Integer", .integral (.ofInt64 n.toInt64))
  else if n ≤ 0x7FFFFFFFFFFFFFFF then (s.builtin? "Int64", .integral (.ofInt64 n.toInt64))
  else (s.builtin? "UInt64", .integral (.ofUInt64 n))

/-- A signed result has eight bytes if an operand has, or if it does not fit four. -/
def signedResult (s : Scopes) (l r : Option TypeExpr) (x : Int64) : Typed :=
  let wide := isWide l || isWide r || x < -0x80000000 || 0x7FFFFFFF < x
  (s.builtin? (if wide then "Int64" else "Integer"), .integral (.ofInt64 x))

/-- An unsigned result has eight bytes if an operand has, or if it does not fit four. -/
def unsignedResult (s : Scopes) (l r : Option TypeExpr) (x : UInt64) : Typed :=
  let wide := isWide l || isWide r || 0xFFFFFFFF < x
  (s.builtin? (if wide then "UInt64" else "Cardinal"), .integral (.ofUInt64 x))

/-- A truth value. -/
def truth (s : Scopes) (b : Bool) : Typed := (s.builtin? "Boolean", .integral (.ofBool b))

/-- A string. -/
def stringResult (s : Scopes) (t : Text) : Typed := (s.builtin? "string", .string t)

/-- An operator with one operand. -/
def unary (s : Scopes) (op : UnaryOp) (type : Option TypeExpr) (v : Constant) : Option Typed :=
  match op, v with
  | .plus, v => some (type, v)
  | .minus, .integral i =>
    if i.kind = .integer then some (signedResult s type none (-i.toInt64)) else none
  | .minus, .real x => some (type, .real (-x))
  | .not, .integral i =>
    match i.kind with
    | .boolean => some (type, .integral (.ofBool (!i.toBool)))
    | .integer =>
      let bits := ~~~ i.bits
      let kept := match type with
        | some (.ordinal _ _ _ size _) =>
          if !i.signed && size < 8 then bits &&& ((1 <<< (size * 8).toUInt64) - 1) else bits
        | _ => bits
      some (type, .integral { i with bits := kept })
    | _ => none
  | _, _ => none

/-- An operator with two ordinal operands. -/
def integral (s : Scopes) (op : BinaryOp) (lt rt : Option TypeExpr) (l r : Integral) :
    Except Complaint (Option Typed) :=
  if l.kind = .boolean && r.kind = .boolean then
    .ok ((op.onBool l.toBool r.toBool).map fun b => (lt, .integral (.ofBool b)))
  else if l.kind = .char && r.kind = .char && op = .add then
    .ok (some (stringResult s (Text.ofChars [l.char, r.char])))
  else if l.kind != .integer || r.kind != .integer then .ok none
  else if (op = .div || op = .mod) && r.bits = 0 then .error .divisionByZero
  else if l.signed || r.signed then
    .ok ((op.onSigned l.toInt64 r.toInt64).map (signedResult s lt rt))
  else .ok ((op.onUnsigned l.bits r.bits).map (unsignedResult s lt rt))

/-- An operator with two operands that are not both ordinal, or the division of real numbers. -/
def mixed (s : Scopes) (op : BinaryOp) (l r : Constant) : Except Complaint (Option Typed) :=
  match (if op = .add then l.string? else none), r.string? with
  | some a, some b => .ok (some (stringResult s (a ++ b)))
  | _, _ =>
    match l.real?, r.real? with
    | some a, some b =>
      if op = .realDiv && b == 0 then .error .divisionByZero
      else .ok ((op.onReal a b).map fun x => (s.builtin? "Extended", .real x))
    | _, _ => .ok none

/-- An operator of arithmetic or logic. -/
def arithmetic (s : Scopes) (op : BinaryOp) (lt rt : Option TypeExpr) (l r : Constant) :
    Except Complaint (Option Typed) :=
  match l, r with
  | .integral a, .integral b => if op = .realDiv then mixed s op l r else integral s op lt rt a b
  | l, r => mixed s op l r

/-- The size of the values of a type in bytes, 0 if it is not known. -/
def sizeOf (s : Scopes) : TypeExpr → Nat
  | .ordinal _ _ _ size _ | .real _ _ size => size
  | .rawPointer .. | .pointer .. | .classType .. | .classRef .. | .interface .. | .rawString .. =>
    s.config.pointerSize
  | _ => 0

/-- The least or greatest value of an ordinal type. -/
def bound (high : Bool) : TypeExpr → Option Typed
  | .ordinal i name kind size signed =>
    let type := TypeExpr.ordinal i name kind size signed
    let bits := (size * 8).toUInt64
    let value : Integral := match kind with
      | .boolean => .ofBool high
      | .char => .ofCode (if high then ((1 <<< bits) - 1 : UInt64).toUInt32.toInt32 else 0)
      | _ =>
        let half : UInt64 := 1 <<< (bits - 1)
        if signed then .ofInt64 (if high then (half - 1).toInt64 else -half.toInt64)
        else .ofUInt64 (if high then half - 1 + half else 0)
    some (some type, .integral value)
  | _ => none

/-- The functions of the language with a constant argument. -/
def function (s : Scopes) (name : Text) (type : Option TypeExpr) (v : Constant) : Option Typed :=
  match name.toString, v with
  | "ord", .integral i => some (s.builtin? "Integer", .integral (.ofInt64 i.toInt64))
  | "chr", .integral i =>
    if i.kind = .integer then some (s.builtin? "Char", .integral (.ofCode i.code)) else none
  | "succ", .integral i => some (type, .integral { i with bits := i.bits + 1 })
  | "pred", .integral i => some (type, .integral { i with bits := i.bits - 1 })
  | "length", v => v.string?.map fun t => literal s t.chars.length.toUInt64
  | "abs", .integral i =>
    if i.kind = .integer && i.signed && i.toInt64 < 0 then
      some (type, .integral (.ofInt64 (-i.toInt64)))
    else some (type, v)
  | "abs", v => some (type, v)
  | "odd", .integral i =>
    if i.kind = .integer then some (truth s (i.bits &&& 1 == 1)) else none
  | _, _ => none

end ObjectPascal.Folding
