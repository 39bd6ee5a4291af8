import ObjectPascal.Decimal.Double
import ObjectPascal.Syntax.Decl
import ObjectPascal.Text.Case
import ObjectPascal.Text.Quoted

/-!
Values known before a program runs. They do not depend on the syntax that gave them.
-/

namespace ObjectPascal

/-- An ordinal value as 64 bits. A signed value reads them as two's complement. `enum` names the
enumeration that a value of that kind belongs to. -/
structure Integral where
  bits : UInt64
  kind : OrdinalKind := .integer
  signed : Bool := false
  enum : Text := ∅
deriving DecidableEq, Inhabited

namespace Integral

/-- A signed integer. -/
def ofInt64 (n : Int64) : Integral := { bits := n.toUInt64, signed := true }

/-- An unsigned integer. -/
def ofUInt64 (n : UInt64) : Integral := { bits := n }

/-- A character by its code. A negative code keeps its sign in all bits. -/
def ofCode (n : Int32) : Integral := { bits := n.toInt64.toUInt64, kind := .char }

/-- A truth value. -/
def ofBool (b : Bool) : Integral := { bits := if b then 1 else 0, kind := .boolean }

/-- A member of an enumeration by its position. -/
def ofEnum (enum : Text) (n : UInt64) : Integral := { bits := n, kind := .enum, enum }

/-- The bits as a signed number. -/
def toInt64 (v : Integral) : Int64 := v.bits.toInt64

/-- Every value but zero is true. -/
def toBool (v : Integral) : Bool := v.bits != 0

/-- The bits as the code of a character. -/
def code (v : Integral) : Int32 := v.bits.toUInt32.toInt32

/-- The character with the code of the value. -/
def char (v : Integral) : Char :=
  if v.code < 0 then Text.replacement else Text.charOfCode v.code.toInt.toNat

/-- Whether two values belong to the same kind; enumerations count by their names. -/
def sameKind (v w : Integral) : Bool :=
  v.kind == w.kind && (v.kind != .enum || v.enum.lower == w.enum.lower)

/-- Values are compared as signed numbers if either is signed. -/
def less (v w : Integral) : Bool :=
  if v.signed || w.signed then v.toInt64 < w.toInt64 else v.bits < w.bits

/-- Two values are equal if they have the same kind and the same bits. -/
def equal (v w : Integral) : Bool := v.sameKind w && v.bits == w.bits

/-- How a value is written. -/
def text (v : Integral) : Text :=
  match v.kind with
  | .boolean => if v.bits = 0 then "False" else "True"
  | .char => "#" ++ Text.ofNat v.bits.toNat
  | .enum => v.enum ++ "(" ++ Text.ofNat v.bits.toNat ++ ")"
  | .integer => if v.signed then Text.ofInt v.toInt64.toInt else Text.ofNat v.bits.toNat

/-- Why two values bound no range. -/
inductive RangeFault where
  | mixed (low high : OrdinalKind)
  | negative (low high : Integral)
deriving DecidableEq

/-- The wording of such a fault. -/
def RangeFault.message : RangeFault → Text
  | mixed l h => "range between " ++ Text.ofString l.spelling ++ " and " ++ h.spelling ++ " values"
  | negative l h => "negative range " ++ l.text ++ ".." ++ h.text

/-- The distance from `v` up to `w`. -/
def range (v w : Integral) : Except RangeFault UInt64 :=
  if !v.sameKind w then .error (.mixed v.kind w.kind)
  else if w.less v then .error (.negative v w)
  else .ok (w.bits - v.bits)

end Integral

/-- A value known before a program runs. -/
inductive Constant where
  | integral (v : Integral)
  | string (t : Text)
  | real (v : Float)

namespace Constant

/-- Values of different sorts are never equal. -/
def equal : Constant → Constant → Bool
  | integral v, integral w => v.equal w
  | string a, string b => a == b
  | real v, real w => v == w
  | _, _ => false

/-- How a value is written. -/
def text : Constant → Text
  | integral v => v.text
  | string t => t.quoted
  | real v => Decimal.realText v

/-- The text that a string or a character stands for. -/
def string? : Constant → Option Text
  | string t => some t
  | integral v => if v.kind = .char then some (Text.ofChars [v.char]) else none
  | real _ => none

/-- The number that a real value or an integer stands for. -/
def real? : Constant → Option Float
  | real v => some v
  | integral v =>
    if v.kind = .integer then some (if v.signed then v.toInt64.toFloat else v.bits.toFloat)
    else none
  | string _ => none

end Constant
end ObjectPascal
