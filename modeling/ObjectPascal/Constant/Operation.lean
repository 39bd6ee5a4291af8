import ObjectPascal.Constant.Basic

/-!
Operators on constant values, apart from the types of their results. Whole numbers wrap in 64 bits,
and only the low six bits of the right operand of a shift count.
-/

namespace ObjectPascal

/-- What an operator gives for signed numbers. Division goes toward zero. A shift to the right moves
zeros in. -/
def BinaryOp.onSigned (op : BinaryOp) (a b : Int64) : Option Int64 :=
  match op with
  | .add => some (a + b)
  | .sub => some (a - b)
  | .mul => some (a * b)
  | .div => some (a / b)
  | .mod => some (a % b)
  | .shl => some (a.toUInt64 <<< (b.toUInt64 &&& 63)).toInt64
  | .shr => some (a.toUInt64 >>> (b.toUInt64 &&& 63)).toInt64
  | .and => some (a &&& b)
  | .or => some (a ||| b)
  | .xor => some (a ^^^ b)
  | _ => none

/-- What an operator gives for unsigned numbers. -/
def BinaryOp.onUnsigned (op : BinaryOp) (a b : UInt64) : Option UInt64 :=
  match op with
  | .add => some (a + b)
  | .sub => some (a - b)
  | .mul => some (a * b)
  | .div => some (a / b)
  | .mod => some (a % b)
  | .shl => some (a <<< (b &&& 63))
  | .shr => some (a >>> (b &&& 63))
  | .and => some (a &&& b)
  | .or => some (a ||| b)
  | .xor => some (a ^^^ b)
  | _ => none

/-- What an operator gives for truth values. -/
def BinaryOp.onBool (op : BinaryOp) (a b : Bool) : Option Bool :=
  match op with
  | .and => some (a && b)
  | .or => some (a || b)
  | .xor => some (a != b)
  | _ => none

/-- What an operator gives for real numbers. -/
def BinaryOp.onReal (op : BinaryOp) (a b : Float) : Option Float :=
  match op with
  | .add => some (a + b)
  | .sub => some (a - b)
  | .mul => some (a * b)
  | .realDiv => some (a / b)
  | _ => none

/-- Whether a comparison holds, given how the left operand compares with the right one. -/
def BinaryOp.holds (op : BinaryOp) (o : Ordering) : Bool :=
  match op with
  | .eq => o == .eq
  | .ne => o != .eq
  | .lt | .ltSigned => o == .lt
  | .le | .leSigned => o != .gt
  | .gt | .gtSigned => o == .gt
  | .ge | .geSigned => o != .lt
  | _ => false

namespace Integral

/-- How two values compare. -/
def compare (v w : Integral) : Ordering :=
  if v.less w then .lt else if w.less v then .gt else .eq

end Integral

/-- How two texts compare byte by byte. -/
def Text.compare (a b : Text) : Ordering := if a == b then .eq else if a.le b then .lt else .gt

/-- How two values compare, if they can be compared: ordinal values of one kind, strings and
characters, numbers. What is not a number counts as equal to all. -/
def Constant.compare? (v w : Constant) : Option Ordering :=
  match v, w with
  | .integral a, .integral b => if a.kind = b.kind then some (a.compare b) else none
  | v, w =>
    match v.string?, w.string? with
    | some a, some b => some (Text.compare a b)
    | _, _ =>
      match v.real?, w.real? with
      | some a, some b => some (if a < b then .lt else if b < a then .gt else .eq)
      | _, _ => none

end ObjectPascal
