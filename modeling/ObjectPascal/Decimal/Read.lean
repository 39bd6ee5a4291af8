import ObjectPascal.Token.Lexeme

/-!
Reading a decimal number as the nearest double.
-/

namespace ObjectPascal.Decimal

/-- A decimal number without sign: `digits * 10 ^ exponent`. -/
structure Parts where
  digits : Nat
  exponent : Int
deriving DecidableEq

/-- The parts of a number written as digits, an optional fraction and an optional exponent. -/
def parts (s : List UInt8) : Parts :=
  let whole := s.takeWhile isDigit
  let rest := s.dropWhile isDigit
  let fraction := if rest.head? = some 0x2E then (rest.drop 1).takeWhile isDigit else []
  let rest := if rest.head? = some 0x2E then (rest.drop 1).dropWhile isDigit else rest
  let power : Int :=
    match rest with
    | _ :: 0x2D :: digits => -(numberOf 10 digits : Nat)
    | _ :: 0x2B :: digits => numberOf 10 digits
    | _ :: digits => numberOf 10 digits
    | [] => 0
  ⟨numberOf 10 (whole ++ fraction), power - fraction.length⟩

/-- The nearest double; there is none if the number is too large. Numbers far below the least double
are zero. -/
def Parts.float? (p : Parts) : Option Float :=
  let size : Int := (Nat.toDigits 10 p.digits).length + p.exponent
  if p.digits = 0 then some 0
  else if 310 < size then none
  else if size < -400 then some 0
  else
    let x := Float.ofScientific p.digits (p.exponent < 0) p.exponent.natAbs
    if x.isInf then none else some x

/-- The double that a literal denotes. -/
def float? (t : Text) : Option Float := (parts t.bytes).float?

end ObjectPascal.Decimal
