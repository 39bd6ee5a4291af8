import ObjectPascal.Text.Basic

/-!
Double precision numbers taken apart exactly. A finite double is a whole number times a power of
two; `Double.ofFloat` finds both, so that decimal forms can be computed without rounding.
-/

namespace ObjectPascal

/-- A double: not a number, an infinity, or `mantissa * 2 ^ exponent` with a sign. `narrow` says
that the next smaller double is only half as far away as the next greater one. -/
inductive Double where
  | nan
  | infinite (negative : Bool)
  | finite (negative : Bool) (mantissa : Nat) (exponent : Int) (narrow : Bool)
deriving DecidableEq

namespace Double

/-- The parts of the double with the given bits. -/
def ofBits (bits : UInt64) : Double :=
  let b := bits.toNat
  let negative := b.testBit 63
  let exponent : Nat := b / Nat.pow 2 52 % Nat.pow 2 11
  let fraction : Nat := b % Nat.pow 2 52
  if exponent = 2047 then if fraction = 0 then infinite negative else nan
  else if exponent = 0 then finite negative fraction (-1074) false
  else
    finite negative (fraction + Nat.pow 2 52) ((exponent : Int) - 1075)
      (fraction = 0 && exponent > 1)

/-- The parts of a double. -/
def ofFloat (x : Float) : Double := ofBits x.toBits

end Double

/-- The nearest whole number to `num / den`; a half goes to the even neighbour. -/
def roundDiv (num den : Nat) : Nat :=
  let q := num / den
  let r := num % den
  if 2 * r < den then q else if den < 2 * r then q + 1 else if q % 2 = 0 then q else q + 1

end ObjectPascal

/-!
The fewest decimal digits that read back as a given double. All numbers between the midpoints to
the neighbouring doubles read back; the midpoints do if the mantissa is even. On the grid of `n`
digits only the two neighbours of the value need a look.
-/

namespace ObjectPascal.Decimal

/-- The numbers that read back as a double, as fractions over one denominator: the value, and the
ends of the interval. -/
structure Interval where
  value : Nat
  low : Nat
  high : Nat
  den : Nat
  closed : Bool

/-- The interval of `mantissa * 2 ^ exponent`. -/
def interval (mantissa : Nat) (exponent : Int) (narrow : Bool) : Interval :=
  let up := Nat.pow 2 exponent.toNat
  let down := Nat.pow 2 (-exponent).toNat
  { value := 4 * mantissa * up
    low := (4 * mantissa - (if narrow then 1 else 2)) * up
    high := (4 * mantissa + 2) * up
    den := 4 * down
    closed := mantissa % 2 = 0 }

/-- Whether `n` times the power of ten `10 ^ x` reads back. -/
def Interval.holds (i : Interval) (n : Nat) (x : Int) : Bool :=
  let left := n * Nat.pow 10 x.toNat * i.den
  let scale := Nat.pow 10 (-x).toNat
  if i.closed then i.low * scale ≤ left && left ≤ i.high * scale
  else i.low * scale < left && left < i.high * scale

/-- The number of decimal digits. -/
def digitCount (n : Nat) : Nat := (Nat.toDigits 10 n).length

/-- The least `k` up to `fuel` for which `num * 10 ^ k` is not below `den`. -/
def leadingZeros (num den : Nat) : Nat → Nat
  | 0 => 0
  | fuel + 1 => if den ≤ num then 0 else leadingZeros (num * 10) den fuel + 1

/-- The power of ten of the first digit of `num / den`. -/
def magnitude (num den : Nat) : Int :=
  if den ≤ num then digitCount (num / den) - 1 else -(leadingZeros num den 400 : Nat)

/-- The digits of `n` without the zeros at its end, and their power of ten. -/
def stripZeros : Nat → Nat → Int → Nat × Int
  | 0, n, x => (n, x)
  | fuel + 1, n, x => if n ≠ 0 ∧ n % 10 = 0 then stripZeros fuel (n / 10) (x + 1) else (n, x)

/-- The number nearest to the value on the grid of multiples of `10 ^ x`, if one reads back. -/
def Interval.onGrid (i : Interval) (x : Int) : Option Nat :=
  let num := i.value * Nat.pow 10 (-x).toNat
  let den := i.den * Nat.pow 10 x.toNat
  let below := num / den
  match i.holds below x, i.holds (below + 1) x with
  | true, true => some (roundDiv num den)
  | true, false => some below
  | false, true => some (below + 1)
  | false, false => none

/-- The first grid of at least `n` digits with a number that reads back. -/
def Interval.search (i : Interval) (top : Int) : Nat → Nat → Nat × Int
  | 0, n => ((i.onGrid (top - n + 1)).getD 0, top - n + 1)
  | fuel + 1, n =>
    match i.onGrid (top - n + 1) with
    | some d => (d, top - n + 1)
    | none => i.search top fuel (n + 1)

/-- The shortest digits of a positive double, without a zero at their end, and their power of
ten. -/
def shortest (mantissa : Nat) (exponent : Int) (narrow : Bool) : Nat × Int :=
  let i := interval mantissa exponent narrow
  let (n, x) := i.search (magnitude i.value i.den) 17 1
  stripZeros 20 n x

/-- An exponent with its sign and at least two digits. -/
def exponentText (x : Int) : String :=
  (if x < 0 then "-" else "+") ++ (if x.natAbs < 10 then "0" else "") ++ toString x.natAbs

/-- Digits in positional notation, where the first has the power of ten `x`. -/
def positional (digits : List Char) (x : Int) : List Char :=
  if x < 0 then '0' :: '.' :: (List.replicate ((-x).toNat - 1) '0' ++ digits)
  else
    let whole := x.toNat + 1
    let front := digits.take whole ++ List.replicate (whole - digits.length) '0'
    match digits.drop whole with
    | [] => front
    | rest => front ++ '.' :: rest

/-- Digits with an exponent. -/
def scientific (digits : List Char) (x : Int) : List Char :=
  let tail := match digits.drop 1 with
    | [] => []
    | rest => '.' :: rest
  digits.take 1 ++ tail ++ 'e' :: (exponentText x).toList

/-- A double in the fewest digits. It is written with an exponent if the power of ten of its first
digit is below -4 or not below `plain`. -/
def text (plain : Int) (v : Float) : String :=
  match Double.ofFloat v with
  | .nan => "NaN"
  | .infinite negative => if negative then "-Inf" else "+Inf"
  | .finite negative mantissa exponent narrow =>
    let sign := if negative then "-" else ""
    if mantissa = 0 then sign ++ "0"
    else
      let (n, x) := shortest mantissa exponent narrow
      let digits := Nat.toDigits 10 n
      let first := x + digits.length - 1
      sign ++ String.ofList
        (if first < -4 ∨ plain ≤ first then scientific digits first else positional digits first)

/-- Real constants are written with an exponent from a million on. -/
def realText (v : Float) : Text := text 6 v

end ObjectPascal.Decimal

/-!
A double with a fixed number of places behind the point, rounded to the nearest.
-/

namespace ObjectPascal.Decimal

/-- A finite double with one place behind the point; a half goes to the even neighbour. -/
def onePlace (v : Float) : Text :=
  match Double.ofFloat v with
  | .nan => "NaN"
  | .infinite negative => if negative then "-Inf" else "+Inf"
  | .finite negative mantissa exponent _ =>
    let tenths := roundDiv (mantissa * 10 * Nat.pow 2 exponent.toNat)
      (Nat.pow 2 (-exponent).toNat)
    (if negative then "-" else "") ++ Text.ofNat (tenths / 10) ++ "." ++ Text.ofNat (tenths % 10)

end ObjectPascal.Decimal
