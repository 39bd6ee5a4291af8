/-!
Readers that the formats of settings share. A reader takes characters from the front of what is
left, or refuses.
-/

namespace ObjectPascal

/-- Takes characters from the front of a text, or refuses it. -/
abbrev Scan := StateT (List Char) Option

namespace Scan

/-- Refuses the text. -/
def refuse {α : Type} : Scan α := fun _ => none

/-- Goes on only if a condition holds. -/
def require (b : Bool) : Scan Unit := if b then pure () else refuse

/-- The next character, which is not taken. -/
def peek : Scan (Option Char) := fun cs => some (cs.head?, cs)

/-- Takes one character. -/
def one : Scan Char
  | [] => none
  | c :: rest => some (c, rest)

/-- Takes all characters of a class. -/
def span (p : Char → Bool) : Scan (List Char) := fun cs => some (cs.takeWhile p, cs.dropWhile p)

/-- Takes a fixed text if it comes next, and tells whether it did. -/
def accept (s : String) : Scan Bool := fun cs =>
  if s.toList.isPrefixOf cs then some (true, cs.drop s.length) else some (false, cs)

/-- Takes a fixed text, which must come next. -/
def expect (s : String) : Scan Unit := do require (← accept s)

/-- Takes blanks and tabs. -/
def blanks : Scan Unit := do let _ ← span fun c => c == ' ' || c == '\t'

/-- The value of a hexadecimal digit. -/
def hexValue? (c : Char) : Option Nat :=
  if c.isDigit then some (c.toNat - 48)
  else if 'a' ≤ c ∧ c ≤ 'f' then some (c.toNat - 87)
  else if 'A' ≤ c ∧ c ≤ 'F' then some (c.toNat - 55)
  else none

/-- Takes `n` hexadecimal digits behind a number that is already read. -/
def hexNumber : Nat → Nat → Scan Nat
  | 0, value => pure value
  | n + 1, value => do
    match hexValue? (← one) with
    | some d => hexNumber n (value * 16 + d)
    | none => refuse

/-- Takes the character whose code is given by `n` hexadecimal digits. -/
def hexChar (n : Nat) : Scan Char := do
  let code ← hexNumber n 0
  require (decide code.isValidChar)
  return Char.ofNat code

end Scan

end ObjectPascal

/-!
Days and times of day. A format has two digits for every number but the year, or lets a zero in
front be left out.
-/

namespace ObjectPascal.Moment

open Scan

/-- The number of days in a month. -/
def daysIn (year month : Nat) : Nat :=
  if month = 2 then
    if year % 4 = 0 && (year % 100 != 0 || year % 400 = 0) then 29 else 28
  else if [4, 6, 9, 11].contains month then 30
  else 31

/-- Takes a number of two digits, or of one if that is allowed. -/
def twoDigits (isFixed : Bool) : Scan Nat := do
  let digits := ((← get).take 2).takeWhile Char.isDigit
  require (digits.length = 2 || (digits.length = 1 && !isFixed))
  modify (·.drop digits.length)
  return digits.foldl (fun v c => v * 10 + (c.toNat - 48)) 0

/-- Takes a number of two digits that is below a bound. -/
def below (isFixed : Bool) (bound : Nat) : Scan Unit := do require ((← twoDigits isFixed) < bound)

/-- Takes a day: year, month and day of the month. -/
def day (isFixed : Bool) : Scan Unit := do
  let year := (← twoDigits true) * 100 + (← twoDigits true)
  expect "-"
  let month ← twoDigits isFixed
  expect "-"
  let day ← twoDigits isFixed
  require (1 ≤ month && month ≤ 12 && 1 ≤ day && day ≤ daysIn year month)

/-- Takes a time of day with seconds and perhaps their fractions. -/
def time (isFixed : Bool) : Scan Unit := do
  below isFixed 24
  expect ":"
  below isFixed 60
  expect ":"
  below isFixed 60
  match ← get with
  | point :: digit :: rest =>
    if (point == '.' || point == ',') && digit.isDigit then set (rest.dropWhile Char.isDigit)
  | _ => pure ()

/-- Takes the distance to universal time, which is at most a day and an hour. -/
def zone : Scan Unit := do
  if ← accept "Z" then return
  unless (← accept "+") || (← accept "-") do refuse
  below true 25
  expect ":"
  below true 61

/-- Whether a reader takes a whole text. -/
def isWhole (read : Scan Unit) (cs : List Char) : Bool :=
  match read.run cs with
  | some (_, []) => true
  | _ => false

end ObjectPascal.Moment
