import ObjectPascal.Token.Lexeme

/-!
Version numbers: one to three numeric parts, an optional pre-release behind a hyphen and optional
build data behind a plus sign.
-/

namespace ObjectPascal

/-- A version. -/
structure Version where
  major : UInt64
  minor : UInt64 := 0
  patch : UInt64 := 0
  preRelease : Text := ∅
  build : Text := ∅
deriving DecidableEq

namespace Version

/-- Why a text is no version. -/
inductive Fault where
  | malformed
  | outOfRange (digits : Text)
  | leadingZero
deriving DecidableEq

/-- The wording of a fault. -/
def Fault.message : Fault → Text
  | malformed => "Invalid Semantic Version"
  | outOfRange digits =>
    "Error parsing version segment: strconv.ParseUint: parsing \"" ++ digits ++
      "\": value out of range"
  | leadingZero => "Version segment starts with 0"

/-- The pieces between points. -/
def pieces (s : List UInt8) : List (List UInt8) := s.splitOn 0x2E

/-- A byte of an identifier behind the numeric parts. -/
def isTagByte (b : UInt8) : Bool :=
  isDigit b || (0x41 ≤ b && b ≤ 0x5A) || (0x61 ≤ b && b ≤ 0x7A) || b == 0x2D

/-- Identifiers with points between them. -/
def isTag (s : List UInt8) : Bool := (pieces s).all fun p => !p.isEmpty && p.all isTagByte

/-- A numeric identifier of a pre-release with a zero in front. -/
def hasLeadingZero (p : List UInt8) : Bool :=
  p.all isDigit && 1 < p.length && p.head? == some 0x30

/-- A numeric part. -/
def number (digits : List UInt8) : Except Fault UInt64 :=
  let n := numberOf 10 digits
  if n < Nat.pow 2 64 then .ok (UInt64.ofNat n) else .error (.outOfRange ⟨digits⟩)

/-- The numeric parts at the head of `s`, at most `n`, and what follows. A point counts only with a
digit behind it. -/
def numericParts : Nat → List UInt8 → List (List UInt8) × List UInt8
  | 0, s => ([], s)
  | n + 1, s =>
    match s with
    | p :: rest =>
      let digits := rest.takeWhile isDigit
      if p == 0x2E && !digits.isEmpty then
        let (more, rest) := numericParts n (rest.dropWhile isDigit)
        (digits :: more, rest)
      else ([], s)
    | [] => ([], s)

/-- The pre-release and the build data behind the numeric parts. -/
def tags (s : List UInt8) : Option (List UInt8 × List UInt8) :=
  let (pre, s) :=
    match s with
    | 0x2D :: rest => (some (rest.takeWhile (· != 0x2B)), rest.dropWhile (· != 0x2B))
    | _ => (none, s)
  let (build, s) :=
    match s with
    | 0x2B :: rest => (some rest, [])
    | _ => (none, s)
  if s.isEmpty && pre.all isTag && build.all isTag then some (pre.getD [], build.getD []) else none

/-- Reads a version. -/
def parse (t : Text) : Except Fault Version := do
  let s := match t.bytes with
    | 0x76 :: rest => rest
    | s => s
  let major := s.takeWhile isDigit
  let (more, rest) := numericParts 2 (s.dropWhile isDigit)
  match major.isEmpty, tags rest with
  | false, some (pre, build) =>
    let major ← number major
    let minor ← number (more.getD 0 [])
    let patch ← number (more.getD 1 [])
    if !pre.isEmpty && (pieces pre).any hasLeadingZero then throw .leadingZero
    return { major, minor, patch, preRelease := ⟨pre⟩, build := ⟨build⟩ }
  | _, _ => throw .malformed

/-- Whether the version is a release with at least the given first number. A pre-release satisfies
no such demand. -/
def isAtLeast (v : Version) (major : UInt64) : Bool := v.preRelease.isEmpty && major ≤ v.major

end Version
end ObjectPascal
