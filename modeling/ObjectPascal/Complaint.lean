import ObjectPascal.Constant.Basic
import ObjectPascal.Scope.Frame

/-!
Faults of a source that are found after it is parsed.
-/

namespace ObjectPascal

/-- A fault of a source. -/
inductive Complaint where
  | scope (e : ScopeError)
  | notConstant
  | labelNotOrdinal
  | duplicateLabel (v : Integral)
  | boundNotOrdinal
  | emptyRange (low high : Integral)
  | divisionByZero
  | inConstant (name : Text) (c : Complaint)

namespace Complaint

/-- The wording of a complaint. -/
def message : Complaint → Text
  | scope e => e.message
  | notConstant => "constant expression expected"
  | labelNotOrdinal => "constant expression expected: case label is not ordinal"
  | duplicateLabel v => "duplicate case label: " ++ v.text
  | boundNotOrdinal => "invalid range: bound is not an ordinal constant"
  | emptyRange low high => "invalid range: " ++ low.text ++ ".." ++ high.text
  | divisionByZero => "division by zero"
  | inConstant name c => "constant " ++ name ++ ": " ++ c.message

end Complaint

/-- A complaint about a line of a file. -/
structure Finding where
  path : Text
  line : Nat
  complaint : Complaint

/-- The wording of a finding. -/
def Finding.message (f : Finding) : Text :=
  (if f.path.isEmpty then ∅ else f.path ++ Text.ofString ":") ++ Text.ofNat f.line ++
    Text.ofString ": " ++ f.complaint.message

end ObjectPascal
