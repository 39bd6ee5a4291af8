import ObjectPascal.Constant.Basic

/-!
Faults of a caller. They tell of a broken rule inside the program and never of a fault in a source.
-/

namespace ObjectPascal

/-- A rule that a caller did not keep. A search that never ends counts as one, and nothing comes
after it. -/
inductive Breach where
  | unnumbered (kind : String)
  | unfit (value : Constant) (type : Option String)
  | noIntegralType (line : Nat)
  | noIntegralValue (line : Nat)
  | range (fault : Integral.RangeFault)
  | bottomLeft
  | methodDepth (type method : Text) (depth expected : Nat)
  | methodFrame (type method top : Text)
  | unexpectedDecl (kind : String)
  | endless

namespace Breach

/-- How a message shows the kind of a node. -/
def shownKind (kind : String) : Text := "*Delphi." ++ kind

/-- The wording of a breach. -/
def message : Breach → Text
  | unnumbered kind => "annotating a node without id (" ++ shownKind kind ++ ")"
  | unfit v type =>
    "constant " ++ v.text ++ " does not fit type " ++
      (match type with
        | some kind => shownKind kind
        | none => "<nil>")
  | noIntegralType line => "expression at line " ++ Text.ofNat line ++ " has no integral type"
  | noIntegralValue line => "expression at line " ++ Text.ofNat line ++ " has no integral value"
  | range f => f.message
  | bottomLeft => "leaving the runtime frame"
  | methodDepth type method depth expected =>
    "leaving method " ++ type ++ "." ++ method ++ " at depth " ++ Text.ofNat depth ++
      ", expected " ++ Text.ofNat expected
  | methodFrame type method top =>
    "leaving method " ++ type ++ "." ++ method ++ " but top frame is " ++ top
  | unexpectedDecl kind => "unexpected declaration " ++ shownKind kind
  | endless => "stack overflow"

end Breach
end ObjectPascal
