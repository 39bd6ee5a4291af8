import ObjectPascal.Decimal.Read
import ObjectPascal.Rule.Build
import ObjectPascal.Token.Lexeme

/-!
Expressions.
-/

namespace ObjectPascal.Rule

/-- The tokens that are operators with two operands, in the order of the token kinds. -/
def operators : List (Kind × BinaryOp) :=
  [(.plus, .add), (.minus, .sub), (.star, .mul), (.slash, .realDiv), (.equal, .eq),
    (.notEqual, .ne), (.less, .lt), (.lessEqual, .le), (.greater, .gt), (.greaterEqual, .ge),
    (.AND, .and), (.AS, .asType), (.DIV, .div), (.IN, .memberOf), (.IS, .isType), (.MOD, .mod),
    (.OR, .or), (.SHL, .shl), (.SHR, .shr), (.XOR, .xor)]

/-- The integer that a literal denotes, if it fits 64 bits. A dollar sign begins hexadecimal
digits. -/
def integer? (t : Text) : Option UInt64 :=
  let n := match t.bytes with
    | 0x24 :: digits => numberOf 16 digits
    | digits => numberOf 10 digits
  if n < Nat.pow 2 64 then some n.toUInt64 else none

/-- An integer. -/
def integerOf (t : Token) : Build Expr := do
  match integer? t.text with
  | some n => return .int (← node) n t.text
  | none => reject t.line ("integer literal out of range: " ++ t.text)

/-- A real number that is not too large. -/
def realOf (t : Token) : Build Expr := do
  match Decimal.float? t.text with
  | some v => return .real (← node) v t.text
  | none => reject t.line ("invalid real literal " ++ t.text)

/-- A string; one with a single character is a character. -/
def stringOf (t : Token) : Build Expr := do
  match t.text.chars with
  | [c] => return .char (← node) c.toNat
  | _ => return .string (← node) t.text

/-- Attaches arguments. A call of an inherited method stays one. -/
def callOf (callee : Expr) (args : List Expr) : Build Expr := do
  match callee with
  | .inherited _ method none => return .inherited (← node) method (some args)
  | e => return .call (← node) e (some args)

/-- A conversion by the word for strings; the call is numbered before its callee. -/
def stringCall (e : Expr) : Build Expr := do
  let info ← node
  return .call info (.ident (← node) "string") (some [e])

open Kind Phrase

/-- Operators. -/
def operations : List Rule := [
  rule exprList [expr] fun e => give [e],
  rule exprList [exprList, comma, expr] fun es _ e => give (snoc es e)] ++
  operators.map (fun (k, op) => rule expr [expr, k, expr] fun l _ r => build do
    return .binary (← node) op l r) ++ [
  rule expr [NOT, expr] fun _ e => build do return .unary (← node) .not e,
  rule expr [atSign, expr] fun _ e => build do return .unary (← node) .addressOf e,
  ruleAs NOT expr [minus, expr] fun _ e => build do return .unary (← node) .minus e,
  ruleAs NOT expr [plus, expr] fun _ e => build do return .unary (← node) .plus e,
  rule expr [primary] fun e => give e]

/-- Literals and sets. -/
def primaries : List Rule := [
  rule primary [integer] fun t => integerOf t,
  rule primary [real] fun t => realOf t,
  rule primary [string] fun t => stringOf t,
  rule primary [NIL] fun _ => build do return .nil (← node),
  rule primary [leftBracket, rightBracket] fun _ _ => build do return .set (← node) [],
  rule primary [leftBracket, setElems, rightBracket] fun _ es _ => build do
    return .set (← node) es,
  rule primary [designator] fun e => give e,
  rule setElems [setElem] fun e => give [e],
  rule setElems [setElems, comma, setElem] fun es _ e => give (snoc es e),
  rule setElem [expr] fun e => give e,
  rule setElem [expr, dotDot, expr] fun low _ high => build do return .range (← node) low high]

/-- Designators: names with what is selected from them. -/
def designators : List Rule := [
  rule designator [identifier] fun t => build do return .name (← node) t.text,
  rule designator [designator, dot, identifier] fun e _ t => build do
    return .field (← node) e t.text,
  rule designator [designator, leftBracket, exprList, rightBracket] fun e _ es _ => build do
    return .index (← node) e es,
  rule designator [designator, leftParen, rightParen] fun e _ _ => callOf e [],
  rule designator [designator, leftParen, exprList, rightParen] fun e _ es _ => callOf e es,
  rule designator [designator, caret] fun e _ => build do return .deref (← node) e,
  rule designator [leftParen, expr, rightParen] fun _ e _ => give e,
  rule designator [INHERITED, identifier] fun _ t => build do
    return .inherited (← node) t.text none,
  rule designator [STRING, leftParen, expr, rightParen] fun _ _ e _ => stringCall e]

/-- Constants of array and record types. -/
def typedConstants : List Rule := [
  rule typedConst [expr] fun e => give e,
  rule typedConst [leftParen, typedConst, comma, typedConstList, rightParen]
    fun _ (e : Expr) _ es _ => build do return .array (← node) (e :: es),
  rule typedConst [leftParen, fieldInits, optSemi, rightParen] fun _ fs _ _ => build do
    return .record (← node) fs,
  rule typedConstList [typedConst] fun e => give [e],
  rule typedConstList [typedConstList, comma, typedConst] fun es _ e => give (snoc es e),
  rule fieldInits [fieldInit] fun f => give [f],
  rule fieldInits [fieldInits, semicolon, fieldInit] fun fs _ f => give (snoc fs f),
  rule fieldInit [identifier, colon, typedConst] fun name _ value => build do
    return { info := ← node, name := name.text, value }]

/-- All rules on expressions. -/
def expressions : List Rule := operations ++ primaries ++ designators ++ typedConstants

end ObjectPascal.Rule
