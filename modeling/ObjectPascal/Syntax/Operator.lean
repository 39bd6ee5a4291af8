import ObjectPascal.Text.Basic

/-!
The operators of expressions.
-/

namespace ObjectPascal

/-- An operator with one operand. -/
inductive UnaryOp where
  | plus
  | minus
  | not
  | addressOf
deriving DecidableEq, Inhabited

/-- The spelling of an operator. -/
def UnaryOp.spelling : UnaryOp → String
  | plus => "+"
  | minus => "-"
  | not => "not"
  | addressOf => "@"

/-- An operator with two operands. The signed comparisons are not written in a source; they refine
the plain ones once the operands are known to be signed. -/
inductive BinaryOp where
  | add | sub | mul | realDiv | div | mod | shl | shr
  | and | or | xor
  | eq | ne | lt | le | gt | ge | ltSigned | leSigned | gtSigned | geSigned
  | memberOf | isType | asType
deriving DecidableEq, Inhabited

namespace BinaryOp

/-- What kind of question an operator asks of its operands. -/
inductive Category where
  | arithmetic
  | logical
  | comparison
  | membership
  | typeRelation
deriving DecidableEq

/-- All operators in order. -/
def all : List BinaryOp :=
  [add, sub, mul, realDiv, div, mod, shl, shr, and, or, xor, eq, ne, lt, le, gt, ge, ltSigned,
    leSigned, gtSigned, geSigned, memberOf, isType, asType]

/-- The position of an operator in the order. -/
def index (op : BinaryOp) : Nat := op.ctorIdx

/-- The operator at a position. -/
def ofIndex? (i : Nat) : Option BinaryOp := all[i]?

/-- The spelling of an operator. -/
def spelling : BinaryOp → String
  | add => "+"
  | sub => "-"
  | mul => "*"
  | realDiv => "/"
  | div => "div"
  | mod => "mod"
  | shl => "shl"
  | shr => "shr"
  | and => "and"
  | or => "or"
  | xor => "xor"
  | eq => "="
  | ne => "<>"
  | lt => "<"
  | le => "<="
  | gt => ">"
  | ge => ">="
  | ltSigned => "<(s)"
  | leSigned => "<=(s)"
  | gtSigned => ">(s)"
  | geSigned => ">=(s)"
  | memberOf => "in"
  | isType => "is"
  | asType => "as"

/-- The category of an operator. -/
def category : BinaryOp → Category
  | add | sub | mul | realDiv | div | mod | shl | shr => .arithmetic
  | and | or | xor => .logical
  | eq | ne | lt | le | gt | ge | ltSigned | leSigned | gtSigned | geSigned => .comparison
  | memberOf => .membership
  | isType | asType => .typeRelation

/-- The signed form of an ordering comparison; every other operator is its own. -/
def signed : BinaryOp → BinaryOp
  | lt => ltSigned
  | le => leSigned
  | gt => gtSigned
  | ge => geSigned
  | op => op

end BinaryOp
end ObjectPascal
