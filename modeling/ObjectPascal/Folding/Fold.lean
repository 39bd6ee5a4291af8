import ObjectPascal.Folding.Basic

/-!
Folding: the value of an expression whose names are bound. Every value that is found is recorded,
so a second fold only looks it up. A constant that depends on itself has no value.
-/

namespace ObjectPascal.Folding

/-- Why folding ends early. -/
inductive Stop where
  | complaint (c : Complaint)
  | breach (b : Breach)

/-- Folding records what it finds, also if it ends early. -/
abbrev Fold := ExceptT Stop (StateM Annotations)

/-- Records something. -/
def record (f : Annotations → Except Breach Annotations) : Fold Unit := do
  match f (← get) with
  | .ok a => set a
  | .error b => throw (.breach b)

/-- Ends with the complaint of a computation. -/
def given {α : Type} (x : Except Complaint α) : Fold α :=
  match x with
  | .ok v => pure v
  | .error c => throw (.complaint c)

/-- The type of what stands in for an expression. -/
def typeOf (e : Expr) : Fold (Option TypeExpr) := do
  let a ← get
  return a.typeOf (a.effective e).info

/-- The declaration that what stands in for an expression refers to. -/
def declOf (e : Expr) : Fold (Option Decl) := do
  let a ← get
  return a.declOf (a.effective e).info

/-- The type that an argument names. -/
def typeArg (s : Scopes) (e : Expr) : Fold (Option TypeExpr) := do
  match ← declOf e with
  | some (.type d) => return some (s.resolve d.type)
  | some (.composite d) => return some d.type
  | _ => return none

/-- How to fold an expression found elsewhere, given the constants that are being folded. -/
abbrev Elsewhere := List NodeInfo → Expr → Fold (Option Constant)

/-- The value of a name that is bound to a constant or a member of an enumeration. -/
def named (again : Elsewhere) (active : List NodeInfo) (e : Expr) : Fold (Option Typed) := do
  match (← get).declOf e.info with
  | some (.const d) =>
    if d.kind == .typed || active.contains d.info then return none
    match d.value with
    | none => return none
    | some value =>
      match ← again (d.info :: active) value with
      | none => return none
      | some v => return some (← typeOf value, v)
  | some (.enumMember m) =>
    let a ← get
    return (a.valueOf m.info).map (a.typeOf m.info, ·)
  | _ => return none

/-- A comparison. One of signed numbers is recorded as such. -/
def comparison (s : Scopes) (e : Expr) (op : BinaryOp) (l r : Constant) : Fold (Option Typed) := do
  match l, r with
  | .integral a, .integral b =>
    if a.kind = b.kind && (a.signed || b.signed) then record (·.refine e op.signed)
  | _, _ => pure ()
  return (l.compare? r).map fun o => truth s (op.holds o)

/-- An operator with two constant operands. -/
def binary (s : Scopes) (e : Expr) (op : BinaryOp) (lt rt : Option TypeExpr) (l r : Constant) :
    Fold (Option Typed) :=
  match op.category with
  | .comparison => comparison s e op l r
  | .arithmetic | .logical => given (arithmetic s op lt rt l r)
  | .membership | .typeRelation => return none

/-- A call of a function of the language with one argument. `folded` folds the argument, which some
functions do not ask for. -/
def call (s : Scopes) (callee arg : Expr) (folded : Fold (Option Constant)) :
    Fold (Option Typed) := do
  match ← declOf callee with
  | some (.callable d) =>
    if !d.builtin then return none
    let name := d.name.lower
    if name == "sizeof" then
      let size := ((← typeArg s arg).map (sizeOf s)).getD 0
      return if size = 0 then none else some (literal s size.toUInt64)
    if name == "low" || name == "high" then
      return (← typeArg s arg).bind (bound (name == "high"))
    match ← folded with
    | none => return none
    | some v => return function s name (← typeOf arg) v
  | _ => return none

/-- The recorded value of an expression, or else the one that `eval` finds, which is recorded. -/
def recorded (e : Expr) (eval : Fold (Option Typed)) : Fold (Option Constant) := do
  match (← get).valueOf e.info with
  | some v => return some v
  | none =>
    match ← eval with
    | none => return none
    | some (type, v) =>
      record (·.setConst (.expr e) type v)
      return some v

/-- Folds a part: what stands in for it, or else the part itself. -/
def part (again : Elsewhere) (active : List NodeInfo) (e : Expr) (itself : Fold (Option Constant)) :
    Fold (Option Constant) := do
  if (← get).substitutes.contains e.info.id then again active e else itself

/-- The value of an expression, apart from what may stand in for it. -/
def visit (s : Scopes) (again : Elsewhere) (active : List NodeInfo) (e : Expr) :
    Fold (Option Constant) :=
  recorded e <| match e with
    | .int _ n _ => return some (literal s n)
    | .char _ code => return some (s.builtin? "Char", .integral (.ofCode code.toUInt32.toInt32))
    | .bool _ b => return some (truth s b)
    | .string _ t => return some (stringResult s t)
    | .real _ x _ => return some (s.builtin? "Extended", .real x)
    | .ident .. | .name .. => named again active e
    | .unary _ op x => do
      match ← part again active x (visit s again active x) with
      | none => return none
      | some v => return unary s op (← typeOf x) v
    | .binary _ op x y => do
      match ← part again active x (visit s again active x) with
      | none => return none
      | some l =>
        match ← part again active y (visit s again active y) with
        | none => return none
        | some r => binary s e op (← typeOf x) (← typeOf y) l r
    | .call _ callee (some [x]) => call s callee x (part again active x (visit s again active x))
    | _ => return none

/-- The value of an expression through at most `n` names and replacements in a row. -/
def foldWithin (s : Scopes) : Nat → Elsewhere
  | 0, _, _ => return none
  | n + 1, active, e => do visit s (foldWithin s n) active ((← get).effective e)

/-- More names and replacements than follow each other: no constant comes twice, and no replacement
comes twice between two constants. -/
def limit (a : Annotations) : Nat := (a.size + 1) * (a.substitutes.size + 1) + 1

/-- The value of an expression, if it is constant. -/
def fold (s : Scopes) (e : Expr) : Fold (Option Constant) := do
  foldWithin s (limit (← get)) [] e

/-- A bound of a subrange. -/
def subrangeBound (s : Scopes) (e : Expr) : Fold Integral := do
  let v ← fold s e
  let ordinal := ((← typeOf e).map TypeExpr.isOrdinal).getD false
  if v.isNone || !ordinal then throw (.complaint .boundNotOrdinal)
  match (← get).integralOf e with
  | .ok v => return v
  | .error b => throw (.breach b)

/-- The number of values of a subrange. -/
def subrangeSize (s : Scopes) (low high : Expr) : Fold UInt64 := do
  let l ← subrangeBound s low
  let h ← subrangeBound s high
  if !l.sameKind h || h.less l then throw (.complaint (.emptyRange l h))
  match l.range h with
  | .ok n => return n + 1
  | .error f => throw (.breach (.range f))

end ObjectPascal.Folding
