import ObjectPascal.Binding.Name

/-!
Binding of statements.
-/

namespace ObjectPascal.Binding

/-- Binds a reference to a type. A qualified name that is unknown is tried without its qualifier. -/
def resolveType (t : NamedType) : Bind Unit := do
  let s ← getScopes
  let last := t.name.bytes.reverse.takeWhile (· != 0x2E)
  let short := if last.length < t.name.length then s.find? ⟨last.reverse⟩ else none
  match s.find? t.name <|> short with
  | none => unresolved t.info.line t.name
  | some (.type d) => annotate (·.bind (.type (.named t)) (.type d))
  | some (.composite d) => annotate (·.bind (.type (.named t)) (.composite d))
  | some _ => misused t.info.line t.name

/-- Checks the variable of a loop. -/
def loopVariable (line : Nat) (name : Text) : Bind Unit := do
  match (← getScopes).find? name with
  | some (.var _) | some (.param _) => pure ()
  | none => unresolved line name
  | some _ => misused line name

/-- Checks a label. -/
def checkLabel (line : Nat) (name : Text) : Bind Unit := do
  let s ← getScopes
  match s.find? name with
  | some (.label _) => pure ()
  | _ => complain line (.scope (s.error .notFound name))

/-- Binds the target of an assignment. -/
def visitTarget (e : Expr) : Bind Unit := do
  match (← getScopes).rewriteResult (← getNotes) e with
  | .error b => throw b
  | .ok (some (_, notes)) => modify fun b => { b with notes }
  | .ok none => visitExpr e

/-- The values of a case label. A label that is not a range keeps its expression. -/
structure CaseRange where
  low : Integral
  high : Integral
  single : Option Expr := none

/-- Whether two labels have a value in common. -/
def CaseRange.overlaps (r q : CaseRange) : Bool :=
  r.low.sameKind q.low && !r.high.less q.low && !q.high.less r.low

/-- Whether a label repeats an earlier one. -/
def CaseRange.repeats (a : Annotations) (r q : CaseRange) : Bool :=
  match r.single, q.single with
  | some e, some f => a.equal e f
  | _, _ => r.overlaps q

/-- The ordinal value of a case label. -/
def caseValue (e : Expr) : Bind (Option Integral) := do
  match ← constant e with
  | none => return none
  | some _ =>
    let a ← getNotes
    match (a.typeOf (a.effective e).info).map TypeExpr.isOrdinal with
    | some true =>
      match a.integralOf e with
      | .ok v => return some v
      | .error b => throw b
    | _ =>
      complain e.info.line .labelNotOrdinal
      return none

/-- The values of a label, unless they are faulty. -/
def caseRange (label : Expr) : Bind (Option CaseRange) := do
  match label with
  | .range info low high =>
    visitExpr low
    visitExpr high
    match ← caseValue low, ← caseValue high with
    | some l, some h =>
      if !l.sameKind h || h.less l then
        complain info.line (.emptyRange l h)
        return none
      return some { low := l, high := h }
    | _, _ => return none
  | _ =>
    visitExpr label
    return (← caseValue label).map fun v => { low := v, high := v, single := some label }

/-- Checks a label against those before it. -/
def checkRepeated (line : Nat) (seen : List CaseRange) (r : CaseRange) : Bind Unit := do
  let a ← getNotes
  if seen.any (r.repeats a) then complain line (.duplicateLabel r.low)

/-- Checks labels against those before them and gives them all. -/
def caseLabels (seen : List CaseRange) (labels : List Expr) : Bind (List CaseRange) :=
  labels.foldlM (fun seen label => do
    match ← caseRange label with
    | none => return seen
    | some r =>
      checkRepeated label.info.line seen r
      return seen ++ [r]) seen

/-- Makes the members of each object visible. -/
def openObjects (objects : List Expr) : Bind Unit :=
  objects.forM fun e => do
    visitExpr e
    match ← compositeOf e with
    | none => pure ()
    | some type =>
      match (← getScopes).loadHeritage type with
      | .ok (s, _) => setScopes s
      | .error err => lookupFailed e.info.line err

/-- Binds the body of a handler, in a frame with its variable if it has one. -/
def inHandler (info : NodeInfo) (var : Text) (type : NamedType) (body : Bind Unit) : Bind Unit := do
  resolveType type
  if var.isEmpty then body
  else
    enter ("on " ++ var)
    let d : VarDecl := { info := ← newInfo info.line, name := var, type := some (.named type) }
    discard (register info.line var (.var d))
    body
    leave

mutual

/-- Binds a statement. -/
def visitStmt (s : Stmt) : Bind Unit :=
  match s with
  | .empty _ | .breakLoop _ | .continueLoop _ | .asm .. => pure ()
  | .compound _ ss => visitStmts ss
  | .assign _ target value => do
    visitTarget target
    visitExpr value
  | .call _ e => visitExpr e
  | .cond _ test yes no => do
    visitExpr test
    visitStmt yes
    visitOptStmt no
  | .caseOf _ selector arms rest => do
    visitExpr selector
    visitArms [] arms
    visitStmts rest
  | .forTo info var low high _ body => do
    loopVariable info.line var
    visitExpr low
    visitExpr high
    visitStmt body
  | .forIn info var coll body => do
    loopVariable info.line var
    visitExpr coll
    visitStmt body
  | .whileDo _ test body => do
    visitExpr test
    visitStmt body
  | .repeatUntil _ body test => do
    visitStmts body
    visitExpr test
  | .withDo _ objects body => do
    let depth := (← getScopes).depth
    openObjects objects
    visitStmt body
    setScopes ((← getScopes).unwindTo depth)
  | .tryExcept _ body handlers rest plain => do
    visitStmts body
    visitHandlers handlers
    visitStmts rest
    visitStmts plain
  | .tryFinally _ body finish => do
    visitStmts body
    visitStmts finish
  | .raise _ e place => do
    visitOptExpr e
    visitOptExpr place
  | .goto info label => checkLabel info.line label
  | .labeled info label s => do
    checkLabel info.line label
    visitStmt s

/-- Binds statements in order. -/
def visitStmts : List Stmt → Bind Unit
  | [] => pure ()
  | s :: ss => do
    visitStmt s
    visitStmts ss

/-- Binds a statement that may be absent. -/
def visitOptStmt : Option Stmt → Bind Unit
  | none => pure ()
  | some s => visitStmt s

/-- Binds the arms of a case statement after labels that were already seen. -/
def visitArms (seen : List CaseRange) : List CaseArm → Bind Unit
  | [] => pure ()
  | ⟨_, labels, body⟩ :: arms => do
    let seen ← caseLabels seen labels
    visitStmt body
    visitArms seen arms

/-- Binds handlers. -/
def visitHandlers : List Handler → Bind Unit
  | [] => pure ()
  | ⟨info, var, type, body⟩ :: handlers => do
    inHandler info var type (visitStmt body)
    visitHandlers handlers

end

end ObjectPascal.Binding
