import ObjectPascal.Syntax.Expr

/-!
Statements.
-/

namespace ObjectPascal

/-- A reference to a type by its possibly qualified name. -/
structure NamedType where
  info : NodeInfo
  name : Text
deriving DecidableEq, Inhabited

mutual

/-- A statement. The empty list stands for an absent part. -/
inductive Stmt where
  | empty (info : NodeInfo)
  | compound (info : NodeInfo) (stmts : List Stmt)
  | assign (info : NodeInfo) (target value : Expr)
  | call (info : NodeInfo) (call : Expr)
  | cond (info : NodeInfo) (test : Expr) (yes : Stmt) (no : Option Stmt)
  | caseOf (info : NodeInfo) (selector : Expr) (arms : List CaseArm) (rest : List Stmt)
  | forTo (info : NodeInfo) (var : Text) (low high : Expr) (down : Bool) (body : Stmt)
  | forIn (info : NodeInfo) (var : Text) (coll : Expr) (body : Stmt)
  | whileDo (info : NodeInfo) (test : Expr) (body : Stmt)
  | repeatUntil (info : NodeInfo) (body : List Stmt) (test : Expr)
  | withDo (info : NodeInfo) (objects : List Expr) (body : Stmt)
  | tryExcept (info : NodeInfo) (body : List Stmt) (handlers : List Handler) (rest : List Stmt)
      (plain : List Stmt)
  | tryFinally (info : NodeInfo) (body finish : List Stmt)
  | raise (info : NodeInfo) (exception place : Option Expr)
  | goto (info : NodeInfo) (label : Text)
  | labeled (info : NodeInfo) (label : Text) (stmt : Stmt)
  | asm (info : NodeInfo) (text : Text)
  | breakLoop (info : NodeInfo)
  | continueLoop (info : NodeInfo)

/-- One arm of a case statement. -/
structure CaseArm where
  info : NodeInfo
  labels : List Expr
  body : Stmt

/-- A handler for the exceptions of one type; its variable may be absent. -/
structure Handler where
  info : NodeInfo
  var : Text
  type : NamedType
  body : Stmt

end

namespace Stmt

/-- Number and line of a statement. -/
def info : Stmt → NodeInfo
  | .empty i | .compound i _ | .assign i _ _ | .call i _ | .cond i _ _ _ | .caseOf i _ _ _
  | .forTo i _ _ _ _ _ | .forIn i _ _ _ | .whileDo i _ _ | .repeatUntil i _ _ | .withDo i _ _
  | .tryExcept i _ _ _ _ | .tryFinally i _ _ | .raise i _ _ | .goto i _ | .labeled i _ _
  | .asm i _ | .breakLoop i | .continueLoop i => i

instance : Inhabited Stmt := ⟨.empty default⟩

/-- The name of the kind of a statement. -/
def kindName : Stmt → String
  | .empty .. => "EmptyStmt"
  | .compound .. => "CompoundStmt"
  | .assign .. => "AssignStmt"
  | .call .. => "CallStmt"
  | .cond .. => "IfStmt"
  | .caseOf .. => "CaseStmt"
  | .forTo .. => "ForStmt"
  | .forIn .. => "ForInStmt"
  | .whileDo .. => "WhileStmt"
  | .repeatUntil .. => "RepeatStmt"
  | .withDo .. => "WithStmt"
  | .tryExcept .. => "TryExceptStmt"
  | .tryFinally .. => "TryFinallyStmt"
  | .raise .. => "RaiseStmt"
  | .goto .. => "GotoStmt"
  | .labeled .. => "LabeledStmt"
  | .asm .. => "AsmStmt"
  | .breakLoop .. => "BreakStmt"
  | .continueLoop .. => "ContinueStmt"

end Stmt
end ObjectPascal
