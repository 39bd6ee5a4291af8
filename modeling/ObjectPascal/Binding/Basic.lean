import ObjectPascal.Folding.Fold
import ObjectPascal.Scope.Builtin
import ObjectPascal.Scope.Heritage

/-!
The state of binding and its elementary steps. Binding walks a tree with the scope stack, finds the
declaration of each name and records it. Faults of the source are collected and the walk goes on.
-/

namespace ObjectPascal

/-- What binding has found so far. `routines` holds the place of the frame of each routine whose
body is being bound, the innermost first. `implicit` tells the routine of each variable that no
source declares. -/
structure Binding where
  scopes : Scopes
  notes : Annotations
  path : Text := ∅
  routines : List Nat := []
  errors : Array Finding := #[]
  warnings : Array Finding := #[]
  overloads : List (Text × List CallableDecl) := []
  implicit : List (VarDecl × CallableDecl) := []

namespace Binding

/-- A step of binding. What was found stays if a step breaks off. -/
abbrev Bind := ExceptT Breach (StateM Binding)

/-- Reports an error. -/
def complain (line : Nat) (c : Complaint) : Bind Unit :=
  modify fun b => { b with errors := b.errors.push ⟨b.path, line, c⟩ }

/-- Reports a warning. -/
def warn (line : Nat) (c : Complaint) : Bind Unit :=
  modify fun b => { b with warnings := b.warnings.push ⟨b.path, line, c⟩ }

/-- The scopes. -/
def getScopes : Bind Scopes := do return (← get).scopes

/-- The annotations. -/
def getNotes : Bind Annotations := do return (← get).notes

/-- Changes the scopes. -/
def setScopes (scopes : Scopes) : Bind Unit := modify fun b => { b with scopes }

/-- Reports an unknown name: an error if names are resolved strictly, else a warning. -/
def unresolved (line : Nat) (name : Text) : Bind Unit := do
  let s ← getScopes
  let c := Complaint.scope (s.error .notFound name)
  if s.config.strict then complain line c else warn line c

/-- Reports that a search failed. A type that is not declared at all counts as an unknown name. -/
def lookupFailed (line : Nat) (e : ScopeError) : Bind Unit := do
  if e.fault = .compositeNotFound && !(← getScopes).config.strict then warn line (.scope e)
  else complain line (.scope e)

/-- Reports that a name denotes something else than it should. -/
def misused (line : Nat) (name : Text) : Bind Unit := do
  complain line (.scope ((← getScopes).error .invalidIdentifier name))

/-- Pushes a frame. -/
def enter (name : Text) (owner : Option Decl := none) : Bind Unit := do
  setScopes ((← getScopes).enter name owner)

/-- Pops a frame. -/
def leave : Bind Unit := do
  match (← getScopes).leave? with
  | some (_, s) => setScopes s
  | none => throw .bottomLeft

/-- What a search comes to, if it ends. -/
def ended {α : Type} : Option α → Bind α
  | some r => return r
  | none => throw .endless

/-- Records something about a node. -/
def annotate (f : Annotations → Except Breach Annotations) : Bind Unit := do
  match f (← getNotes) with
  | .ok notes => modify fun b => { b with notes }
  | .error b => throw b

/-- A new node on a line. -/
def newInfo (line : Nat) : Bind NodeInfo := do
  let (info, notes) := (← getNotes).newInfo line
  modify fun b => { b with notes }
  return info

/-- Folds with the scopes of this moment. -/
def folding {α : Type} (f : Scopes → Folding.Fold α) : Bind (Except Complaint α) := do
  let b ← get
  let (result, notes) := (f b.scopes).run b.notes
  set { b with notes }
  match result with
  | .ok v => return .ok v
  | .error (.complaint c) => return .error c
  | .error (.breach e) => throw e

/-- The value of an expression that must be constant. -/
def constant (e : Expr) : Bind (Option Constant) := do
  match ← folding (Folding.fold · e) with
  | .ok (some v) => return some v
  | .ok none =>
    complain e.info.line .notConstant
    return none
  | .error c =>
    complain e.info.line c
    return none

/-- Declares a name in the innermost frame and tells whether it was free. A declaration with a frame
of its own is registered from inside such a frame, so that it lands in the current one. -/
def register (line : Nat) (name : Text) (d : Decl) : Bind Bool := do
  let s ← getScopes
  let own := Scopes.createsFrame d
  match (if own then s.enter name (some d) else s).register name d with
  | .ok t =>
    setScopes (if own then t.unwindTo s.depth else t)
    return true
  | .error e =>
    complain line (.scope e)
    return false

/-- Adds a routine to those that share its name. -/
def addOverload (d : CallableDecl) : Bind Unit :=
  let key := d.qualifiedName.lower
  modify fun b =>
    { b with overloads :=
        if b.overloads.any (·.1 == key) then
          b.overloads.map fun (k, ds) => if k == key then (k, ds ++ [d]) else (k, ds)
        else b.overloads ++ [(key, [d])] }

/-- The type of what a declaration denotes, with aliases resolved. -/
def typeOfDecl (s : Scopes) (d : Decl) : Option TypeExpr :=
  let type := match d with
    | .var d => d.type
    | .param d => d.type
    | .const d => d.type
    | .property d => d.type
    | _ => none
  type.map s.resolve

/-- Whether a declaration is a variable or parameter of a routine around the one being bound. -/
def isNonLocal (b : Binding) (d : Decl) (place : Nat) : Bool :=
  let isVariable := match d with
    | .var _ | .param _ => true
    | _ => false
  let isOuter := match b.routines with
    | [] => false
    | innermost :: _ => place < innermost
  isVariable && isOuter &&
    match (b.scopes.frame? place).bind (·.owner) with
    | some (.callable _) => true
    | _ => false

end Binding
end ObjectPascal
