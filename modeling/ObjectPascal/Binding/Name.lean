import ObjectPascal.Annotations
import ObjectPascal.Binding.Basic
import ObjectPascal.Scope.Basic

/-!
An assignment to the name of the function that is being bound sets its result.
-/

namespace ObjectPascal.Scopes

/-- The name that an expression consists of, perhaps as a call without arguments. -/
def plainName? : Expr → Option Text
  | .name _ name | .ident _ name => some name
  | .call _ (.name _ name) none | .call _ (.ident _ name) none => some name
  | .call _ (.name _ name) (some []) | .call _ (.ident _ name) (some []) => some name
  | _ => none

/-- The function whose result the name of the innermost frame stands for: the owner of the frame, or
else what the next frame declares under that name. -/
def currentFunction? (s : Scopes) (name : Text) : Option CallableDecl :=
  match s.inner with
  | current :: outer :: _ =>
    let declared := match outer.find? current.name with
      | some (.callable d) => some d
      | _ => none
    let routine := match current.owner with
      | some (.callable d) => if d.name.sameFold name then some d else declared
      | _ => declared
    if current.name.sameFold name then routine.filter CallableDecl.isFunction else none
  | _ => none

/-- The reference to the result that stands in for the target of an assignment, if the target names
the function being bound. -/
def rewriteResult (s : Scopes) (a : Annotations) (target : Expr) :
    Except Breach (Option (Expr × Annotations)) := do
  match (plainName? target).bind s.currentFunction? with
  | none => return none
  | some f =>
    let (info, a) := a.newInfo target.info.line
    let ref := Expr.result info f.name
    let a ← a.bindFound (.expr ref) (s.top.find? "Result")
    let a ← a.setType (.expr ref) f.result
    return some (ref, a.substitute target ref)

end ObjectPascal.Scopes

/-!
Binding of expressions.
-/

namespace ObjectPascal.Binding

/-- Records the type of an expression, if it is known. -/
def recordType (e : Expr) : Option TypeExpr → Bind Unit
  | none => pure ()
  | some t => annotate (·.setType (.expr e) (some t))

/-- Marks a name and its identifier if they denote a variable of a routine around. -/
def noteNonLocal (e ident : Expr) (d : Decl) (place : Nat) : Bind Unit := do
  if (← get).isNonLocal d place then
    annotate (·.markNonLocal (.expr ident))
    annotate (·.markNonLocal (.expr e))

/-- What stands in for a name: its identifier, or a call of the routine that it denotes. -/
def standIn (s : Scopes) (ident : Expr) (d : Decl) (called : Bool) : Bind Expr :=
  match d, called with
  | .callable c, false => do
    let call := Expr.call (← newInfo ident.info.line) ident none
    recordType call (c.result.map s.resolve)
    return call
  | _, _ => return ident

/-- Replaces a name by an identifier, or by a call if it denotes a routine and is not itself
called. -/
def resolveName (info : NodeInfo) (name : Text) (called : Bool) : Bind Unit := do
  let s ← getScopes
  match s.lookup? name with
  | none => unresolved info.line name
  | some (d, place) =>
    let e := Expr.name info name
    let ident := Expr.ident (← newInfo info.line) name
    annotate (·.bind (.expr ident) d)
    annotate (·.bind (.expr e) d)
    recordType ident (typeOfDecl s d)
    noteNonLocal e ident d place
    let substitute ← standIn s ident d called
    annotate fun a => .ok (a.substitute e substitute)

/-- The name of the class, interface or record type that an expression has. -/
def compositeOf (e : Expr) : Bind (Option Text) := do
  let a ← getNotes
  let s ← getScopes
  let type := match a.declOf (a.effective e).info with
    | some (.composite d) => Sum.inl d.name
    | some (.var d) => .inr d.type
    | some (.param d) => .inr d.type
    | some (.const d) => .inr d.type
    | some (.property d) => .inr d.type
    | _ => .inr none
  return match type with
    | .inl name => some name
    | .inr (some (.named t)) => (s.fetchComposite t.name).toOption.map (·.name)
    | .inr _ => none

/-- Binds the selection of a field: of a unit to what the name denotes, of a value to a member of
its type. -/
def bindField (e object : Expr) (field : Text) : Bind Unit := do
  let a ← getNotes
  let s ← getScopes
  match a.declOf (a.effective object).info with
  | some (.unit u) =>
    match s.find? field with
    | some d => annotate (·.bind (.expr e) d)
    | none => unresolved e.info.line (u.name ++ Text.ofString "." ++ field)
  | _ =>
    match ← compositeOf object with
    | none => pure ()
    | some type =>
      match ← ended (s.fetchMember type field) with
      | .error err => lookupFailed e.info.line err
      | .ok m =>
        annotate (·.bind (.expr e) m.decl)
        recordType e (typeOfDecl s m.decl)

/-- The innermost method that is being bound. -/
def currentMethod? (s : Scopes) : Option CallableDecl :=
  s.frames.findSome? fun f =>
    match f.owner with
    | some (.callable d) => if d.owner.isEmpty then none else some d
    | _ => none

/-- Binds a call of an inherited method to the member of an ancestor. -/
def bindInherited (e : Expr) (method : Text) : Bind Unit := do
  let s ← getScopes
  match currentMethod? s with
  | none => pure ()
  | some current =>
    match s.fetchComposite current.owner with
    | .error _ => pure ()
    | .ok c =>
      let name := if method.isEmpty then current.name else method
      let inherited h := (s.fetchMember h name).run.map Except.toOption
      match ← ended (c.ancestors.findSomeM? inherited) with
      | some m => annotate (·.bind (.expr e) m.decl)
      | none =>
        unless method.isEmpty do
          complain e.info.line
            (.scope (s.error .memberNotFound (current.owner ++ Text.ofString "." ++ name)))

/-- Records the type of a call whose callee is a routine with a result. -/
def bindCall (e callee : Expr) : Bind Unit := do
  let a ← getNotes
  match a.declOf (a.effective callee).info with
  | some (.callable { result := some t, .. }) =>
    let s ← getScopes
    annotate (·.setType (.expr e) (some (s.resolve t)))
  | _ => pure ()

/-- Binds an identifier that is not bound yet. -/
def bindIdent (e : Expr) (name : Text) : Bind Unit := do
  if ((← getNotes).declOf e.info).isNone then
    if let some d := (← getScopes).find? name then annotate (·.bind (.expr e) d)

mutual

/-- Binds an expression. -/
def visitExpr (e : Expr) : Bind Unit :=
  match e with
  | .int .. | .real .. | .char .. | .string .. | .bool .. | .nil .. | .result .. => pure ()
  | .name info name => resolveName info name false
  | .ident _ name => bindIdent e name
  | .call _ callee args => do
    match callee with
    | .name info name => resolveName info name true
    | _ => visitExpr callee
    visitArgs args
    bindCall e callee
  | .field _ object name => do
    visitExpr object
    bindField e object name
  | .index _ array indexes => do
    visitExpr array
    visitExprs indexes
  | .deref _ pointer => visitExpr pointer
  | .unary _ _ operand => visitExpr operand
  | .binary _ _ l r | .range _ l r => do
    visitExpr l
    visitExpr r
  | .set _ es | .array _ es => visitExprs es
  | .record _ fields => visitFieldInits fields
  | .inherited _ method args => do
    visitArgs args
    bindInherited e method

/-- Binds expressions in order. -/
def visitExprs : List Expr → Bind Unit
  | [] => pure ()
  | e :: es => do
    visitExpr e
    visitExprs es

/-- Binds arguments. -/
def visitArgs : Option (List Expr) → Bind Unit
  | none => pure ()
  | some es => visitExprs es

/-- Binds the values of fields. -/
def visitFieldInits : List FieldInit → Bind Unit
  | [] => pure ()
  | ⟨_, _, value⟩ :: fields => do
    visitExpr value
    visitFieldInits fields

end

/-- Binds an expression that may be absent. -/
def visitOptExpr (e : Option Expr) : Bind Unit := visitExprs e.toList

end ObjectPascal.Binding
