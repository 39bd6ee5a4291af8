import ObjectPascal.Scope.Basic

/-!
Looking up a name for what it should denote. A name that denotes something else is an invalid
identifier.
-/

namespace ObjectPascal.Scopes

/-- The declaration of a name, if it is of the wanted sort. -/
def fetch {α : Type} (s : Scopes) (want : Decl → Option α) (name : Text) : Except ScopeError α :=
  match s.find? name with
  | none => .error (s.error .notFound name)
  | some d =>
    match want d with
    | some a => .ok a
    | none => .error (s.error .invalidIdentifier name)

/-- The variable of a name. -/
def fetchVariable (s : Scopes) (name : Text) : Except ScopeError VarDecl :=
  s.fetch (fun d => match d with | .var d => some d | _ => none) name

/-- The constant of a name. -/
def fetchConstant (s : Scopes) (name : Text) : Except ScopeError ConstDecl :=
  s.fetch (fun d => match d with | .const d => some d | _ => none) name

/-- The parameter of a name. -/
def fetchParameter (s : Scopes) (name : Text) : Except ScopeError ParamDecl :=
  s.fetch (fun d => match d with | .param d => some d | _ => none) name

/-- The routine of a name. -/
def fetchCallable (s : Scopes) (name : Text) : Except ScopeError CallableDecl :=
  s.fetch (fun d => match d with | .callable d => some d | _ => none) name

/-- The type of a name, if it is of the wanted form. -/
def fetchType (s : Scopes) (want : TypeExpr → Bool) (name : Text) : Except ScopeError TypeExpr :=
  s.fetch (fun d =>
    let type := match d with
      | .type d => some (s.resolve d.type)
      | .composite d => some d.type
      | _ => none
    type.filter want) name

/-- The variable, constant or parameter of a name with its type, if that is of the wanted form. -/
def fetchValue (s : Scopes) (want : TypeExpr → Bool) (name : Text) :
    Except ScopeError (Decl × TypeExpr) :=
  s.fetch (fun d =>
    let type := match d with
      | .var v => v.type
      | .const c => c.type
      | .param p => p.type
      | _ => none
    ((type.map s.resolve).filter want).map (d, ·)) name

/-- The class, interface or record of a name, through at most `n` aliases. Errors concern the name
`first` that the search began with. -/
def compositeWithin (s : Scopes) (first : Text) : Nat → Text → Except ScopeError CompositeDecl
  | 0, _ => .error (s.error .compositeNotFound first)
  | n + 1, name =>
    match s.find? name with
    | none => .error (s.error .compositeNotFound first)
    | some (.composite d) => .ok d
    | some (.type ⟨_, _, .named t⟩) => s.compositeWithin first n t.name
    | some _ => .error (s.error .invalidIdentifier first)

/-- The class, interface or record of a name. -/
def fetchComposite (s : Scopes) (name : Text) : Except ScopeError CompositeDecl :=
  s.compositeWithin name aliasLimit name

end ObjectPascal.Scopes
