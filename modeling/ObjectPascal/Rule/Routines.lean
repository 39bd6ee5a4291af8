import ObjectPascal.Rule.Build

/-!
Headings of routines, parameters and directives.
-/

namespace ObjectPascal.Rule

/-- One parameter for each name. Only a single parameter may have a default. -/
def parameters (kind : ParamKind) (names : List Token) (type : Option TypeExpr)
    (default : Option Expr) : Build (List ParamDecl) := do
  if default.isSome && 1 < names.length then
    reject ((names.head?.map Token.line).getD 0) "default value requires a single parameter"
  names.mapM fun t => do
    return { info := ← nodeAt t.line, name := t.text, kind, type, default }

/-- The way of passing that a word asks for. -/
def paramKindOf (t : Token) : ParamKind :=
  match t.kind with
  | .VAR => .var
  | .CONST => .const
  | .OUT => .out
  | _ => .plain

/-- The kind of routine that a word begins. -/
def routineKindOf (t : Token) : RoutineKind :=
  match t.kind with
  | .FUNCTION => .function
  | .CONSTRUCTOR => .constructor
  | .DESTRUCTOR => .destructor
  | _ => .procedure

/-- A heading. Only functions have a result. -/
def heading (classMethod : Bool) (word : Token) (name : RoutineName)
    (params : Option (List ParamDecl)) (result : Option TypeExpr) : Build RoutineHead := do
  let kind := routineKindOf word
  if result.isSome && kind != .function then
    reject word.line
      (Text.ofString kind.spelling ++ " " ++ name.name ++ " cannot have a result type")
  return { kind, classMethod, name, params, result, line := word.line }

/-- The routine of a heading. -/
def callableOf (h : RoutineHead) (directives : List Directive) (visibility : Visibility) :
    Build CallableDecl := do
  return { info := ← nodeAt h.line, name := h.name.name, owner := h.name.owner, kind := h.kind,
           classMethod := h.classMethod, params := h.params, result := h.result, directives,
           visibility }

/-- The directives without an argument. -/
def plainDirectives : List Kind :=
  [.VIRTUAL, .OVERRIDE, .ABSTRACT, .OVERLOAD, .REINTRODUCE, .DYNAMIC, .STDCALL, .CDECL, .PASCAL,
    .REGISTER, .SAFECALL, .ASSEMBLER, .VARARGS, .EXPORT, .INLINE, .STATIC]

/-- A directive without an argument. -/
def plainDirective (t : Token) : Build Directive := do
  if t.kind == .INLINE then require .inlining t.line "inline routines"
  return { kind := t.kind }

open Kind Phrase

/-- Routines with a body, announced or external, and their headings. -/
def headings : List Rule := [
  rule routineDecl [routineHead, semicolon, directivesOpt, block, semicolon]
    fun h _ ds body _ => build do
      return { (← callableOf h (ds.getD []) .default) with body := some body },
  rule routineDecl [routineHead, semicolon, directivesOpt, FORWARD, semicolon]
    fun h _ ds _ _ => build do
      return { (← callableOf h (ds.getD []) .default) with forward := true },
  rule routineDecl [routineHead, semicolon, directivesOpt, EXTERNAL, externalOpt, semicolon]
    fun h _ ds _ e _ => build do
      return { (← callableOf h (ds.getD []) .default) with external := some (e.getD {}) },
  rule routineProto [routineHead, semicolon, directivesOpt] fun h _ ds => build do
    callableOf h (ds.getD []) .default,
  rule routineProto [routineHead, semicolon, directivesOpt, EXTERNAL, externalOpt, semicolon]
    fun h _ ds _ e _ => build do
      return { (← callableOf h (ds.getD []) .default) with external := some (e.getD {}) },
  rule routineHead [routineKind, routineName, paramsOpt, resultOpt]
    fun word name params result => heading false word name params result,
  rule routineHead [CLASS, routineKind, routineName, paramsOpt, resultOpt]
    fun _ word name params result => heading true word name params result,
  rule routineKind [PROCEDURE] fun t => give t,
  rule routineKind [FUNCTION] fun t => give t,
  rule routineKind [CONSTRUCTOR] fun t => give t,
  rule routineKind [DESTRUCTOR] fun t => give t,
  rule routineName [identifier] fun t => give { name := t.text },
  rule routineName [identifier, dot, identifier]
    fun owner _ t => give { owner := owner.text, name := t.text },
  rule resultOpt [] (give none),
  rule resultOpt [colon, namedType] fun _ t => give (some t)]

/-- Parameters. -/
def parameterLists : List Rule := [
  rule paramsOpt [] (give none),
  rule paramsOpt [leftParen, rightParen] fun _ _ => give (some []),
  rule paramsOpt [leftParen, paramGroups, rightParen] fun _ ps _ => give (some ps),
  rule paramGroups [paramGroup] fun ps => give ps,
  rule paramGroups [paramGroups, semicolon, paramGroup] fun ps _ qs => give (List.append ps qs),
  rule paramGroup [identList, colon, paramType, defaultOpt]
    fun names _ t e => parameters .plain names (some t) e,
  rule paramGroup [paramKind, identList, colon, paramType, defaultOpt]
    fun word names _ t e => parameters (paramKindOf word) names (some t) e,
  rule paramGroup [paramKind, identList]
    fun word names => parameters (paramKindOf word) names none none,
  rule paramKind [VAR] fun t => give t,
  rule paramKind [CONST] fun t => give t,
  rule paramKind [OUT] fun t => give t,
  rule paramType [namedType] fun t => give t,
  rule paramType [ARRAY, OF, namedType] fun _ _ t => build do
    return .array (← node) false [] (some t) false,
  rule paramType [ARRAY, OF, CONST] fun _ _ _ => build do
    return .array (← node) false [] none true,
  rule defaultOpt [] (give none),
  rule defaultOpt [equal, expr] fun _ e => give (some e)]

/-- Directives and the clause of an external routine. -/
def directives : List Rule := [
  rule directivesOpt [] (give none),
  rule directivesOpt [directiveList] fun ds => give (some ds),
  rule directiveList [directive, semicolon] fun d _ => give [d],
  rule directiveList [directiveList, directive, semicolon] fun ds d _ => give (snoc ds d)] ++
  plainDirectives.map (fun (k : Kind) => rule directive [k] fun t => plainDirective t) ++ [
  rule directive [MESSAGE, expr] fun t e => give { kind := t.kind, arg := some e },
  rule externalOpt [] (give none),
  rule externalOpt [expr] fun e => give (some { library := some e }),
  rule externalOpt [expr, NAME, expr]
    fun e _ n => give (some { library := some e, name := some n }),
  rule externalOpt [expr, INDEX, expr]
    fun e _ i => give (some { library := some e, index := some i }),
  rule externalOpt [NAME, expr] fun _ n => give (some { name := some n })]

/-- All rules on routines. -/
def routines : List Rule := headings ++ parameterLists ++ directives

end ObjectPascal.Rule
