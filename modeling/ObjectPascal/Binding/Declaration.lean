import ObjectPascal.Binding.Statement

/-!
Binding of types and declarations.
-/

namespace ObjectPascal.Binding

/-- The position of a member of an enumeration: its own value, or else the next one. -/
def memberPosition (next : UInt64) : Option Expr → Bind UInt64
  | none => return next
  | some e => do
    visitExpr e
    match ← constant e with
    | some (.integral v) => return v.bits
    | _ => return next

/-- Declares a member of an enumeration and gives the position after it. -/
def declareEnumMember (type : TypeExpr) (name : Text) (next : UInt64) (m : EnumMember) :
    Bind UInt64 := do
  let position ← memberPosition next m.value
  if ← register m.info.line m.name (.enumMember m) then
    annotate (·.setConst (.decl (.enumMember m)) (some type) (.integral (.ofEnum name position)))
  return position + 1

/-- Declares the members of an enumeration with their positions. -/
def visitEnum (info : NodeInfo) (members : List EnumMember) (name : Text) : Bind Unit :=
  let name := if name.isEmpty then Text.ofString "enum@" ++ Text.ofNat info.line else name
  discard (members.foldlM (declareEnumMember (.enum info members) name) 0)

/-- Checks the bounds of a subrange. -/
def visitSubrange (info : NodeInfo) (low high : Expr) : Bind Unit := do
  visitExpr low
  visitExpr high
  match ← folding (Folding.subrangeSize · low high) with
  | .ok _ => pure ()
  | .error c => complain info.line c

/-- Binds the length of a string type. -/
def visitLength (e : Expr) : Bind Unit := do
  visitExpr e
  discard (constant e)

/-- Declares the tag of a variant part, if it is a field. -/
def declareTag (info : NodeInfo) (tag : Text) (type : TypeExpr) : Bind Unit := do
  unless tag.isEmpty do
    let d : VarDecl :=
      { info := ← newInfo info.line, name := tag, type := some type, kind := .field }
    discard (register info.line tag (.var d))

/-- Whether a declaration declares a type. -/
def isTypeDecl : Decl → Bool
  | .type _ | .composite _ => true
  | _ => false

/-- Whether a declaration only announces a class or an interface. -/
def isAnnounced : Option Decl → Bool
  | some (.type ⟨_, _, .classType _ _ _ forward⟩) => forward
  | some (.type ⟨_, _, .interface _ _ _ _ _ forward⟩) => forward
  | _ => false

/-- Declares a type. A class or interface completes what announced it. -/
def declareType (d : Decl) : Bind Unit := do
  let s ← getScopes
  match d, isAnnounced (s.findLocal? d.name) with
  | .composite c, true =>
    match s.redeclare c.name d with
    | .ok s => setScopes s
    | .error e => complain c.info.line (.scope e)
  | _, _ => discard (register d.info.line d.name d)

/-- Declares types that follow each other, unless that is done. -/
def declareTypes (declared : Bool) (ds : List Decl) : Bind Unit :=
  if declared then pure () else ds.forM declareType

/-- Whether both routines may share one name. -/
def overload (d e : CallableDecl) : Bool := d.hasDirective .OVERLOAD && e.hasDirective .OVERLOAD

/-- Whether `d` gives the heading `heading` its body. -/
def completes (heading d : CallableDecl) : Bool :=
  heading.body.isNone && heading.external.isNone && (d.body.isSome || d.external.isSome)

/-- Declares a routine from inside its frame. -/
def registerRoutine (d : CallableDecl) : Bind Unit := do
  match (← getScopes).register d.name (.callable d) with
  | .ok s =>
    setScopes s
    if d.hasDirective .OVERLOAD then addOverload d
  | .error e => complain d.info.line (.scope e)

/-- Declares a routine from inside its frame. It may complete or overload what its name denoted
before. -/
def declareRoutine (previous : Option Decl) (d : CallableDecl) : Bind Unit := do
  match previous with
  | some (.callable p) =>
    if overload p d then addOverload d
    else if completes p d then
      match (← getScopes).redeclare d.name (.callable d) with
      | .ok s => setScopes s
      | .error e => complain d.info.line (.scope e)
    else registerRoutine d
  | _ => registerRoutine d

/-- Binds the inside of a routine that is no method with a body. -/
def inRoutine (d : CallableDecl) (inside : Bind Unit) : Bind Unit := do
  let previous := (← getScopes).findLocal? d.name
  enter d.name (some (.callable d))
  declareRoutine previous d
  inside
  leave

/-- Declares a variable of a routine that no source declares. -/
def declareImplicit (d : CallableDecl) (v : VarDecl) : Bind Unit := do
  discard (register d.info.line v.name (.var v))
  modify fun b => { b with implicit := b.implicit ++ [(v, d)] }

/-- Declares the object that a method works on. -/
def declareSelf (d : CallableDecl) : Bind Unit := do
  let info ← newInfo d.info.line
  let type := TypeExpr.named { info := ← newInfo d.info.line, name := d.owner }
  declareImplicit d { info, name := "Self", type := some type }

/-- Binds a method with a body to its heading, the owner of its frame. -/
def bindHeading (d : CallableDecl) (owner : Option Decl) : Bind Unit :=
  match owner with
  | some (.callable heading) => annotate (·.bind (.decl (.callable d)) (.callable heading))
  | _ => pure ()

/-- Pops what was pushed for a method. -/
def leaveMethod (context : Scopes.MethodContext) : Bind Unit := do
  let (result, s) := (← getScopes).leaveMethod context
  setScopes s
  match result with
  | .ok () => pure ()
  | .error b => throw b

/-- Binds the inside of a method among the members of its type. If the type is not declared at all,
the body is bound without them. -/
def inMethod (d : CallableDecl) (inside : Bind Unit) : Bind Unit := do
  match ← ended ((← getScopes).enterMethod d.owner d.name) with
  | .error e =>
    lookupFailed d.info.line e
    if e.fault = .compositeNotFound then
      enter d.name (some (.callable d))
      declareSelf d
      inside
      leave
  | .ok (s, context) =>
    setScopes s
    bindHeading d s.top.owner
    declareSelf d
    inside
    leaveMethod context

/-- Declares the variable for the result of a function. -/
def declareResult (d : CallableDecl) : Bind Unit := do
  if d.isFunction then
    declareImplicit d
      { info := ← newInfo d.info.line, name := "Result", type := d.result, kind := .result }

/-- Binds the body of a routine in the frame on top; a function gets a variable for its result. -/
def inBody (d : CallableDecl) (body : Bind Unit) : Bind Unit := do
  declareResult d
  let place := (← getScopes).depth - 1
  modify fun b => { b with routines := place :: b.routines }
  body
  modify fun b => { b with routines := b.routines.drop 1 }

/-- Checks an accessor of a property of a type. -/
def checkAccessor (s : Scopes) (type : Text) (line : Nat) (accessor : Text) : Bind Unit := do
  unless accessor.isEmpty do
    if let .error e ← ended (s.fetchMember type accessor) then lookupFailed line e

/-- Checks the accessors of a member, if it is a property. -/
def checkMember (s : Scopes) (type : Text) : Member → Bind Unit
  | .property p => do
    checkAccessor s type p.info.line p.read
    checkAccessor s type p.info.line p.write
  | _ => pure ()

/-- Checks the accessors of the properties of a type, and that its ancestors can be loaded. -/
def checkComposite (c : CompositeDecl) : Bind Unit := do
  let s ← getScopes
  c.members.forM (checkMember s c.name)
  if let .error e := s.loadHeritage c.name then lookupFailed c.info.line e

/-- Declares a constant and folds it, unless it has a type of its own. -/
def declareConst (d : ConstDecl) : Bind Unit := do
  let free ← register d.info.line d.name (.const d)
  if free && d.kind != .typed then
    match d.value with
    | none => pure ()
    | some e =>
      match ← folding (Folding.fold · e) with
      | .error c => complain d.info.line (.inConstant d.name c)
      | .ok none => warn d.info.line (.inConstant d.name .notConstant)
      | .ok (some _) => pure ()

/-- Checks that an item of an exports clause denotes a routine. -/
def checkExported (d : ExportDecl) : Bind Unit := do
  if let .error e := (← getScopes).fetchCallable d.name then complain d.info.line (.scope e)

/-- Binds an item of an exports clause. -/
def visitExport (d : ExportDecl) : Bind Unit := do
  checkExported d
  visitOptExpr d.exportName
  visitOptExpr d.index

/-- Checks the name of the variable whose place another one shares. -/
def checkAbsolute (d : VarDecl) : Bind Unit := do
  if !d.absolute.isEmpty && ((← getScopes).find? d.absolute).isNone then
    unresolved d.info.line d.absolute

/-- Declares a variable that may share the place of another one. -/
def declareVar (d : VarDecl) : Bind Unit := do
  checkAbsolute d
  discard (register d.info.line d.name (.var d))

mutual

/-- Binds the names that a type refers to; `name` is its own name if it is declared. -/
def visitType (t : TypeExpr) (name : Text) : Bind Unit :=
  match t with
  | .ordinal .. | .real .. | .rawPointer .. | .rawString .. | .variant .. => pure ()
  | .named t => resolveType t
  | .string _ none => pure ()
  | .string _ (some e) => visitLength e
  | .subrange info low high => visitSubrange info low high
  | .enum info members => visitEnum info members name
  | .pointer _ t | .classRef _ t | .set _ t => visitType t ∅
  | .array _ _ index elem _ => do
    visitTypes index
    visitOptType elem
  | .file _ elem => visitOptType elem
  | .record _ _ members part => do
    enter "record"
    visitFields members
    visitVariant part
    leave
  | .proc _ params result _ => do
    enter "proc"
    visitOptParams params
    visitOptType result
    leave
  -- classes and interfaces without a name are not looked into
  | .classType .. | .interface .. => pure ()

/-- Binds types in order. -/
def visitTypes : List TypeExpr → Bind Unit
  | [] => pure ()
  | t :: ts => do
    visitType t ∅
    visitTypes ts

/-- Binds a type that may be absent. -/
def visitOptType : Option TypeExpr → Bind Unit
  | none => pure ()
  | some t => visitType t ∅

/-- Binds and declares parameters. -/
def visitParams : List ParamDecl → Bind Unit
  | [] => pure ()
  | ⟨info, name, kind, type, default⟩ :: params => do
    visitOptType type
    visitOptExpr default
    discard (register info.line name (.param ⟨info, name, kind, type, default⟩))
    visitParams params

/-- Binds parameters that may be absent. -/
def visitOptParams : Option (List ParamDecl) → Bind Unit
  | none => pure ()
  | some params => visitParams params

/-- Declares a field of a type. -/
def visitField : VarDecl → Bind Unit
  | ⟨info, name, type, init, absolute, kind, visibility⟩ => do
    visitOptType type
    discard (register info.line name
      (.var ⟨info, name, type, init, absolute, kind, visibility⟩))

/-- Declares the fields among the members of a record without a name. -/
def visitFields : List Member → Bind Unit
  | [] => pure ()
  | .var d :: members => do
    visitField d
    visitFields members
  | .callable _ :: members => visitFields members
  | .property _ :: members => visitFields members

/-- Declares the fields of one case of a variant part. -/
def visitCaseFields : List VarDecl → Bind Unit
  | [] => pure ()
  | d :: ds => do
    visitField d
    visitCaseFields ds

/-- Binds the cases of a variant part. -/
def visitVariantCases : List VariantCase → Bind Unit
  | [] => pure ()
  | ⟨_, labels, fields⟩ :: cases => do
    visitExprs labels
    visitCaseFields fields
    visitVariantCases cases

/-- Binds a variant part that may be absent. -/
def visitVariant : Option VariantPart → Bind Unit
  | none => pure ()
  | some ⟨info, tag, tagType, cases⟩ => do
    visitType tagType ∅
    declareTag info tag tagType
    visitVariantCases cases

/-- Binds a routine. -/
def visitCallable (d : CallableDecl) : Bind Unit :=
  match d with
  | ⟨_, _, owner, _, _, params, result, _, body, _, _, _, _⟩ =>
    let inside : Bind Unit := do
      visitOptParams params
      visitOptType result
      visitBody d body
    if !owner.isEmpty && body.isSome then inMethod d inside else inRoutine d inside

/-- Binds the body of a routine, if it has one. -/
def visitBody (d : CallableDecl) : Option Block → Bind Unit
  | none => pure ()
  | some ⟨_, decls, body⟩ => inBody d do
    visitDecls false decls
    visitStmt body

/-- Binds and declares the members of a class, interface or record. -/
def visitMembers : List Member → Bind Unit
  | [] => pure ()
  | .var d :: members => do
    visitField d
    visitMembers members
  | .callable d :: members => do
    visitCallable d
    visitMembers members
  | .property d :: members => do
    visitProperty d
    visitMembers members

/-- Binds and declares a property; its parameters are seen only in itself. -/
def visitProperty : PropertyDecl → Bind Unit
  | ⟨info, name, params, type, read, write, index, default, stored, noDefault, implements,
      defaultArray, visibility⟩ => do
    enter name
    visitParams params
    leave
    visitOptType type
    visitOptExpr index
    visitOptExpr default
    visitOptExpr stored
    discard (register info.line name (.property ⟨info, name, params, type, read, write, index,
      default, stored, noDefault, implements, defaultArray, visibility⟩))

/-- Binds what the type of a class, interface or record holds besides its members. -/
def visitRest : TypeExpr → Bind Unit
  | .record _ _ _ part => visitVariant part
  | .interface _ _ guid _ _ _ => visitOptExpr guid
  | _ => pure ()

/-- Binds declarations in order. Types that follow each other are all declared before the first is
bound, so that they can refer to each other; `declared` tells that this is done for those in
front. -/
def visitDecls (declared : Bool) : List Decl → Bind Unit
  | [] => pure ()
  | .type ⟨info, name, t⟩ :: ds => do
    declareTypes declared (.type ⟨info, name, t⟩ :: ds.takeWhile isTypeDecl)
    visitType t name
    visitDecls true ds
  | .composite ⟨info, name, kind, heritage, members, type⟩ :: ds => do
    let c : CompositeDecl := ⟨info, name, kind, heritage, members, type⟩
    declareTypes declared (.composite c :: ds.takeWhile isTypeDecl)
    enter name (some (.composite c))
    visitMembers members
    visitRest type
    leave
    checkComposite c
    visitDecls true ds
  | .var ⟨info, name, type, init, absolute, kind, visibility⟩ :: ds => do
    visitOptType type
    visitOptExpr init
    declareVar ⟨info, name, type, init, absolute, kind, visibility⟩
    visitDecls false ds
  | .const ⟨info, name, type, value, kind⟩ :: ds => do
    visitOptType type
    visitOptExpr value
    declareConst ⟨info, name, type, value, kind⟩
    visitDecls false ds
  | .callable d :: ds => do
    visitCallable d
    visitDecls false ds
  | .label d :: ds => do
    discard (register d.info.line d.name (.label d))
    visitDecls false ds
  | .exported d :: ds => do
    visitExport d
    visitDecls false ds
  | .param _ :: _ => throw (.unexpectedDecl "ParamDecl")
  | .property _ :: _ => throw (.unexpectedDecl "PropertyDecl")
  | .unit _ :: _ => throw (.unexpectedDecl "UnitRef")
  | .enumMember _ :: _ => throw (.unexpectedDecl "EnumMember")

end

/-- Binds a block. -/
def visitBlock (b : Block) : Bind Unit := do
  visitDecls false b.decls
  visitStmt b.body

/-- Declares the units of a clause. -/
def declareUnits (units : List UnitRef) : Bind Unit :=
  units.forM fun u => discard (register u.info.line u.name (.unit u))

/-- Binds a source into the frame on top. -/
def visitGoal : Goal → Bind Unit
  | .program g => do
    declareUnits g.uses
    visitBlock g.block
  | .library g => do
    declareUnits g.uses
    visitBlock g.block
  | .unit g => do
    declareUnits g.publicUses
    visitDecls false g.publicDecls
    declareUnits g.ownUses
    visitDecls false g.ownDecls
    visitStmts g.init
    visitStmts g.final
  | .package g => declareUnits g.contains

/-- Binds a source. The result tells what was found, also if a rule was broken on the way. -/
def run (b : Binding) (g : Goal) : Except Breach Unit × Binding := (visitGoal g).run.run b

/-- Whether no error was found. -/
def isClean (b : Binding) : Bool := b.errors.isEmpty

/-- Binds a parsed source with fresh scopes. -/
def ofGoal (config : Config) (path : Text) (g : Goal) (last : Nat) : Except Breach Unit × Binding :=
  run { scopes := .initial config, notes := .forTree last, path } g

end ObjectPascal.Binding
