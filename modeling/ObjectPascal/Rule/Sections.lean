import ObjectPascal.Rule.Build

/-!
Blocks and the sections that declare labels, constants, types, variables and exports.
-/

namespace ObjectPascal.Rule

/-- One variable for each name of a group. -/
def groupDecls (kind : VarKind) (visibility : Visibility) (g : VarGroup) : Build (List VarDecl) :=
  g.names.mapM fun t => do
    return { info := ← nodeAt t.line, name := t.text, type := some g.type, init := g.init,
             absolute := g.absolute, kind, visibility }

/-- The variables of all groups of a section. -/
def variableSection (kind : VarKind) (gs : List VarGroup) : Build (List Decl) := do
  return ((← gs.mapM (groupDecls kind .default)).flatten).map Decl.var

/-- A method knows the type that declares it. -/
def ownedBy (owner : Text) : Member → Member
  | .callable d => .callable { d with owner }
  | m => m

/-- The declaration of a named type. Classes, interfaces and records become composites, unless they
are only announced. -/
def declareType (name : Token) (t : TypeExpr) : Build Decl := do
  let info ← nodeAt name.line
  let composite (kind : CompositeKind) (heritage : List Text) (members : List Member)
      (type : List Member → TypeExpr) : Decl :=
    let members := members.map (ownedBy name.text)
    .composite { info, name := name.text, kind, heritage, members, type := type members }
  return match t with
    | .classType i heritage members false =>
      composite .classType heritage members fun ms => .classType i heritage ms false
    | .interface i heritage guid members dispatch false =>
      composite (if dispatch then .dispInterface else .interface) heritage members fun ms =>
        .interface i heritage guid ms dispatch false
    | .record i packed members variant =>
      composite .record [] members fun ms => .record i packed ms variant
    | t => .type { info, name := name.text, type := t }

open Kind Phrase

/-- Blocks and lists of sections. -/
def blocks : List Rule := [
  rule block [declsOpt, blockBody] fun decls body => build do
    return { info := ← node, decls := decls.getD [], body },
  rule blockBody [compoundStmt] fun s => give s,
  rule blockBody [asm] fun t => build do return .asm (← node) t.text,
  rule declsOpt [] (give none),
  rule declsOpt [declList] fun ds => give (some ds),
  rule declList [declSection] fun ds => give ds,
  rule declList [declList, declSection] fun ds es => give (List.append ds es),
  rule declSection [labelSection] fun ds => give ds,
  rule declSection [constSection] fun ds => give ds,
  rule declSection [typeSection] fun ds => give ds,
  rule declSection [varSection] fun ds => give ds,
  rule declSection [threadvarSection] fun ds => give ds,
  rule declSection [rsSection] fun ds => give ds,
  rule declSection [exportsSection] fun ds => give ds,
  rule declSection [routineDecl] fun d => give [Decl.callable d],
  rule intfDeclsOpt [] (give none),
  rule intfDeclsOpt [intfDeclList] fun ds => give (some ds),
  rule intfDeclList [intfSection] fun ds => give ds,
  rule intfDeclList [intfDeclList, intfSection] fun ds es => give (List.append ds es),
  rule intfSection [constSection] fun ds => give ds,
  rule intfSection [typeSection] fun ds => give ds,
  rule intfSection [varSection] fun ds => give ds,
  rule intfSection [threadvarSection] fun ds => give ds,
  rule intfSection [rsSection] fun ds => give ds,
  rule intfSection [routineProto] fun d => give [Decl.callable d]]

/-- Labels, constants and types. -/
def constantSections : List Rule := [
  rule labelSection [LABEL, labelList, semicolon] fun _ ts _ => build do
    ts.mapM fun t => do return Decl.label { info := ← nodeAt t.line, name := t.text },
  rule labelList [labelId] fun t => give [t],
  rule labelList [labelList, comma, labelId] fun ts _ t => give (snoc ts t),
  rule constSection [CONST, constDecls] fun _ ds => give ds,
  rule constDecls [constDecl] fun d => give [d],
  rule constDecls [constDecls, constDecl] fun ds d => give (snoc ds d),
  rule constDecl [identifier, equal, expr, semicolon] fun name _ value _ => build do
    return .const { info := ← node, name := name.text, value := some value },
  rule constDecl [identifier, colon, type, equal, typedConst, semicolon]
    fun name _ type _ value _ => build do
      return .const
        { info := ← node, name := name.text, type := some type, value := some value,
          kind := .typed },
  rule rsSection [RESOURCESTRING, rsDecls] fun _ ds => give ds,
  rule rsDecls [rsDecl] fun d => give [d],
  rule rsDecls [rsDecls, rsDecl] fun ds d => give (snoc ds d),
  rule rsDecl [identifier, equal, expr, semicolon] fun name _ value _ => build do
    return .const { info := ← node, name := name.text, value := some value, kind := .resource },
  rule typeSection [TYPE, typeDecls] fun _ ds => give ds,
  rule typeDecls [typeDecl] fun d => give [d],
  rule typeDecls [typeDecls, typeDecl] fun ds d => give (snoc ds d),
  rule typeDecl [identifier, equal, type, semicolon] fun name _ t _ => declareType name t,
  rule typeDecl [identifier, equal, classShort, semicolon] fun name _ t _ => declareType name t,
  rule typeDecl [identifier, equal, interfaceShort, semicolon]
    fun name _ t _ => declareType name t]

/-- Variables and exports. -/
def variableSections : List Rule := [
  rule varSection [VAR, varDecls] fun _ gs => variableSection .plain gs,
  rule threadvarSection [THREADVAR, varDecls] fun _ gs => variableSection .thread gs,
  rule varDecls [varDecl] fun g => give [g],
  rule varDecls [varDecls, varDecl] fun gs g => give (snoc gs g),
  rule varDecl [identList, colon, type, varInitOpt, semicolon] fun names _ type init _ => build do
    let init := init.getD {}
    if init.init.isSome && 1 < names.length then
      reject (← read).line "only one variable can be initialized"
    return { names, type, init := init.init, absolute := init.absolute },
  rule varInitOpt [] (give none),
  rule varInitOpt [equal, typedConst] fun _ e => give (some { init := some e }),
  rule varInitOpt [ABSOLUTE, qualident] fun _ q => give (some { absolute := q }),
  rule exportsSection [EXPORTS, exportList, semicolon] fun _ ds _ => give ds,
  rule exportList [exportItem] fun d => give [d],
  rule exportList [exportList, comma, exportItem] fun ds _ d => give (snoc ds d),
  rule exportItem [identifier] fun name => build do
    return .exported { info := ← node, name := name.text },
  rule exportItem [identifier, NAME, expr] fun name _ e => build do
    return .exported { info := ← node, name := name.text, exportName := some e },
  rule exportItem [identifier, INDEX, expr] fun name _ e => build do
    return .exported { info := ← node, name := name.text, index := some e },
  rule exportItem [identifier, INDEX, expr, NAME, expr] fun name _ i _ e => build do
    return .exported
      { info := ← node, name := name.text, index := some i, exportName := some e }]

/-- All rules on sections. -/
def sections : List Rule := blocks ++ constantSections ++ variableSections

end ObjectPascal.Rule
