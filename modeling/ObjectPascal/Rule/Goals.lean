import ObjectPascal.Rule.Build

/-!
Whole sources and names.
-/

namespace ObjectPascal.Rule

open Kind Phrase

/-- Programs, units, libraries and packages. -/
def goals : List Rule := [
  rule goal [program] fun g => give g,
  rule goal [unit] fun g => give g,
  rule goal [library] fun g => give g,
  rule goal [package] fun g => give g,
  rule program [PROGRAM, identifier, progParamsOpt, semicolon, usesOpt, block, dot]
    fun _ name params _ uses block _ => build do
      return .program
        { info := ← node, name := name.text, params := params.getD [], uses := uses.getD [],
          block },
  rule progParamsOpt [] (give none),
  rule progParamsOpt [leftParen, identList, rightParen]
    fun _ names _ => give (some (names.map Token.text)),
  rule unit [UNIT, qualident, semicolon, INTERFACE, usesOpt, intfDeclsOpt, IMPLEMENTATION, usesOpt,
      declsOpt, unitEnd, dot]
    fun _ name _ _ publicUses publicDecls _ ownUses ownDecls ending _ => build do
      return .unit
        { info := ← node, name, publicUses := publicUses.getD [],
          publicDecls := publicDecls.getD [], ownUses := ownUses.getD [],
          ownDecls := ownDecls.getD [], init := ending.init, final := ending.final },
  rule unitEnd [END] fun _ => give {},
  rule unitEnd [INITIALIZATION, stmtList, END] fun _ init _ => give { init },
  rule unitEnd [INITIALIZATION, stmtList, FINALIZATION, stmtList, END]
    fun _ init _ final _ => give { init, final },
  rule unitEnd [BEGIN, stmtList, END] fun _ init _ => give { init },
  rule library [LIBRARY, identifier, semicolon, usesOpt, block, dot]
    fun _ name _ uses block _ => build do
      return .library { info := ← node, name := name.text, uses := uses.getD [], block },
  rule package [PACKAGE, qualident, semicolon, requiresOpt, containsOpt, END, dot]
    fun _ name _ requires contains _ _ => build do
      return .package
        { info := ← node, name, requires := requires.getD [], contains := contains.getD [] },
  rule requiresOpt [] (give none),
  rule requiresOpt [REQUIRES, qualidentList, semicolon] fun _ names _ => give (some names),
  rule containsOpt [] (give none),
  rule containsOpt [CONTAINS, usesList, semicolon] fun _ units _ => give (some units),
  rule usesOpt [] (give none),
  rule usesOpt [USES, usesList, semicolon] fun _ units _ => give (some units),
  rule usesList [usesItem] fun u => give [u],
  rule usesList [usesList, comma, usesItem] fun us _ u => give (snoc us u),
  rule usesItem [qualident] fun name => build do return { info := ← node, name },
  rule usesItem [qualident, IN, string] fun name _ path => build do
    return { info := ← node, name, path := path.text }]

/-- Directives are names too; only some places give them a meaning of their own. -/
def names : List Rule :=
  [rule identifier [ident] fun t => give t] ++
  (Kind.all.filter (·.family == .directive)).map
    (fun (k : Kind) => rule identifier [k] fun t => give t) ++ [
  rule identList [identifier] fun t => give [t],
  rule identList [identList, comma, identifier] fun ts _ t => give (snoc ts t),
  rule qualident [identifier] fun t => give t.text,
  rule qualident [qualident, dot, identifier]
    fun (q : Text) _ t => give (q ++ Text.ofString "." ++ t.text),
  rule qualidentList [qualident] fun q => give [q],
  rule qualidentList [qualidentList, comma, qualident] fun qs _ q => give (snoc qs q),
  rule labelId [identifier] fun t => give t,
  rule labelId [integer] fun t => give t,
  rule optSemi [] (give none),
  rule optSemi [semicolon] fun t => give (some t)]

end ObjectPascal.Rule
