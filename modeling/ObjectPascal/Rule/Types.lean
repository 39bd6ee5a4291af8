import ObjectPascal.Rule.Sections

/-!
Types.
-/

namespace ObjectPascal.Rule

/-- The parts of a qualified name. -/
def splitName (name : Text) : List Text :=
  (name.bytes.splitOn 0x2E).map Text.mk

/-- A qualified name as the expression it would be read as. -/
def dotted (name : Text) : Build Expr := do
  match splitName name with
  | [] => return .name (← node) name
  | first :: fields =>
    let base : Expr := .name (← node) first
    fields.foldlM (fun e f => do return .field (← node) e f) base

/-- A record. Members other than fields need a dialect that has them. -/
def recordOf (packed : Bool) (members : Option MemberList) (variant : Option VariantPart) :
    Build TypeExpr := do
  let items := (members.map (·.items)).getD []
  for m in items do
    match m with
    | .var _ => pure ()
    | m => require .recordMethods m.info.line "records with methods or properties"
  return .record (← node) packed items variant

/-- A case of the variant part of a record. -/
def variantCaseOf (labels : List Expr) (groups : List VarGroup) : Build VariantCase := do
  let info ← node
  return { info, labels, fields := (← groups.mapM (groupDecls .field .default)).flatten }

open Kind Phrase

/-- The forms of a type, names of types, and the simple types. -/
def simpleTypes : List Rule := [
  rule type [namedType] fun t => give t,
  rule type [stringType] fun t => give t,
  rule type [subrangeType] fun t => give t,
  rule type [enumType] fun t => give t,
  rule type [pointerType] fun t => give t,
  rule type [classrefType] fun t => give t,
  rule type [arrayType] fun t => give t,
  rule type [setType] fun t => give t,
  rule type [fileType] fun t => give t,
  rule type [recordType] fun t => give t,
  rule type [classType] fun t => give t,
  rule type [interfaceType] fun t => give t,
  rule type [procType] fun t => give t,
  rule namedType [qualident] fun name => build do return .named { info := ← node, name },
  rule namedType [STRING] fun _ => build do return .string (← node) none,
  rule stringType [STRING, leftBracket, expr, rightBracket] fun _ _ e _ => build do
    return .string (← node) (some e),
  rule subrangeType [expr, dotDot, expr] fun low _ high => build do
    return .subrange (← node) low high,
  -- a dotted low bound is read as a qualified type name until the two dots come
  rule subrangeType [qualident, dot, identifier, dotDot, expr]
    fun (q : Text) _ t _ high => build do
      let low ← dotted (q ++ Text.ofString "." ++ t.text)
      return .subrange (← node) low high,
  rule enumType [leftParen, enumList, rightParen] fun _ ms _ => build do
    return .enum (← node) ms,
  rule enumList [enumItem] fun m => give [m],
  rule enumList [enumList, comma, enumItem] fun ms _ m => give (snoc ms m),
  rule enumItem [identifier] fun name => build do return { info := ← node, name := name.text },
  rule enumItem [identifier, equal, expr] fun name _ e => build do
    return { info := ← node, name := name.text, value := some e },
  rule pointerType [caret, namedType] fun _ t => build do return .pointer (← node) t,
  rule classrefType [CLASS, OF, namedType] fun _ _ t => build do return .classRef (← node) t]

/-- Arrays, records, sets and files. -/
def structuredTypes : List Rule := [
  rule arrayType [ARRAY, leftBracket, indexList, rightBracket, OF, type]
    fun _ _ index _ _ elem => build do return .array (← node) false index (some elem) false,
  rule arrayType [ARRAY, OF, type] fun _ _ elem => build do
    return .array (← node) false [] (some elem) false,
  rule recordType [RECORD, membersOpt, variantOpt, END] fun _ ms v _ => recordOf false ms v,
  rule arrayType [PACKED, ARRAY, leftBracket, indexList, rightBracket, OF, type]
    fun _ _ _ index _ _ elem => build do return .array (← node) true index (some elem) false,
  rule arrayType [PACKED, ARRAY, OF, type] fun _ _ _ elem => build do
    return .array (← node) true [] (some elem) false,
  rule recordType [PACKED, RECORD, membersOpt, variantOpt, END]
    fun _ _ ms v _ => recordOf true ms v,
  rule indexList [type] fun t => give [t],
  rule indexList [indexList, comma, type] fun ts _ t => give (snoc ts t),
  rule setType [SET, OF, type] fun _ _ t => build do return .set (← node) t,
  rule fileType [FILE] fun _ => build do return .file (← node) none,
  rule fileType [FILE, OF, type] fun _ _ t => build do return .file (← node) (some t)]

/-- Classes, interfaces and types of routines. The short forms of a class or interface come only in
a type section, where the semicolon tells them apart. -/
def classTypes : List Rule := [
  rule classType [CLASS, heritageOpt, membersOpt, END] fun _ heritage ms _ => build do
    return .classType (← node) (heritage.getD []) ((ms.map (·.items)).getD []) false,
  rule classShort [CLASS, Phrase.heritage] fun _ heritage => build do
    return .classType (← node) heritage [] false,
  rule classShort [CLASS] fun _ => build do return .classType (← node) [] [] true,
  rule heritageOpt [] (give none),
  rule heritageOpt [heritage] fun names => give (some names),
  rule heritage [leftParen, qualidentList, rightParen] fun _ names _ => give names,
  rule interfaceType [INTERFACE, heritageOpt, guidOpt, membersOpt, END]
    fun _ heritage guid ms _ => build do
      return .interface (← node) (heritage.getD []) guid ((ms.map (·.items)).getD []) false false,
  rule interfaceShort [INTERFACE] fun _ => build do
    return .interface (← node) [] none [] false true,
  rule interfaceType [DISPINTERFACE, heritageOpt, guidOpt, membersOpt, END]
    fun _ heritage guid ms _ => build do
      return .interface (← node) (heritage.getD []) guid ((ms.map (·.items)).getD []) true false,
  rule interfaceShort [DISPINTERFACE] fun _ => build do
    return .interface (← node) [] none [] true true,
  rule guidOpt [] (give none),
  rule guidOpt [leftBracket, expr, rightBracket] fun _ e _ => give (some e),
  rule procType [PROCEDURE, paramsOpt, ofObjectOpt] fun _ params ofObject => build do
    return .proc (← node) params none ofObject.isSome,
  rule procType [FUNCTION, paramsOpt, colon, namedType, ofObjectOpt]
    fun _ params _ result ofObject => build do
      return .proc (← node) params (some result) ofObject.isSome,
  rule ofObjectOpt [] (give none),
  rule ofObjectOpt [OF, OBJECT] fun _ _ => give (some ())]

/-- The variant part of a record. -/
def variantParts : List Rule := [
  rule variantOpt [] (give none),
  rule variantOpt [CASE, identifier, colon, namedType, OF, variantList, optSemi]
    fun _ tag _ tagType _ cases _ => build do
      return some { info := ← node, tag := tag.text, tagType, cases },
  rule variantOpt [CASE, namedType, OF, variantList, optSemi]
    fun _ tagType _ cases _ => build do return some { info := ← node, tag := ∅, tagType, cases },
  rule variantList [variantItem] fun c => give [c],
  rule variantList [variantList, semicolon, variantItem] fun cs _ c => give (snoc cs c),
  rule variantItem [caseLabelList, colon, leftParen, vfieldsOpt, rightParen]
    fun labels _ _ groups _ => variantCaseOf labels (groups.getD []),
  rule vfieldsOpt [] (give none),
  rule vfieldsOpt [vfieldList, optSemi] fun gs _ => give (some gs),
  rule vfieldList [fieldDecl] fun g => give [g],
  rule vfieldList [vfieldList, semicolon, fieldDecl] fun gs _ g => give (snoc gs g)]

/-- All rules on types. -/
def types : List Rule := simpleTypes ++ structuredTypes ++ classTypes ++ variantParts

end ObjectPascal.Rule
