import ObjectPascal.Decimal.Double
import ObjectPascal.Syntax.Node

/-!
The outline of a tree: nested records that show of every node its kind, its line and its parts
under fixed keys. What is absent, empty, false or zero is left out. Further entries for expressions
come from the caller, so the same outline shows a bare tree and one with what was found out about
it.
-/

namespace ObjectPascal

/-- A tree of texts, lists and records. A record may hold a key twice. -/
inductive Outline where
  | text (t : Text)
  | list (items : List Outline)
  | record (entries : List (String × Outline))

namespace Outline

/-- An entry of a record. -/
abbrev Entry := String × Outline

/-- The entry for a text that is not empty. -/
def ofText (key : String) (t : Text) : List Entry := if t.isEmpty then [] else [(key, text t)]

/-- The entry for a number that is not zero. -/
def ofNumber (key : String) (n : Nat) : List Entry :=
  if n = 0 then [] else [(key, text (Text.ofNat n))]

/-- The entry for a word, unless it is the one left out. -/
def ofWord (key : String) (shown : Bool) (word : String) : List Entry :=
  if shown then [(key, text word)] else []

/-- The entry for a mark that is set. -/
def ofFlag (key : String) (b : Bool) : List Entry := ofWord key b "true"

/-- The entry for a list that is not empty. -/
def ofList (key : String) (items : List Outline) : List Entry :=
  if items.isEmpty then [] else [(key, list items)]

/-- The entry for a list of texts that is not empty. -/
def ofTexts (key : String) (ts : List Text) : List Entry := ofList key (ts.map text)

/-- The entry for a part that is present. -/
def ofOption (key : String) (o : Option Outline) : List Entry :=
  match o with
  | some item => [(key, item)]
  | none => []

/-- The record of a node. -/
def ofNode (kind : String) (info : NodeInfo) (entries : List (List Entry)) : Outline :=
  record (("kind", text kind) :: ofNumber "line" info.line ++ entries.flatten)

end Outline

open Outline hiding text list record

section

-- further entries for an expression
variable (notes : Expr → List Outline.Entry)

mutual

/-- The outline of an expression. -/
def Expr.outline (e : Expr) : Outline :=
  ofNode e.kindName e.info (notes e :: match e with
    | .int _ value text => [ofNumber "value" value.toNat, ofText "text" text]
    | .real _ value text =>
      [if value.toBits = 0 then [] else [("value", .text (Decimal.realText value))],
        ofText "text" text]
    | .char _ code => [ofNumber "value" code]
    | .string _ value => [ofText "value" value]
    | .bool _ value => [ofFlag "value" value]
    | .nil _ => []
    | .array _ es => [ofList "elems" (exprsOutline es)]
    | .record _ fs => [ofList "fields" (fieldInitsOutline fs)]
    | .set _ es => [[("elems", .list (exprsOutline es))]]
    | .range _ l h => [[("low", l.outline), ("high", h.outline)]]
    | .unary _ op e => [ofWord "op" (op != .plus) op.spelling, [("operand", e.outline)]]
    | .binary _ op l r =>
      [ofWord "op" (op != .add) op.spelling, [("left", l.outline), ("right", r.outline)]]
    | .ident _ name => [ofText "name" name]
    | .call _ callee args =>
      [[("callee", callee.outline)], ofOption "args" (argsOutline args)]
    | .field _ e name => [[("object", e.outline)], ofText "field" name]
    | .index _ e es => [[("array", e.outline)], ofList "indexes" (exprsOutline es)]
    | .deref _ e => [[("pointer", e.outline)]]
    | .inherited _ method args => [ofText "method" method, ofOption "args" (argsOutline args)]
    | .name _ name => [ofText "name" name]
    | .result _ routine => [ofText "routine" routine])

/-- The outlines of expressions. -/
def exprsOutline : List Expr → List Outline
  | [] => []
  | e :: es => e.outline :: exprsOutline es

/-- The outline of arguments; an empty list is shown if parentheses are written. -/
def argsOutline : Option (List Expr) → Option Outline
  | none => none
  | some es => some (.list (exprsOutline es))

/-- The outlines of field values. -/
def fieldInitsOutline : List FieldInit → List Outline
  | [] => []
  | ⟨i, name, value⟩ :: fs =>
    ofNode "FieldInit" i [ofText "name" name, [("value", value.outline)]] :: fieldInitsOutline fs

end

/-- The entry for an expression that may be absent. -/
def ofExpr (key : String) (e : Option Expr) : List Entry :=
  ofOption key (e.map (Expr.outline notes))

/-- The outline of a named type. -/
def NamedType.outline (t : NamedType) : Outline := ofNode "NamedType" t.info [ofText "name" t.name]

mutual

/-- The outline of a statement. -/
def Stmt.outline (s : Stmt) : Outline :=
  ofNode s.kindName s.info (match s with
    | .compound _ ss => [ofList "stmts" (stmtsOutline ss)]
    | .assign _ t v => [[("target", t.outline notes), ("value", v.outline notes)]]
    | .call _ e => [[("call", e.outline notes)]]
    | .cond _ e yes no =>
      [[("cond", e.outline notes), ("then", yes.outline)], ofOption "else" (optStmtOutline no)]
    | .caseOf _ e arms rest =>
      [[("selector", e.outline notes)], ofList "arms" (armsOutline arms),
        ofList "else" (stmtsOutline rest)]
    | .forTo _ var low high down body =>
      [ofText "var" var, [("from", low.outline notes), ("to", high.outline notes)],
        ofFlag "down" down, [("body", body.outline)]]
    | .forIn _ var e body =>
      [ofText "var" var, [("coll", e.outline notes), ("body", body.outline)]]
    | .whileDo _ e body => [[("cond", e.outline notes), ("body", body.outline)]]
    | .repeatUntil _ body e =>
      [ofList "body" (stmtsOutline body), [("cond", e.outline notes)]]
    | .withDo _ es body => [ofList "objects" (exprsOutline notes es), [("body", body.outline)]]
    | .tryExcept _ body handlers rest plain =>
      [ofList "body" (stmtsOutline body), ofList "handlers" (handlersOutline handlers),
        ofList "else" (stmtsOutline rest), ofList "default" (stmtsOutline plain)]
    | .tryFinally _ body finish =>
      [ofList "body" (stmtsOutline body), ofList "finally" (stmtsOutline finish)]
    | .raise _ e place => [ofExpr notes "exception" e, ofExpr notes "at" place]
    | .goto _ label => [ofText "label" label]
    | .labeled _ label s => [ofText "label" label, [("stmt", s.outline)]]
    | .asm _ text => [ofText "text" text]
    | .empty _ | .breakLoop _ | .continueLoop _ => [])

/-- The outlines of statements. -/
def stmtsOutline : List Stmt → List Outline
  | [] => []
  | s :: ss => s.outline :: stmtsOutline ss

/-- The outline of a statement that may be absent. -/
def optStmtOutline : Option Stmt → Option Outline
  | none => none
  | some s => some s.outline

/-- The outlines of the arms of a case statement. -/
def armsOutline : List CaseArm → List Outline
  | [] => []
  | ⟨i, labels, body⟩ :: as =>
    ofNode "CaseArm" i
      [ofList "labels" (exprsOutline notes labels), [("body", body.outline)]] :: armsOutline as

/-- The outlines of handlers. -/
def handlersOutline : List Handler → List Outline
  | [] => []
  | ⟨i, var, type, body⟩ :: hs =>
    ofNode "ExceptHandler" i
      [ofText "var" var, [("type", type.outline), ("body", body.outline)]] :: handlersOutline hs

end

/-- The outline of a member of an enumeration. -/
def EnumMember.outline (m : EnumMember) : Outline :=
  ofNode "EnumMember" m.info [ofText "name" m.name, ofExpr notes "value" m.value]

/-- The outline of an item of a clause that lists units. -/
def UnitRef.outline (u : UnitRef) : Outline :=
  ofNode "UnitRef" u.info [ofText "name" u.name, ofText "path" u.path]

/-- The outline of a directive. -/
def Directive.outline (d : Directive) : Outline :=
  .record (("tok", .text d.kind.spelling) :: ofExpr notes "arg" d.arg)

/-- The outline of the clause of an external routine. -/
def ExternalSpec.outline (e : ExternalSpec) : Outline :=
  .record (ofExpr notes "library" e.library ++ ofExpr notes "name" e.name ++
    ofExpr notes "index" e.index)

/-- The entry for a visibility that is written. -/
def ofVisibility (v : Visibility) : List Entry := ofWord "visibility" (v != .default) v.spelling

mutual

/-- The outline of a type. -/
def TypeExpr.outline (t : TypeExpr) : Outline :=
  ofNode t.kindName t.info (match t with
    | .named t => [ofText "name" t.name]
    | .string _ e => [ofExpr notes "length" e]
    | .subrange _ l h => [[("low", l.outline notes), ("high", h.outline notes)]]
    | .enum _ ms => [ofList "members" (ms.map (EnumMember.outline notes))]
    | .pointer _ t | .classRef _ t => [[("target", t.outline)]]
    | .array _ packed index elem ofConst =>
      [ofFlag "packed" packed, ofList "index" (typesOutline index),
        ofOption "elem" (optTypeOutline elem), ofFlag "ofConst" ofConst]
    | .set _ t => [[("elem", t.outline)]]
    | .file _ elem => [ofOption "elem" (optTypeOutline elem)]
    | .record _ packed ms part =>
      [ofFlag "packed" packed, ofList "members" (membersOutline ms),
        ofOption "variant" (optVariantOutline part)]
    | .classType _ heritage ms forward =>
      [ofTexts "heritage" heritage, ofList "members" (membersOutline ms),
        ofFlag "forward" forward]
    | .interface _ heritage guid ms dispatch forward =>
      [ofTexts "heritage" heritage, ofExpr notes "gUID" guid,
        ofList "members" (membersOutline ms), ofFlag "dispatch" dispatch,
        ofFlag "forward" forward]
    | .proc _ params result ofObject =>
      [ofOption "params" (optParamsOutline params), ofOption "result" (optTypeOutline result),
        ofFlag "ofObject" ofObject]
    | .ordinal _ name kind size signed =>
      [ofText "name" name, ofWord "kind" (kind != .integer) kind.spelling, ofNumber "size" size,
        ofFlag "signed" signed]
    | .real _ name size => [ofText "name" name, ofNumber "size" size]
    | .rawPointer _ name target => [ofText "name" name, ofOption "target" (optTypeOutline target)]
    | .rawString _ name wide short =>
      [ofText "name" name, ofFlag "wide" wide, ofFlag "short" short]
    | .variant _ name => [ofText "name" name])

/-- The outlines of types. -/
def typesOutline : List TypeExpr → List Outline
  | [] => []
  | t :: ts => t.outline :: typesOutline ts

/-- The outline of a type that may be absent. -/
def optTypeOutline : Option TypeExpr → Option Outline
  | none => none
  | some t => some t.outline

/-- The outline of a parameter. -/
def ParamDecl.outline : ParamDecl → Outline
  | ⟨i, name, kind, type, default⟩ =>
    ofNode "ParamDecl" i
      [ofText "name" name, ofWord "kind" (kind != .plain) kind.spelling,
        ofOption "type" (optTypeOutline type), ofExpr notes "default" default]

/-- The outlines of parameters. -/
def paramsOutline : List ParamDecl → List Outline
  | [] => []
  | p :: ps => p.outline :: paramsOutline ps

/-- The outline of parameters; an empty list is shown if parentheses are written. -/
def optParamsOutline : Option (List ParamDecl) → Option Outline
  | none => none
  | some ps => some (.list (paramsOutline ps))

/-- The outline of a variable. -/
def VarDecl.outline : VarDecl → Outline
  | ⟨i, name, type, init, absolute, kind, visibility⟩ =>
    ofNode "VarDecl" i
      [ofText "name" name, ofOption "type" (optTypeOutline type), ofExpr notes "init" init,
        ofText "absolute" absolute, ofNumber "kind" kind.ctorIdx, ofVisibility visibility]

/-- The outlines of variables. -/
def varsOutline : List VarDecl → List Outline
  | [] => []
  | d :: ds => d.outline :: varsOutline ds

/-- The outlines of the cases of a variant part. -/
def variantCasesOutline : List VariantCase → List Outline
  | [] => []
  | ⟨i, labels, fields⟩ :: cs =>
    ofNode "VariantCase" i
      [ofList "labels" (exprsOutline notes labels), ofList "fields" (varsOutline fields)] ::
      variantCasesOutline cs

/-- The outline of a variant part that may be absent. -/
def optVariantOutline : Option VariantPart → Option Outline
  | none => none
  | some ⟨i, tag, tagType, cases⟩ =>
    some (ofNode "VariantPart" i
      [ofText "tag" tag, [("tagType", tagType.outline)],
        ofList "cases" (variantCasesOutline cases)])

/-- The outline of a routine. -/
def CallableDecl.outline : CallableDecl → Outline
  | ⟨i, name, owner, kind, classMethod, params, result, directives, body, forward, external,
      visibility, builtin⟩ =>
    ofNode "CallableDecl" i
      [ofText "name" name, ofText "owner" owner,
        ofWord "kind" (kind != .procedure) kind.spelling, ofFlag "classMethod" classMethod,
        ofOption "params" (optParamsOutline params), ofOption "result" (optTypeOutline result),
        ofList "directives" (directives.map (Directive.outline notes)),
        ofOption "body" (optBlockOutline body), ofFlag "forward" forward,
        ofOption "external" (external.map (ExternalSpec.outline notes)), ofVisibility visibility,
        ofFlag "builtin" builtin]

/-- The outline of a property. -/
def PropertyDecl.outline : PropertyDecl → Outline
  | ⟨i, name, params, type, read, write, index, default, stored, noDefault, implements,
      defaultArray, visibility⟩ =>
    ofNode "PropertyDecl" i
      [ofText "name" name, ofList "params" (paramsOutline params),
        ofOption "type" (optTypeOutline type), ofText "read" read, ofText "write" write,
        ofExpr notes "index" index, ofExpr notes "default" default, ofExpr notes "stored" stored,
        ofFlag "noDefault" noDefault, ofTexts "implements" implements,
        ofFlag "defaultArray" defaultArray, ofVisibility visibility]

/-- The outlines of members. -/
def membersOutline : List Member → List Outline
  | [] => []
  | .var d :: ms => d.outline :: membersOutline ms
  | .callable d :: ms => d.outline :: membersOutline ms
  | .property d :: ms => d.outline :: membersOutline ms

/-- The outline of a block that may be absent. -/
def optBlockOutline : Option Block → Option Outline
  | none => none
  | some ⟨i, decls, body⟩ =>
    some (ofNode "Block" i
      [ofList "decls" (declsOutline decls), [("body", body.outline notes)]])

/-- The outlines of declarations. -/
def declsOutline : List Decl → List Outline
  | [] => []
  | .type ⟨i, name, t⟩ :: ds =>
    ofNode "TypeDecl" i [ofText "name" name, [("type", t.outline)]] :: declsOutline ds
  | .composite ⟨i, name, kind, heritage, members, type⟩ :: ds =>
    ofNode "CompositeDecl" i
      [ofText "name" name, ofNumber "kind" kind.ctorIdx, ofTexts "heritage" heritage,
        ofList "members" (membersOutline members), [("type", type.outline)]] :: declsOutline ds
  | .var d :: ds => d.outline :: declsOutline ds
  | .const ⟨i, name, type, value, kind⟩ :: ds =>
    ofNode "ConstDecl" i
      [ofText "name" name, ofOption "type" (optTypeOutline type), ofExpr notes "value" value,
        ofNumber "kind" kind.ctorIdx] :: declsOutline ds
  | .param d :: ds => d.outline :: declsOutline ds
  | .callable d :: ds => d.outline :: declsOutline ds
  | .property d :: ds => d.outline :: declsOutline ds
  | .label d :: ds => ofNode "LabelDecl" d.info [ofText "name" d.name] :: declsOutline ds
  | .unit d :: ds => d.outline :: declsOutline ds
  | .exported d :: ds =>
    ofNode "ExportDecl" d.info
      [ofText "name" d.name, ofExpr notes "exportName" d.exportName,
        ofExpr notes "index" d.index] :: declsOutline ds
  | .enumMember d :: ds => d.outline notes :: declsOutline ds

end

/-- The outline of a block. -/
def Block.outline (b : Block) : List Entry := ofOption "block" (optBlockOutline notes (some b))

/-- The outline of a source. -/
def Goal.outline (g : Goal) : Outline :=
  ofNode g.kindName g.info (ofText "name" g.name :: match g with
    | .program g =>
      [ofTexts "params" g.params, ofList "uses" (g.uses.map UnitRef.outline),
        g.block.outline notes]
    | .unit g =>
      [ofList "intfUses" (g.publicUses.map UnitRef.outline),
        ofList "interface" (declsOutline notes g.publicDecls),
        ofList "implUses" (g.ownUses.map UnitRef.outline),
        ofList "implementation" (declsOutline notes g.ownDecls),
        ofList "init" (stmtsOutline notes g.init), ofList "final" (stmtsOutline notes g.final)]
    | .library g => [ofList "uses" (g.uses.map UnitRef.outline), g.block.outline notes]
    | .package g =>
      [ofTexts "requires" g.requires, ofList "contains" (g.contains.map UnitRef.outline)])

end

end ObjectPascal
