import ObjectPascal.Syntax.Decl

/-!
Nodes of a tree, whatever they are, with their direct parts in the order of the source.
-/

namespace ObjectPascal

/-- Any node of a tree. -/
inductive Node where
  | goal (g : Goal)
  | block (b : Block)
  | decl (d : Decl)
  | type (t : TypeExpr)
  | variantPart (p : VariantPart)
  | variantCase (c : VariantCase)
  | stmt (s : Stmt)
  | caseArm (a : CaseArm)
  | handler (h : Handler)
  | expr (e : Expr)
  | fieldInit (f : FieldInit)

/-- The direct parts of an expression. -/
def Expr.children : Expr → List Node
  | .array _ es | .set _ es => es.map .expr
  | .record _ fs => fs.map .fieldInit
  | .range _ l h => [.expr l, .expr h]
  | .unary _ _ e => [.expr e]
  | .binary _ _ l r => [.expr l, .expr r]
  | .call _ callee args => .expr callee :: (args.getD []).map .expr
  | .field _ e _ => [.expr e]
  | .index _ e es => .expr e :: es.map .expr
  | .deref _ e => [.expr e]
  | .inherited _ _ args => (args.getD []).map .expr
  | .int .. | .real .. | .char .. | .string .. | .bool .. | .nil .. | .ident .. | .name ..
  | .result .. => []

/-- The direct parts of a statement. -/
def Stmt.children : Stmt → List Node
  | .compound _ ss => ss.map .stmt
  | .assign _ t v => [.expr t, .expr v]
  | .call _ e => [.expr e]
  | .cond _ e yes no => .expr e :: .stmt yes :: no.toList.map .stmt
  | .caseOf _ e arms rest => .expr e :: arms.map .caseArm ++ rest.map .stmt
  | .forTo _ _ low high _ body => [.expr low, .expr high, .stmt body]
  | .forIn _ _ e body => [.expr e, .stmt body]
  | .whileDo _ e body => [.expr e, .stmt body]
  | .repeatUntil _ body e => body.map .stmt ++ [.expr e]
  | .withDo _ es body => es.map .expr ++ [.stmt body]
  | .tryExcept _ body handlers rest plain =>
    body.map .stmt ++ handlers.map .handler ++ rest.map .stmt ++ plain.map .stmt
  | .tryFinally _ body finish => body.map .stmt ++ finish.map .stmt
  | .raise _ e place => e.toList.map .expr ++ place.toList.map .expr
  | .labeled _ _ s => [.stmt s]
  | .empty .. | .goto .. | .asm .. | .breakLoop .. | .continueLoop .. => []

/-- The direct parts of a type. -/
def TypeExpr.children : TypeExpr → List Node
  | .string _ e => e.toList.map .expr
  | .subrange _ l h => [.expr l, .expr h]
  | .enum _ ms => ms.map fun m => .decl (.enumMember m)
  | .pointer _ t | .classRef _ t | .set _ t => [.type t]
  | .array _ _ index elem _ => index.map .type ++ elem.toList.map .type
  | .file _ elem => elem.toList.map .type
  | .record _ _ ms part => ms.map (fun m => .decl m.decl) ++ part.toList.map .variantPart
  | .classType _ _ ms _ => ms.map fun m => .decl m.decl
  | .interface _ _ guid ms _ _ => guid.toList.map .expr ++ ms.map fun m => .decl m.decl
  | .proc _ params result _ =>
    (params.getD []).map (fun p => .decl (.param p)) ++ result.toList.map .type
  | .named _ | .ordinal .. | .real .. | .rawPointer .. | .rawString .. | .variant .. => []

/-- The expressions in the directives and the external clause of a routine. -/
def CallableDecl.clauseExprs (d : CallableDecl) : List Expr :=
  d.directives.filterMap Directive.arg ++
    match d.external with
    | some e => e.library.toList ++ e.name.toList ++ e.index.toList
    | none => []

/-- The direct parts of a declaration. Those of a composite are its members. -/
def Decl.children : Decl → List Node
  | .type d => [.type d.type]
  | .composite d => d.members.map fun m => .decl m.decl
  | .var d => d.type.toList.map .type ++ d.init.toList.map .expr
  | .const d => d.type.toList.map .type ++ d.value.toList.map .expr
  | .param d => d.type.toList.map .type ++ d.default.toList.map .expr
  | .callable d =>
    d.paramList.map (fun p => .decl (.param p)) ++ d.result.toList.map .type ++
      d.clauseExprs.map .expr ++ d.body.toList.map .block
  | .property d =>
    d.params.map (fun p => .decl (.param p)) ++ d.type.toList.map .type ++
      (d.index.toList ++ d.default.toList ++ d.stored.toList).map .expr
  | .exported d => (d.exportName.toList ++ d.index.toList).map .expr
  | .enumMember d => d.value.toList.map .expr
  | .label _ | .unit _ => []

/-- The direct parts of a source. -/
def Goal.children : Goal → List Node
  | .program g => g.uses.map (fun u => .decl (.unit u)) ++ [.block g.block]
  | .library g => g.uses.map (fun u => .decl (.unit u)) ++ [.block g.block]
  | .unit g =>
    g.publicUses.map (fun u => .decl (.unit u)) ++ g.publicDecls.map .decl ++
      g.ownUses.map (fun u => .decl (.unit u)) ++ g.ownDecls.map .decl ++ g.init.map .stmt ++
      g.final.map .stmt
  | .package g => g.contains.map fun u => .decl (.unit u)

namespace Node

/-- Number and line of a node. -/
def info : Node → NodeInfo
  | goal g => g.info
  | block b => b.info
  | decl d => d.info
  | type t => t.info
  | variantPart p => p.info
  | variantCase c => c.info
  | stmt s => s.info
  | caseArm a => a.info
  | handler h => h.info
  | expr e => e.info
  | fieldInit f => f.info

/-- The name of the kind of a node. -/
def kindName : Node → String
  | goal g => g.kindName
  | block _ => "Block"
  | decl d => d.kindName
  | type t => t.kindName
  | variantPart _ => "VariantPart"
  | variantCase _ => "VariantCase"
  | stmt s => s.kindName
  | caseArm _ => "CaseArm"
  | handler _ => "ExceptHandler"
  | expr e => e.kindName
  | fieldInit _ => "FieldInit"

/-- The direct parts of a node. -/
def children : Node → List Node
  | goal g => g.children
  | block b => b.decls.map .decl ++ [.stmt b.body]
  | decl d => d.children
  | type t => t.children
  | variantPart p => .type p.tagType :: p.cases.map .variantCase
  | variantCase c => c.labels.map .expr ++ c.fields.map fun f => .decl (.var f)
  | stmt s => s.children
  | caseArm a => a.labels.map .expr ++ [.stmt a.body]
  | handler h => [.type (.named h.type), .stmt h.body]
  | expr e => e.children
  | fieldInit f => [.expr f.value]

end Node
end ObjectPascal
