import ObjectPascal.Syntax.Node

/-!
All nodes of a tree, each before its parts.
-/

namespace ObjectPascal

mutual

/-- An expression with all nodes below it. -/
def Expr.nodes (e : Expr) : List Node :=
  .expr e :: match e with
    | .array _ es | .set _ es => exprsNodes es
    | .record _ fs => fieldInitsNodes fs
    | .range _ l h => l.nodes ++ h.nodes
    | .unary _ _ e => e.nodes
    | .binary _ _ l r => l.nodes ++ r.nodes
    | .call _ callee args => callee.nodes ++ argsNodes args
    | .field _ e _ => e.nodes
    | .index _ e es => e.nodes ++ exprsNodes es
    | .deref _ e => e.nodes
    | .inherited _ _ args => argsNodes args
    | .int .. | .real .. | .char .. | .string .. | .bool .. | .nil .. | .ident .. | .name ..
    | .result .. => []

/-- The nodes of expressions in order. -/
def exprsNodes : List Expr → List Node
  | [] => []
  | e :: es => e.nodes ++ exprsNodes es

/-- The nodes of arguments. -/
def argsNodes : Option (List Expr) → List Node
  | none => []
  | some es => exprsNodes es

/-- The nodes of field values. -/
def fieldInitsNodes : List FieldInit → List Node
  | [] => []
  | ⟨i, n, e⟩ :: fs => .fieldInit ⟨i, n, e⟩ :: e.nodes ++ fieldInitsNodes fs

end

/-- The nodes of an expression that may be absent. -/
def optExprNodes (e : Option Expr) : List Node := exprsNodes e.toList

mutual

/-- A statement with all nodes below it. -/
def Stmt.nodes (s : Stmt) : List Node :=
  .stmt s :: match s with
    | .compound _ ss => stmtsNodes ss
    | .assign _ t v => t.nodes ++ v.nodes
    | .call _ e => e.nodes
    | .cond _ e yes no => e.nodes ++ yes.nodes ++ optStmtNodes no
    | .caseOf _ e arms rest => e.nodes ++ armsNodes arms ++ stmtsNodes rest
    | .forTo _ _ low high _ body => low.nodes ++ high.nodes ++ body.nodes
    | .forIn _ _ e body => e.nodes ++ body.nodes
    | .whileDo _ e body => e.nodes ++ body.nodes
    | .repeatUntil _ body e => stmtsNodes body ++ e.nodes
    | .withDo _ es body => exprsNodes es ++ body.nodes
    | .tryExcept _ body handlers rest plain =>
      stmtsNodes body ++ handlersNodes handlers ++ stmtsNodes rest ++ stmtsNodes plain
    | .tryFinally _ body finish => stmtsNodes body ++ stmtsNodes finish
    | .raise _ e place => optExprNodes e ++ optExprNodes place
    | .labeled _ _ s => s.nodes
    | .empty .. | .goto .. | .asm .. | .breakLoop .. | .continueLoop .. => []

/-- The nodes of statements in order. -/
def stmtsNodes : List Stmt → List Node
  | [] => []
  | s :: ss => s.nodes ++ stmtsNodes ss

/-- The nodes of a statement that may be absent. -/
def optStmtNodes : Option Stmt → List Node
  | none => []
  | some s => s.nodes

/-- The nodes of the arms of a case statement. -/
def armsNodes : List CaseArm → List Node
  | [] => []
  | ⟨i, labels, body⟩ :: as =>
    .caseArm ⟨i, labels, body⟩ :: exprsNodes labels ++ body.nodes ++ armsNodes as

/-- The nodes of handlers. -/
def handlersNodes : List Handler → List Node
  | [] => []
  | ⟨i, var, type, body⟩ :: hs =>
    .handler ⟨i, var, type, body⟩ :: .type (.named type) :: body.nodes ++ handlersNodes hs

end

/-- The nodes of the members of an enumeration. -/
def enumMembersNodes (ms : List EnumMember) : List Node :=
  ms.flatMap fun m => .decl (.enumMember m) :: optExprNodes m.value

mutual

/-- A type with all nodes below it. -/
def TypeExpr.nodes (t : TypeExpr) : List Node :=
  .type t :: match t with
    | .string _ e => optExprNodes e
    | .subrange _ l h => l.nodes ++ h.nodes
    | .enum _ ms => enumMembersNodes ms
    | .pointer _ t | .classRef _ t | .set _ t => t.nodes
    | .array _ _ index elem _ => typesNodes index ++ optTypeNodes elem
    | .file _ elem => optTypeNodes elem
    | .record _ _ ms part => membersNodes ms ++ optVariantNodes part
    | .classType _ _ ms _ => membersNodes ms
    | .interface _ _ guid ms _ _ => optExprNodes guid ++ membersNodes ms
    | .proc _ params result _ => optParamsNodes params ++ optTypeNodes result
    | .named _ | .ordinal .. | .real .. | .rawPointer .. | .rawString .. | .variant .. => []

/-- The nodes of types in order. -/
def typesNodes : List TypeExpr → List Node
  | [] => []
  | t :: ts => t.nodes ++ typesNodes ts

/-- The nodes of a type that may be absent. -/
def optTypeNodes : Option TypeExpr → List Node
  | none => []
  | some t => t.nodes

/-- A parameter with all nodes below it. -/
def ParamDecl.nodes : ParamDecl → List Node
  | ⟨i, name, kind, type, default⟩ =>
    .decl (.param ⟨i, name, kind, type, default⟩) :: optTypeNodes type ++ optExprNodes default

/-- The nodes of parameters in order. -/
def paramsNodes : List ParamDecl → List Node
  | [] => []
  | p :: ps => p.nodes ++ paramsNodes ps

/-- The nodes of a parameter list that may be absent. -/
def optParamsNodes : Option (List ParamDecl) → List Node
  | none => []
  | some ps => paramsNodes ps

/-- A variable with all nodes below it. -/
def VarDecl.nodes : VarDecl → List Node
  | ⟨i, name, type, init, absolute, kind, visibility⟩ =>
    .decl (.var ⟨i, name, type, init, absolute, kind, visibility⟩) :: optTypeNodes type ++
      optExprNodes init

/-- The nodes of variables in order. -/
def varsNodes : List VarDecl → List Node
  | [] => []
  | d :: ds => d.nodes ++ varsNodes ds

/-- The nodes of the cases of a variant part. -/
def variantCasesNodes : List VariantCase → List Node
  | [] => []
  | ⟨i, labels, fields⟩ :: cs =>
    .variantCase ⟨i, labels, fields⟩ :: exprsNodes labels ++ varsNodes fields ++
      variantCasesNodes cs

/-- The nodes of a variant part that may be absent. -/
def optVariantNodes : Option VariantPart → List Node
  | none => []
  | some ⟨i, tag, tagType, cases⟩ =>
    .variantPart ⟨i, tag, tagType, cases⟩ :: tagType.nodes ++ variantCasesNodes cases

/-- A routine with all nodes below it. -/
def CallableDecl.nodes : CallableDecl → List Node
  | ⟨i, name, owner, kind, classMethod, params, result, directives, body, forward, external,
      visibility, builtin⟩ =>
    let d : CallableDecl := ⟨i, name, owner, kind, classMethod, params, result, directives, body,
      forward, external, visibility, builtin⟩
    .decl (.callable d) :: optParamsNodes params ++ optTypeNodes result ++
      exprsNodes d.clauseExprs ++ optBlockNodes body

/-- A property with all nodes below it. -/
def PropertyDecl.nodes : PropertyDecl → List Node
  | ⟨i, name, params, type, read, write, index, default, stored, noDefault, implements,
      defaultArray, visibility⟩ =>
    .decl (.property ⟨i, name, params, type, read, write, index, default, stored, noDefault,
      implements, defaultArray, visibility⟩) :: paramsNodes params ++ optTypeNodes type ++
      optExprNodes index ++ optExprNodes default ++ optExprNodes stored

/-- The nodes of members in order. -/
def membersNodes : List Member → List Node
  | [] => []
  | .var d :: ms => d.nodes ++ membersNodes ms
  | .callable d :: ms => d.nodes ++ membersNodes ms
  | .property d :: ms => d.nodes ++ membersNodes ms

/-- The nodes of a block that may be absent. -/
def optBlockNodes : Option Block → List Node
  | none => []
  | some ⟨i, decls, body⟩ => .block ⟨i, decls, body⟩ :: declsNodes decls ++ body.nodes

/-- The nodes of declarations in order. -/
def declsNodes : List Decl → List Node
  | [] => []
  | .type ⟨i, name, t⟩ :: ds => .decl (.type ⟨i, name, t⟩) :: t.nodes ++ declsNodes ds
  | .composite ⟨i, name, kind, heritage, members, type⟩ :: ds =>
    .decl (.composite ⟨i, name, kind, heritage, members, type⟩) :: membersNodes members ++
      declsNodes ds
  | .var d :: ds => d.nodes ++ declsNodes ds
  | .const ⟨i, name, type, value, kind⟩ :: ds =>
    .decl (.const ⟨i, name, type, value, kind⟩) :: optTypeNodes type ++ optExprNodes value ++
      declsNodes ds
  | .param d :: ds => d.nodes ++ declsNodes ds
  | .callable d :: ds => d.nodes ++ declsNodes ds
  | .property d :: ds => d.nodes ++ declsNodes ds
  | .label d :: ds => .decl (.label d) :: declsNodes ds
  | .unit d :: ds => .decl (.unit d) :: declsNodes ds
  | .exported d :: ds =>
    .decl (.exported d) :: optExprNodes d.exportName ++ optExprNodes d.index ++ declsNodes ds
  | .enumMember d :: ds => .decl (.enumMember d) :: optExprNodes d.value ++ declsNodes ds

end

/-- A block with all nodes below it. -/
def Block.nodes (b : Block) : List Node := optBlockNodes (some b)

/-- A source with all its nodes. -/
def Goal.nodes (g : Goal) : List Node :=
  .goal g :: match g with
    | .program g => g.uses.map (fun u => .decl (.unit u)) ++ g.block.nodes
    | .library g => g.uses.map (fun u => .decl (.unit u)) ++ g.block.nodes
    | .unit g =>
      g.publicUses.map (fun u => .decl (.unit u)) ++ declsNodes g.publicDecls ++
        g.ownUses.map (fun u => .decl (.unit u)) ++ declsNodes g.ownDecls ++ stmtsNodes g.init ++
        stmtsNodes g.final
    | .package g => g.contains.map fun u => .decl (.unit u)

end ObjectPascal
