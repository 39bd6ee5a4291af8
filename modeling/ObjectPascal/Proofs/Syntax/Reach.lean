import Mathlib.Logic.Relation
import ObjectPascal.Proofs.Syntax.Walk
import ObjectPascal.Syntax.Outline

/-!
The nodes that the fields of a node hold. They are what an outline shows below the node, and they
are its direct parts, except for one form: a declaration of a type with members holds the members
and the type, which has them once more together with what else belongs to it.
-/

namespace ObjectPascal

/-! Records of nodes in an outline. -/

namespace Outline

/-- The record of a node begins with the kind. -/
def isNode : List Entry → Bool
  | ("kind", text _) :: _ => true
  | _ => false

mutual

/-- The records of nodes in an outline, without those inside another one. -/
def records : Outline → List Outline
  | text _ => []
  | list items => itemsRecords items
  | record entries => if isNode entries then [record entries] else entriesRecords entries

/-- The records of nodes in a list. -/
def itemsRecords : List Outline → List Outline
  | [] => []
  | o :: os => o.records ++ itemsRecords os

/-- The records of nodes under the keys of a record. -/
def entriesRecords : List Entry → List Outline
  | [] => []
  | (_, o) :: es => o.records ++ entriesRecords es

end

/-- The records of nodes directly inside a record. -/
def inside : Outline → List Outline
  | record entries => entriesRecords entries
  | _ => []

/-- An outline shows the record of a node inside that of another one. -/
def Shows : Outline → Outline → Prop := Relation.ReflTransGen fun o p => p ∈ o.inside

variable {key : String}

@[simp]
theorem entriesRecords_append (es fs : List Entry) :
    entriesRecords (es ++ fs) = entriesRecords es ++ entriesRecords fs := by
  induction es with
  | nil => rfl
  | cons e es ih => simp [entriesRecords, ih]

theorem itemsRecords_eq (os : List Outline) : itemsRecords os = os.flatMap records := by
  induction os with
  | nil => rfl
  | cons o os ih => simp [itemsRecords, ih]

@[simp]
theorem records_text (t : Text) : records (.text t) = [] := rfl

@[simp]
theorem records_list (os : List Outline) : records (.list os) = os.flatMap records :=
  itemsRecords_eq os

@[simp]
theorem entriesRecords_nil : entriesRecords [] = [] := rfl

@[simp]
theorem entriesRecords_cons (o : Outline) (es : List Entry) :
    entriesRecords ((key, o) :: es) = o.records ++ entriesRecords es := rfl

@[simp]
theorem entriesRecords_ofText (t : Text) : entriesRecords (ofText key t) = [] := by
  unfold ofText
  split <;> rfl

@[simp]
theorem entriesRecords_ofNumber (n : Nat) : entriesRecords (ofNumber key n) = [] := by
  unfold ofNumber
  split <;> rfl

@[simp]
theorem entriesRecords_ofWord (shown : Bool) (word : String) :
    entriesRecords (ofWord key shown word) = [] := by
  unfold ofWord
  split <;> rfl

@[simp]
theorem entriesRecords_ofFlag (b : Bool) : entriesRecords (ofFlag key b) = [] :=
  entriesRecords_ofWord b "true"

@[simp]
theorem entriesRecords_ofList (os : List Outline) :
    entriesRecords (ofList key os) = os.flatMap records := by
  unfold ofList
  split
  · rename_i h
    rw [List.isEmpty_iff.1 h]
    rfl
  · simp

@[simp]
theorem entriesRecords_ofTexts (ts : List Text) : entriesRecords (ofTexts key ts) = [] := by
  simp [ofTexts, List.flatMap_map]

@[simp]
theorem entriesRecords_ofOption (o : Option Outline) :
    entriesRecords (ofOption key o) = o.toList.flatMap records := by
  cases o <;> simp [ofOption]

@[simp]
theorem records_ofNode (kind : String) (info : NodeInfo) (entries : List (List Entry)) :
    records (ofNode kind info entries) = [ofNode kind info entries] := rfl

@[simp]
theorem inside_ofNode (kind : String) (info : NodeInfo) (entries : List (List Entry)) :
    inside (ofNode kind info entries) = entries.flatMap entriesRecords := by
  have hflatten : entriesRecords entries.flatten = entries.flatMap entriesRecords := by
    induction entries with
    | nil => rfl
    | cons es entries ih => simp [ih]
  simp [ofNode, inside, hflatten]

end Outline

namespace Node

/-- No further entries for an expression. -/
def nothing (_ : Expr) : List Outline.Entry := []

/-- The outline of a node. -/
def outline : Node → Outline
  | goal g => g.outline nothing
  | block b => (optBlockOutline nothing (some b)).getD (.list [])
  | decl d => (declsOutline nothing [d]).headD (.list [])
  | type t => t.outline nothing
  | variantPart p => (optVariantOutline nothing (some p)).getD (.list [])
  | variantCase c => (variantCasesOutline nothing [c]).headD (.list [])
  | stmt s => s.outline nothing
  | caseArm a => (armsOutline nothing [a]).headD (.list [])
  | handler h => (handlersOutline nothing [h]).headD (.list [])
  | expr e => e.outline nothing
  | fieldInit f => (fieldInitsOutline nothing [f]).headD (.list [])

/-- The nodes that the fields of a node hold. -/
def fields : Node → List Node
  | decl (.composite d) => d.members.map (fun m => .decl m.decl) ++ [.type d.type]
  | type (.rawPointer _ _ target) => target.toList.map .type
  | n => n.children

/-- A node can be reached from another one through fields. -/
def Reaches : Node → Node → Prop := Relation.ReflTransGen fun n m => m ∈ n.fields

section Lists

-- each list is taken apart with its outline
attribute [local simp] exprsOutline argsOutline fieldInitsOutline stmtsOutline optStmtOutline
  armsOutline handlersOutline typesOutline optTypeOutline paramsOutline optParamsOutline
  varsOutline declsOutline variantCasesOutline optVariantOutline membersOutline optBlockOutline
  outline

theorem exprsOutline_eq (es : List Expr) :
    exprsOutline nothing es = es.map fun e => outline (.expr e) := by
  induction es with
  | nil => simp
  | cons e es ih => simp [ih]

theorem fieldInitsOutline_eq (fs : List FieldInit) :
    fieldInitsOutline nothing fs = fs.map fun f => outline (.fieldInit f) := by
  induction fs with
  | nil => simp
  | cons f fs ih =>
    cases f
    simp [ih]

theorem stmtsOutline_eq (ss : List Stmt) :
    stmtsOutline nothing ss = ss.map fun s => outline (.stmt s) := by
  induction ss with
  | nil => simp
  | cons s ss ih => simp [ih]

theorem optStmtOutline_eq (s : Option Stmt) :
    optStmtOutline nothing s = s.map fun s => outline (.stmt s) := by
  cases s <;> simp

theorem armsOutline_eq (as : List CaseArm) :
    armsOutline nothing as = as.map fun a => outline (.caseArm a) := by
  induction as with
  | nil => simp
  | cons a as ih =>
    cases a
    simp [ih]

theorem handlersOutline_eq (hs : List Handler) :
    handlersOutline nothing hs = hs.map fun h => outline (.handler h) := by
  induction hs with
  | nil => simp
  | cons h hs ih =>
    cases h
    simp [ih]

theorem typesOutline_eq (ts : List TypeExpr) :
    typesOutline nothing ts = ts.map fun t => outline (.type t) := by
  induction ts with
  | nil => simp
  | cons t ts ih => simp [ih]

theorem optTypeOutline_eq (t : Option TypeExpr) :
    optTypeOutline nothing t = t.map fun t => outline (.type t) := by
  cases t <;> simp

theorem paramsOutline_eq (ps : List ParamDecl) :
    paramsOutline nothing ps = ps.map fun p => outline (.decl (.param p)) := by
  induction ps with
  | nil => simp
  | cons p ps ih => simp [ih]

theorem varsOutline_eq (ds : List VarDecl) :
    varsOutline nothing ds = ds.map fun d => outline (.decl (.var d)) := by
  induction ds with
  | nil => simp
  | cons d ds ih => simp [ih]

theorem variantCasesOutline_eq (cs : List VariantCase) :
    variantCasesOutline nothing cs = cs.map fun c => outline (.variantCase c) := by
  induction cs with
  | nil => simp
  | cons c cs ih =>
    cases c
    simp [ih]

theorem optVariantOutline_eq (p : Option VariantPart) :
    optVariantOutline nothing p = p.map fun p => outline (.variantPart p) := by
  cases p with
  | none => simp
  | some p =>
    cases p
    simp

theorem membersOutline_eq (ms : List Member) :
    membersOutline nothing ms = ms.map fun m => outline (.decl m.decl) := by
  induction ms with
  | nil => simp
  | cons m ms ih => cases m <;> simp [ih, Member.decl]

theorem declsOutline_eq (ds : List Decl) :
    declsOutline nothing ds = ds.map fun d => outline (.decl d) := by
  induction ds with
  | nil => simp
  | cons d ds ih =>
    cases d with
    | type d => cases d; simp [ih]
    | composite d => cases d; simp [ih]
    | const d => cases d; simp [ih]
    | _ => simp [ih]

theorem optBlockOutline_eq (b : Option Block) :
    optBlockOutline nothing b = b.map fun b => outline (.block b) := by
  cases b with
  | none => simp
  | some b =>
    cases b
    simp

end Lists

section Parts

/-! The outline of a part, wherever it stands, is that of its node. -/

theorem expr_outline (e : Expr) : e.outline nothing = outline (.expr e) := rfl

theorem stmt_outline (s : Stmt) : s.outline nothing = outline (.stmt s) := rfl

theorem type_outline (t : TypeExpr) : t.outline nothing = outline (.type t) := rfl

theorem named_outline (t : NamedType) : t.outline = outline (.type (.named t)) := rfl

theorem unit_outline (u : UnitRef) : u.outline = outline (.decl (.unit u)) := rfl

theorem enumMember_outline (m : EnumMember) :
    m.outline nothing = outline (.decl (.enumMember m)) := rfl

theorem block_outline (b : Block) : b.outline nothing = [("block", outline (.block b))] := by
  rw [Block.outline, optBlockOutline_eq]
  rfl

/-- The outline of a node is the record of a node. -/
theorem records_outline (n : Node) : n.outline.records = [n.outline] := by
  cases n with
  | decl d =>
    cases d with
    | type d | composite d | var d | const d | param d | callable d | property d => cases d; rfl
    | _ => rfl
  | expr e => cases e <;> rfl
  | type t => cases t <;> rfl
  | stmt s => cases s <;> rfl
  | goal g => rfl
  | block d | variantPart d | variantCase d | caseArm d | handler d | fieldInit d => cases d; rfl

theorem flatMap_records {α : Type} (f : α → Node) (l : List α) :
    (l.map fun a => outline (f a)).flatMap Outline.records = l.map fun a => outline (f a) := by
  simp only [List.flatMap_map, records_outline, ← List.map_eq_flatMap]

theorem option_records {α : Type} (f : α → Node) (o : Option α) :
    (o.map fun a => outline (f a)).toList.flatMap Outline.records =
      o.toList.map fun a => outline (f a) := by
  cases o <;> simp [records_outline]

theorem entriesRecords_ofExpr (key : String) (e : Option Expr) :
    Outline.entriesRecords (ofExpr nothing key e) = e.toList.map fun e => outline (.expr e) := by
  rw [ofExpr, Outline.entriesRecords_ofOption]
  exact option_records Node.expr e

theorem entriesRecords_nothing (e : Expr) : Outline.entriesRecords (nothing e) = [] := rfl

theorem records_directive (d : Directive) :
    (d.outline nothing).records = d.arg.toList.map fun e => outline (.expr e) :=
  entriesRecords_ofExpr "arg" d.arg

theorem records_external (e : ExternalSpec) : (e.outline nothing).records =
    (e.library.toList ++ e.name.toList ++ e.index.toList).map fun e => outline (.expr e) := by
  have hrecord : (e.outline nothing).records = Outline.entriesRecords
      (ofExpr nothing "library" e.library ++ ofExpr nothing "name" e.name ++
        ofExpr nothing "index" e.index) := by
    obtain ⟨library, name, index⟩ := e
    cases library <;> cases name <;> cases index <;> rfl
  simp only [hrecord, Outline.entriesRecords_append, entriesRecords_ofExpr, List.map_append]

attribute [local simp] exprsOutline_eq fieldInitsOutline_eq stmtsOutline_eq optStmtOutline_eq
  armsOutline_eq handlersOutline_eq typesOutline_eq optTypeOutline_eq paramsOutline_eq
  varsOutline_eq declsOutline_eq variantCasesOutline_eq optVariantOutline_eq membersOutline_eq
  optBlockOutline_eq expr_outline stmt_outline type_outline named_outline unit_outline
  enumMember_outline block_outline records_outline flatMap_records option_records
  entriesRecords_ofExpr entriesRecords_nothing Function.comp_def

theorem argsOutline_records (args : Option (List Expr)) :
    (argsOutline nothing args).toList.flatMap Outline.records =
      (args.getD []).map fun e => outline (.expr e) := by
  cases args <;> simp [argsOutline]

theorem optParamsOutline_records (ps : Option (List ParamDecl)) :
    (optParamsOutline nothing ps).toList.flatMap Outline.records =
      (ps.getD []).map fun p => outline (.decl (.param p)) := by
  cases ps <;> simp [optParamsOutline]

/-! The outline of a node has inside it the outlines of the nodes in its fields. -/

theorem expr_inside (e : Expr) : (Expr.outline nothing e).inside = e.children.map outline := by
  cases e with
  | real i value text =>
    have hvalue : Outline.entriesRecords
        (if value.toBits = 0 then [] else [("value", .text (Decimal.realText value))]) = [] := by
      split <;> rfl
    simp [Expr.outline, Expr.children, hvalue]
  | _ => simp [Expr.outline, Expr.children, argsOutline_records]

theorem stmt_inside (s : Stmt) : (Stmt.outline nothing s).inside = s.children.map outline := by
  cases s <;> simp [Stmt.outline, Stmt.children]

theorem enumMembers_outline (ms : List EnumMember) :
    ms.map (EnumMember.outline nothing) = ms.map fun m => outline (.decl (.enumMember m)) := rfl

theorem units_outline (us : List UnitRef) :
    us.map UnitRef.outline = us.map fun u => outline (.decl (.unit u)) := rfl

theorem directives_records (ds : List Directive) :
    (ds.map (Directive.outline nothing)).flatMap Outline.records =
      (ds.filterMap Directive.arg).map fun e => outline (.expr e) := by
  induction ds with
  | nil => rfl
  | cons d ds ih => cases h : d.arg <;> simp [ih, h, records_directive]

theorem external_records (e : Option ExternalSpec) :
    (e.map (ExternalSpec.outline nothing)).toList.flatMap Outline.records =
      (match e with
        | some e => e.library.toList ++ e.name.toList ++ e.index.toList
        | none => []).map fun e => outline (.expr e) := by
  cases e <;> simp [records_external]

theorem type_inside (t : TypeExpr) :
    (TypeExpr.outline nothing t).inside = (Node.type t).fields.map outline := by
  cases t <;> simp [TypeExpr.outline, fields, children, TypeExpr.children, optParamsOutline_records,
    enumMembers_outline]

/-- Only the order may be another one: the outline of a routine has the external clause behind the
body. -/
theorem mem_inside_decl (d : Decl) (o : Outline) :
    o ∈ (outline (.decl d)).inside ↔ o ∈ (Node.decl d).fields.map outline := by
  rw [outline]
  cases d with
  | type d | composite d | const d =>
    cases d
    rw [declsOutline, List.headD_cons]
    simp [fields, children, Decl.children]
  | var d =>
    cases d
    rw [declsOutline, List.headD_cons, VarDecl.outline]
    simp [fields, children, Decl.children, ofVisibility]
  | param d =>
    cases d
    rw [declsOutline, List.headD_cons, ParamDecl.outline]
    simp [fields, children, Decl.children]
  | property d =>
    cases d
    rw [declsOutline, List.headD_cons, PropertyDecl.outline]
    simp [fields, children, Decl.children, ofVisibility]
  | callable d =>
    cases d
    rw [declsOutline, List.headD_cons, CallableDecl.outline]
    simp [fields, children, Decl.children, CallableDecl.paramList, CallableDecl.clauseExprs,
      optParamsOutline_records, directives_records, external_records, ofVisibility]
    grind
  | label d | exported d =>
    rw [declsOutline, List.headD_cons]
    simp [fields, children, Decl.children]
  | unit d =>
    rw [declsOutline, List.headD_cons, UnitRef.outline]
    simp [fields, children, Decl.children]
  | enumMember d =>
    rw [declsOutline, List.headD_cons, EnumMember.outline]
    simp [fields, children, Decl.children]

theorem goal_inside (g : Goal) : (Goal.outline nothing g).inside = g.children.map outline := by
  cases g <;> simp [Goal.outline, Goal.children, units_outline]

/-- An outline has inside it the outlines of the nodes that the fields of the node hold. -/
theorem mem_inside (n : Node) (o : Outline) :
    o ∈ n.outline.inside ↔ ∃ m ∈ n.fields, m.outline = o := by
  rw [← List.mem_map]
  cases n with
  | goal g => exact iff_of_eq (congrArg (o ∈ ·) (goal_inside g))
  | decl d => exact mem_inside_decl d o
  | type t => exact iff_of_eq (congrArg (o ∈ ·) (type_inside t))
  | stmt s => exact iff_of_eq (congrArg (o ∈ ·) (stmt_inside s))
  | expr e => exact iff_of_eq (congrArg (o ∈ ·) (expr_inside e))
  | block b =>
    cases b
    rw [outline, optBlockOutline]
    simp [fields, children]
  | variantPart p =>
    cases p
    rw [outline, optVariantOutline]
    simp [fields, children]
  | variantCase c =>
    cases c
    rw [outline, variantCasesOutline]
    simp [fields, children]
  | caseArm a =>
    cases a
    rw [outline, armsOutline]
    simp [fields, children]
  | handler h =>
    cases h
    rw [outline, handlersOutline]
    simp [fields, children]
  | fieldInit f =>
    cases f
    rw [outline, fieldInitsOutline]
    simp [fields, children]

/-- What an outline shows are the outlines of the nodes that can be reached. -/
theorem shows_iff (n : Node) (o : Outline) :
    n.outline.Shows o ↔ ∃ m, n.Reaches m ∧ m.outline = o := by
  constructor
  · intro h
    induction h with
    | refl => exact ⟨n, .refl, rfl⟩
    | tail _ hin ih =>
      obtain ⟨m, hm, rfl⟩ := ih
      obtain ⟨k, hk, hout⟩ := (mem_inside m _).mp hin
      exact ⟨k, hm.tail hk, hout⟩
  · rintro ⟨m, h, rfl⟩
    induction h with
    | refl => exact .refl
    | @tail m k _ hk ih => exact ih.tail ((mem_inside m _).mpr ⟨k, hk, rfl⟩)

theorem children_subset_fields (n : Node) : n.children ⊆ n.fields := by
  unfold fields
  split
  · exact List.subset_append_left _ _
  · exact List.nil_subset _
  · exact List.Subset.refl _

/-- What the walk meets can be reached. -/
theorem reaches_of_mem_nodes {n x : Node} (h : x ∈ n.nodes) : n.Reaches x := by
  induction n using induct with
  | step n ih =>
    rcases mem_nodes_iff.mp h with rfl | hbelow
    · exact .refl
    · obtain ⟨c, hc, hx⟩ := mem_below_iff.mp hbelow
      exact .head (n.children_subset_fields hc) (ih c hc hx)

end Parts

end Node

/-- A declaration repeats its members in the type. -/
inductive CompositeDecl.Repeats (d : CompositeDecl) : TypeExpr → Prop
  | classType (i : NodeInfo) (h : d.kind = .classType) :
    Repeats d (.classType i d.heritage d.members false)
  | interface (i : NodeInfo) (guid : Option Expr) (dispatch : Bool)
      (h : d.kind = if dispatch then .dispInterface else .interface) :
    Repeats d (.interface i d.heritage guid d.members dispatch false)
  | record (i : NodeInfo) (packed : Bool) (part : Option VariantPart) (h : d.kind = .record)
      (hnone : d.heritage = []) :
    Repeats d (.record i packed d.members part)

/-- What the type of a declaration holds besides the members: the identifier of an interface and the
variant part of a record. -/
def CompositeDecl.rest (d : CompositeDecl) : List Node :=
  match d.type with
  | .interface _ _ guid _ _ _ => guid.toList.map .expr
  | .record _ _ _ part => part.toList.map .variantPart
  | _ => []

namespace Node

/-- A declaration of a type with members has them in the type again, and built-in pointers do not
occur. -/
def Matched : Node → Prop
  | decl (.composite d) => d.Repeats d.type
  | type (.rawPointer _ _ _) => False
  | _ => True

variable {n x m : Node}

/-- With a node the walk meets its parts. -/
theorem mem_nodes_of_child (hx : x ∈ n.nodes) (hm : m ∈ x.children) : m ∈ n.nodes := by
  induction n using induct with
  | step n ih =>
    refine mem_nodes_iff.mpr (.inr (mem_below_iff.mpr ?_))
    rcases mem_nodes_iff.mp hx with rfl | hbelow
    · exact ⟨m, hm, m.self_mem⟩
    · obtain ⟨c, hc, hxc⟩ := mem_below_iff.mp hbelow
      exact ⟨c, hc, ih c hc hxc⟩

/-- Fields hold the parts of a node, and the type that a declared composite has. -/
theorem mem_fields (hn : n.Matched) (hm : m ∈ n.fields) :
    m ∈ n.children ∨ ∃ d, n = decl (.composite d) ∧ m = type d.type := by
  unfold fields at hm
  split at hm
  · rename_i d
    rcases List.mem_append.mp hm with hmember | htype
    · exact .inl hmember
    · exact .inr ⟨d, rfl, List.mem_singleton.mp htype⟩
  · exact hn.elim
  · exact .inl hm

/-- The type of a declared composite adds to the members what is left out of the walk. -/
theorem mem_fields_type {d : CompositeDecl} (h : d.Repeats d.type) :
    m ∈ (type d.type).fields ↔ m ∈ (decl (.composite d)).children ∨ m ∈ d.rest := by
  have hmembers : (decl (.composite d)).children = d.members.map fun m => decl m.decl := rfl
  rw [CompositeDecl.rest, hmembers]
  generalize d.type = t at h
  cases h with
  | classType => simp [fields, children, TypeExpr.children]
  | interface => simp [fields, children, TypeExpr.children, or_comm]
  | record => simp [fields, children, TypeExpr.children]

/-- In a tree of matched nodes, what can be reached is met by the walk, except the types of declared
composites and what is reached from the rest of such a type. -/
theorem reaches_iff (hw : ∀ y ∈ n.nodes, y.Matched) : n.Reaches x ↔ x ∈ n.nodes ∨
    ∃ d, decl (.composite d) ∈ n.nodes ∧ (x = type d.type ∨ ∃ r ∈ d.rest, r.Reaches x) := by
  constructor
  · intro h
    induction h with
    | refl => exact .inl n.self_mem
    | @tail y m _ hm ih =>
      rcases ih with hy | ⟨d, hd, rfl | ⟨r, hr, hy⟩⟩
      · rcases mem_fields (hw y hy) hm with hpart | ⟨d, rfl, rfl⟩
        · exact .inl (mem_nodes_of_child hy hpart)
        · exact .inr ⟨d, hy, .inl rfl⟩
      · rcases (mem_fields_type (hw _ hd)).mp hm with hmember | hrest
        · exact .inl (mem_nodes_of_child hd hmember)
        · exact .inr ⟨d, hd, .inr ⟨m, hrest, .refl⟩⟩
      · exact .inr ⟨d, hd, .inr ⟨r, hr, hy.tail hm⟩⟩
  · have htype {d : CompositeDecl} (hd : decl (.composite d) ∈ n.nodes) :
        n.Reaches (type d.type) :=
      (reaches_of_mem_nodes hd).tail (List.mem_append_right _ (List.mem_singleton_self _))
    rintro (hx | ⟨d, hd, rfl | ⟨r, hr, hx⟩⟩)
    · exact reaches_of_mem_nodes hx
    · exact htype hd
    · exact ((htype hd).tail ((mem_fields_type (hw _ hd)).mpr (.inr hr))).trans hx

end Node

end ObjectPascal
