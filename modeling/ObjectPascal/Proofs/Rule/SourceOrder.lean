import ObjectPascal.Proofs.Rule.Arrangement

/-!
Every rule of the language arranges what it builds. Builders that only put a node over their
arguments, or pass them on, are met by evaluation; the others are those that make several nodes, or
nodes of names.
-/

namespace ObjectPascal.Rule

open Scene (Held Spans Arranged)

section Rules

/-- A group puts its names before its type and its initial value. -/
theorem varGroup_pieces : Shape.pieces .varGroup = fun g : VarGroup =>
    (g.names.map fun t => Piece.word (nameWord t)) ++
      .node (.type g.type) :: g.init.toList.map fun e => .node (.expr e) := by
  funext g
  simp [Shape.pieces, Shape.words, Shape.parts, Shape.parts.groupParts, Function.comp_def]

attribute [local simp] Shape.parts Node.children Node.info nodal_build nodal_give nodal_alone
  alone_singleton optList_map flatMap_nothing snoc List.Sublist.refl Seated wordOf admits anchored
  loose Node.slack Node.void Node.bare Phrase.shape List.Sublist.cons Function.comp_def

theorem goals_nodes : ∀ r ∈ goals, r.ArrangesNodes := by
  simp only [goals, List.forall_mem_cons]
  -- The types of all values are computed first, so that the builders show their own forms.
  dsimp only [ArrangesNodes, rule, AlwaysOf, Phrase.shape, Sym.shape, Shape.Val]
  simp only [List.flatMap_append, List.flatMap_singleton, Value.parts, Shape.parts, Value.pieces,
    Shape.pieces, Shape.words]
  dsimp only [Shape.Val]
  simp [← List.map_eq_flatMap, Decl.children, Goal.children, Decl.info, Goal.info]

theorem names_nodes : ∀ r ∈ names, r.lhs.shape.wordless = true → r.ArrangesNodes := by
  simp only [names, List.forall_mem_cons, List.forall_mem_append, List.forall_mem_map]
  dsimp only [ArrangesNodes, rule, AlwaysOf, Phrase.shape, Sym.shape, Shape.Val, Shape.wordless]
  simp only [List.flatMap_append, List.flatMap_singleton, Value.parts, Shape.parts, Value.pieces,
    Shape.pieces, Shape.words]
  dsimp only [Shape.Val]
  simp

theorem sections_nodes : ∀ r ∈ sections, r.lhs.shape.wordless = true → r.ArrangesNodes := by
  simp only [sections, blocks, constantSections, variableSections, List.forall_mem_cons,
    List.forall_mem_append]
  dsimp only [ArrangesNodes, rule, AlwaysOf, Phrase.shape, Sym.shape, Shape.Val, Shape.wordless]
  simp only [List.flatMap_append, List.flatMap_singleton, Value.parts, Shape.parts, Value.pieces,
    Shape.pieces, Shape.words]
  dsimp only [Shape.Val]
  simp [optInit_flatMap, ← List.map_eq_flatMap, Decl.children, Stmt.children, Decl.info, Stmt.info,
    declareType_nodal, Shape.parts.groupParts]
  refine ⟨fun _ ts _ => labels_nodal ts ?_, fun _ gs => variableSection_nodal .plain gs ?_,
    fun _ gs => variableSection_nodal .thread gs ?_, fun _ _ _ _ _ => nodal_node fun i => ?_⟩
  · simp
  · rw [varGroup_pieces]
    exact List.sublist_cons_self _ _
  · rw [varGroup_pieces]
    exact List.sublist_cons_self _ _
  · -- The name of an export is listed before its number, which is written before it.
    exact ⟨_, rfl, rfl, rfl, rfl, .inr ⟨rfl, by simp [Decl.children]⟩⟩

theorem routines_nodes : ∀ r ∈ routines, r.lhs.shape.wordless = true → r.ArrangesNodes := by
  simp only [routines, headings, parameterLists, directives, List.forall_mem_cons,
    List.forall_mem_append, List.forall_mem_map]
  dsimp only [ArrangesNodes, rule, AlwaysOf, Phrase.shape, Sym.shape, Shape.Val, Shape.wordless]
  simp only [List.flatMap_append, List.flatMap_singleton, Value.parts, Shape.parts, Value.pieces,
    Shape.pieces, Shape.words]
  dsimp only [Shape.Val]
  simp [optList_flatMap, optExternal_flatMap, filterMap_map, ← List.map_eq_flatMap,
    TypeExpr.children, Decl.children, CallableDecl.paramList, CallableDecl.clauseExprs, routineOf,
    Shape.parts.headParts, TypeExpr.info, routine_nodal, callableOf_nodal]
  refine ⟨⟨fun _ _ _ _ => parameters_nodal _ _ _ _ ?_, fun _ _ _ _ _ => parameters_nodal _ _ _ _ ?_,
    fun _ _ => parameters_nodal _ _ _ _ ?_⟩, fun j _ t => ?_⟩
  · simp
  · simp
  · simp
  · have hgive : Nodal (admits .directive [.token j]) [.word (nameWord t)] []
        (give { kind := t.kind }) fun d : Directive => d.arg.toList.map .expr :=
      nodal_give (List.nil_sublist _)
    exact fun hfs => .ite (.require _ _ _ (hgive hfs)) (hgive hfs)

theorem types_nodes : ∀ r ∈ types, r.lhs.shape.wordless = true → r.ArrangesNodes := by
  simp only [types, simpleTypes, structuredTypes, classTypes, variantParts, List.forall_mem_cons,
    List.forall_mem_append]
  dsimp only [ArrangesNodes, rule, AlwaysOf, Phrase.shape, Sym.shape, Shape.Val, Shape.wordless]
  simp only [List.flatMap_append, List.flatMap_singleton, Value.parts, Shape.parts, Value.pieces,
    Shape.pieces, Shape.words]
  dsimp only [Shape.Val]
  simp [optList_flatMap, optItems_map, ← List.map_eq_flatMap, TypeExpr.children, Decl.children,
    TypeExpr.info, Decl.info, Shape.parts.groupParts]
  simp [-Node.bare, recordOf_nodal]
  refine ⟨fun _ _ _ _ _ => subrange_nodal (fun _ => admits_of_anchored rfl) ?_,
    fun _ _ _ _ _ => variantCaseOf_nodal (fun _ => admits_of_anchored rfl) _ _ ?_⟩
  · simp
  · rw [varGroup_pieces, List.map_map]
    exact (List.Sublist.refl _).append (.cons _ (.cons _ (List.sublist_append_left _ _)))

theorem members_nodes : ∀ r ∈ members, r.lhs.shape.wordless = true → r.ArrangesNodes := by
  simp only [members, memberLists, properties, List.forall_mem_cons, List.forall_mem_append]
  dsimp only [ArrangesNodes, rule, AlwaysOf, Phrase.shape, Sym.shape, Shape.Val, Shape.wordless]
  simp only [List.flatMap_append, List.flatMap_singleton, Value.parts, Shape.parts, Value.pieces,
    Shape.pieces, Shape.words]
  dsimp only [Shape.Val]
  simp [optList_flatMap, ← List.map_eq_flatMap, specExpr?, Shape.parts.groupParts,
    Shape.parts.faceParts, Shape.words.memberWords]
  simp [addMember_nodal, Shape.pieces, Shape.words, Shape.words.memberWords,
    Shape.parts.memberParts, Shape.parts.groupParts]

theorem statements_nodes : ∀ r ∈ statements, r.lhs.shape.wordless = true → r.ArrangesNodes := by
  simp only [statements, simpleStatements, choices, loops, handlers, List.forall_mem_cons,
    List.forall_mem_append]
  dsimp only [ArrangesNodes, rule, AlwaysOf, Phrase.shape, Sym.shape, Shape.Val, Shape.wordless]
  simp only [List.flatMap_append, List.flatMap_singleton, Value.parts, Shape.parts, Value.pieces,
    Shape.pieces, Shape.words]
  dsimp only [Shape.Val]
  simp [← List.map_eq_flatMap, Stmt.children, Expr.children, Expr.info, Stmt.info,
    Node.slack]
  simp [-Node.bare, handlerOf_nodal]
  refine ⟨⟨fun _ => inherited_nodal fun _ => admits_of_anchored rfl,
    fun _ _ _ _ => nodal_node fun i => ?_⟩, fun _ _ _ _ _ _ hfs => .require _ _ _
    (nodal_node (fun i => ?_) hfs)⟩
  · exact ⟨_, rfl, rfl, rfl, rfl, .inl (List.Sublist.refl _)⟩
  · exact ⟨_, rfl, rfl, rfl, rfl, .inl (List.Sublist.refl _)⟩

theorem expressions_nodes : ∀ r ∈ expressions, r.lhs.shape.wordless = true → r.ArrangesNodes := by
  simp only [expressions, operations, primaries, designators, typedConstants,
    List.forall_mem_cons, List.forall_mem_append, List.forall_mem_map]
  dsimp only [ArrangesNodes, rule, ruleAs, AlwaysOf, Phrase.shape, Sym.shape, Shape.Val,
    Shape.wordless]
  simp only [List.flatMap_append, List.flatMap_singleton, Value.parts, Shape.parts, Value.pieces,
    Shape.pieces, Shape.words]
  dsimp only [Shape.Val]
  simp [← List.map_eq_flatMap, Expr.children, Expr.info]
  simp [-Node.bare, integerOf_nodal, realOf_nodal, stringOf_nodal, callOf_nodal, stringCall_nodal]

/-- A group of variables keeps the words of its names. -/
example : Shape.wordless .varGroup = false := by decide +kernel

theorem names_arrange : ∀ r ∈ names, r.lhs.shape.wordless = false → r.Arranges := by
  simp only [names, List.forall_mem_cons, List.forall_mem_append, List.forall_mem_map]
  dsimp only [Arranges, rule, AlwaysOf, Phrase.shape, Sym.shape, Shape.Val, Shape.wordless]
  simp only [List.flatMap_append, List.flatMap_singleton, Shape.parts, Value.pieces, Shape.pieces,
    Shape.words]
  dsimp only [Shape.Val]
  simp [arranging_give]

theorem sections_arrange : ∀ r ∈ sections, r.lhs.shape.wordless = false → r.Arranges := by
  simp only [sections, blocks, constantSections, variableSections, List.forall_mem_cons,
    List.forall_mem_append]
  dsimp only [Arranges, rule, AlwaysOf, Phrase.shape, Sym.shape, Shape.Val, Shape.wordless]
  simp only [List.flatMap_append, List.flatMap_singleton, Shape.parts, Value.pieces,
    Shape.pieces, Shape.words]
  dsimp only [Shape.Val]
  simp [arranging_give, ← List.map_eq_flatMap, optInit_flatMap]
  intro names _ type init _ σ _
  refine Goes.ite (Goes.read.bind fun site => ?_) (Goes.pure fun m hm => hm.sublist ?_)
  · rw [map_eq_pure_bind]
    exact (Goes.reject (Q := fun _ _ => False) _ _).bind fun _ => Goes.pure fun _ h => h.elim
  · simp [Shape.parts.groupParts]

theorem routines_arrange : ∀ r ∈ routines, r.lhs.shape.wordless = false → r.Arranges := by
  simp only [routines, headings, parameterLists, directives, List.forall_mem_cons,
    List.forall_mem_append, List.forall_mem_map]
  dsimp only [Arranges, rule, AlwaysOf, Phrase.shape, Sym.shape, Shape.Val, Shape.wordless]
  simp only [List.flatMap_append, List.flatMap_singleton, Shape.parts, Value.pieces,
    Shape.pieces, Shape.words]
  dsimp only [Shape.Val]
  simp [arranging_give, ← List.map_eq_flatMap]
  refine ⟨fun _ _ _ _ => heading_arranging _ _ _ _ _ ?_,
    fun _ _ _ _ _ => heading_arranging _ _ _ _ _ ?_⟩
  · simp
  · simp

theorem types_arrange : ∀ r ∈ types, r.lhs.shape.wordless = false → r.Arranges := by
  simp only [types, simpleTypes, structuredTypes, classTypes, variantParts, List.forall_mem_cons,
    List.forall_mem_append]
  dsimp only [Arranges, rule, AlwaysOf, Phrase.shape, Sym.shape, Shape.Val, Shape.wordless]
  simp only [List.flatMap_append, List.flatMap_singleton, Shape.parts, Value.pieces,
    Shape.pieces, Shape.words]
  dsimp only [Shape.Val]
  simp [arranging_give, ← List.map_eq_flatMap]

theorem members_arrange : ∀ r ∈ members, r.lhs.shape.wordless = false → r.Arranges := by
  simp only [members, memberLists, properties, List.forall_mem_cons, List.forall_mem_append]
  dsimp only [Arranges, rule, AlwaysOf, Phrase.shape, Sym.shape, Shape.Val, Shape.wordless]
  simp only [List.flatMap_append, List.flatMap_singleton, Shape.parts, Value.pieces,
    Shape.pieces, Shape.words]
  dsimp only [Shape.Val]
  simp [arranging_give, ← List.map_eq_flatMap, optList_flatMap, Shape.words.memberWords,
    Shape.parts.memberParts, Shape.parts.groupParts]
  refine ⟨⟨fun h _ ds => arranging_give ?_, fun word _ => strictly_arranging word _,
    fun word _ => strictly_arranging word _⟩,
    fun word _ face specs _ _ σ _ => Goes.pure fun m hm => ?_⟩
  · simp [List.map_flatMap]
  · -- What the word says is not kept: a property is known by its name.
    have hword : σ.Arranged m σ.lo (.word (nameWord word) :: (Shape.parts.memberParts
        (.property word face (specs.getD []) false word.line)).map .node) σ.hi := by
      refine hm.sublist ?_
      simp [Shape.parts.memberParts, List.map_flatMap]
    exact hword.anonymous

theorem all_nodes : ∀ r ∈ all, r.lhs.shape.wordless = true → r.ArrangesNodes := by
  simp only [all, List.forall_mem_append]
  exact ⟨⟨⟨⟨⟨⟨⟨fun r hr _ => goals_nodes r hr, names_nodes⟩, sections_nodes⟩, routines_nodes⟩,
    types_nodes⟩, members_nodes⟩, statements_nodes⟩, expressions_nodes⟩

set_option maxRecDepth 20000 in
theorem all_arrange : ∀ r ∈ all, r.lhs.shape.wordless = false → r.Arranges := by
  have hwordless : ((goals ++ statements ++ expressions).all fun r => r.lhs.shape.wordless) =
      true := by
    decide
  simp only [List.all_append, Bool.and_eq_true, List.all_eq_true] at hwordless
  obtain ⟨⟨hgoals, hstatements⟩, hexpressions⟩ := hwordless
  have hnone {r : Rule} (h : r.lhs.shape.wordless = true) (h' : r.lhs.shape.wordless = false) :
      r.Arranges := by
    rw [h] at h'
    cases h'
  simp only [all, List.forall_mem_append]
  exact ⟨⟨⟨⟨⟨⟨⟨fun r hr => hnone (hgoals r hr), names_arrange⟩, sections_arrange⟩,
    routines_arrange⟩, types_arrange⟩, members_arrange⟩, fun r hr => hnone (hstatements r hr)⟩,
    fun r hr => hnone (hexpressions r hr)⟩

end Rules

/-- A statement keeps no words. -/
example : Shape.wordless .stmt = true := by decide +kernel

/-- The builder of a rule finds what it takes among values of the right shapes, and it arranges what
it makes of them. -/
theorem exists_arranging {r : Rule} (hr : r ∈ all) {vs : List Value}
    (hvs : vs.map Sigma.fst = r.rhs.map Sym.shape) :
    ∃ b, applyTo (r.rhs.map Sym.shape) r.builder vs = some b ∧
      Arranging (admits r.lhs r.rhs) (vs.flatMap Value.pieces) b fun v =>
        Value.pieces ⟨r.lhs.shape, v⟩ := by
  cases h : r.lhs.shape.wordless with
  | false => exact exists_applyTo_of (all_arrange r hr h) hvs
  | true =>
    obtain ⟨b, hb, hnodal⟩ := exists_applyTo_of (all_nodes r hr h) hvs
    refine ⟨b, hb, ?_⟩
    have hpieces (v : r.lhs.shape.Val) :
        Value.pieces ⟨r.lhs.shape, v⟩ = (Value.parts ⟨r.lhs.shape, v⟩).map .node :=
      pieces_of_wordless r.lhs.shape h v
    simp only [hpieces]
    exact hnodal (nodesOf_values vs).symm

end ObjectPascal.Rule
