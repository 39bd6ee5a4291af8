import ObjectPascal.Proofs.Binding.Accounts

/-!
The names of a whole source. The walk of binding and the walk over all nodes are two case analyses
over the forms of nodes. They agree on expressions and statements; of types and declarations binding
leaves out a few parts. No other name is left without an account.
-/

namespace ObjectPascal.Binding
namespace Settles

variable {α β : Type} {m : Bind α} {ns ns' : List Node}

/-! Types. -/

theorem throw (e : Breach) : Settles (throw e : Bind α) ns := fun _ _ => trivial

/-- Names may be left out of account. -/
theorem forget (h : Settles m ns) : Settles m [] := fun _ hb =>
  (h.retentive hb).mono (fun _ _ hc => ⟨hc, fun _ _ hmem => absurd hmem List.not_mem_nil⟩)
    fun _ _ h => h

theorem declareEnumMember (type : TypeExpr) (name : Text) (next : UInt64) (m : EnumMember) :
    Settles (declareEnumMember type name next m)
      (.decl (.enumMember m) :: optExprNodes m.value) := by
  have hposition : Settles (memberPosition next m.value) (optExprNodes m.value) := by
    cases m.value with
    | none => exact .pure _
    | some e =>
      have h : Settles (memberPosition next (some e)) e.nodes :=
        .before (visitExpr e) fun _ => .after (.constant e) fun v => by
          split <;> exact .pure _
      exact h.of_eq (by simp [optExprNodes, exprsNodes])
  refine .node (.before hposition fun position => .bind (Retentive.register _ _ _) fun free => ?_)
  split
  · exact .bind Retentive.setConst fun _ => .pure _
  · exact .pure _

theorem visitEnum (info : NodeInfo) (members : List EnumMember) (name : Text) :
    Settles (visitEnum info members name) (enumMembersNodes members) :=
  discard (foldlM (declareEnumMember _ _) members 0)

theorem visitSubrange (info : NodeInfo) (low high : Expr) :
    Settles (visitSubrange info low high) (low.nodes ++ high.nodes) := by
  refine .bind (visitExpr low) fun _ => .before (visitExpr high) fun _ => ?_
  refine .after (.folding fun _ => Folding.Spares.subrangeSize low high) fun r => ?_
  split
  · exact .pure _
  · exact (Silent.complain _ _).retentive

theorem visitLength (e : Expr) : Settles (visitLength e) (optExprNodes (some e)) :=
  of_eq (.before (visitExpr e) fun _ => (Silent.constant e).retentive.discard)
    (by simp [optExprNodes, exprsNodes])

/-! Routines. -/

theorem inRoutine (d : CallableDecl) {inside : Bind Unit} (h : Settles inside ns) :
    Settles (inRoutine d inside) ns :=
  .after Silent.getScopes.retentive fun _ => .after (.enter _ _) fun _ =>
    .after (.declareRoutine _ d) fun _ => .before h fun _ => .leave

/-- The names inside a method with a body are bound, or the method is skipped with an error. -/
theorem inMethod {d : CallableDecl} (howner : d.owner.isEmpty = false) (hbody : d.body.isSome)
    {inside : Bind Unit} (h : Settles inside ns) (hns : ns ⊆ (Node.decl (.callable d)).nodes) :
    Settles (inMethod d inside) (.decl (.callable d) :: ns) := by
  intro b hb
  unfold Binding.inMethod
  rw [Ends.bind_iff, getScopes_iff, Ends.bind_iff]
  cases hx : b.scopes.enterMethod d.owner d.name with
  | none => trivial
  | some r =>
    rw [ended_some_iff]
    cases r with
    | error e =>
      have hframed : Settles (do
          enter d.name (some (.callable d))
          declareSelf d
          inside
          leave) ns :=
        .after (.enter _ _) fun _ => .after (.declareSelf d) fun _ => .before h fun _ => .leave
      dsimp only
      by_cases hfault : e.fault = .compositeNotFound
      · rw [if_pos hfault]
        exact node (.after (Silent.lookupFailed _ _).retentive fun _ => hframed) rfl b hb
      · rw [if_neg hfault]
        unfold lookupFailed
        simp only [bind_assoc, Ends.bind_iff, getScopes_iff, hfault, decide_false, Bool.false_and,
          Bool.false_eq_true, if_false]
        refine ⟨(Silent.complain d.info.line _).retentive b (.refl b), fun i name hmem => ?_⟩
        have hmem : .expr (.name i name) ∈ ns := by simpa using hmem
        exact .inr (.inl (.inr ⟨d, List.mem_cons_self, hns hmem, howner, hbody, b.scopes, e, hx,
          hfault, Array.mem_push_self⟩))
    | ok r =>
      obtain ⟨s, context⟩ := r
      obtain ⟨f, pushed, rfl, -⟩ := Scopes.enterMethod_eq hx
      dsimp only
      have hrest (owner : Option Decl) : Settles (do
          bindHeading d owner
          declareSelf d
          inside
          leaveMethod context) (.decl (.callable d) :: ns) :=
        .node (.after (.bindHeading _ _) fun _ => .after (.declareSelf d) fun _ =>
          .before h fun _ => .leaveMethod _)
      let inner : Binding := { b with
        scopes := b.scopes.withInner (f :: (pushed ++ b.scopes.inner)) }
      have hlater : Later b inner := .of_scopes rfl
      rw [Ends.bind_iff, setScopes_iff]
      exact (hrest _ inner hb).mono (fun _ c hc => ⟨hlater.trans hc.1, hc.2⟩) fun _ _ h => h

theorem inBody (d : CallableDecl) {body : Bind Unit} (h : Settles body ns) :
    Settles (inBody d body) ns :=
  .after (.declareResult d) fun _ => .after Silent.getScopes.retentive fun _ =>
    .after (Retentive.routines _) fun _ =>
      .before h fun _ => Retentive.routines fun b => b.routines.drop 1

/-! Types and declarations. What is overlooked among fields and members is overlooked from the node
around them. -/

section Parts

variable {i : NodeInfo} {name : Text}

/-- A member with all nodes below it. -/
def memberNodes : Member → List Node
  | .var d => d.nodes
  | .callable d => d.nodes
  | .property d => d.nodes

/-- What is bound of a variable that is a field. -/
def fieldNodes (d : VarDecl) : List Node := optTypeNodes d.type

/-- What is bound of a member of a named type. -/
def boundIn : Member → List Node
  | .var d => fieldNodes d
  | .callable d => d.nodes
  | .property d => d.nodes

/-- What is bound of a member of a record without a name. -/
def fieldIn : Member → List Node
  | .var d => fieldNodes d
  | _ => []

theorem varsNodes_flatMap (ds : List VarDecl) : varsNodes ds = ds.flatMap VarDecl.nodes := by
  induction ds with
  | nil => simp [varsNodes]
  | cons d ds ih => simp [varsNodes, ih]

theorem membersNodes_flatMap (ms : List Member) : membersNodes ms = ms.flatMap memberNodes := by
  induction ms with
  | nil => simp [membersNodes]
  | cons m ms ih => cases m <;> simp [membersNodes, memberNodes, ih]

theorem fieldNodes_subset (d : VarDecl) : fieldNodes d ⊆ d.nodes := by
  intro x hx
  obtain ⟨info, name, type, init, absolute, kind, visibility⟩ := d
  simp only [VarDecl.nodes, List.cons_append, List.mem_cons, List.mem_append]
  exact .inr (.inl hx)

theorem boundIn_subset (m : Member) : boundIn m ⊆ memberNodes m := by
  cases m with
  | var d => exact fieldNodes_subset d
  | callable d => exact List.Subset.refl _
  | property d => exact List.Subset.refl _

theorem fieldIn_subset (m : Member) : fieldIn m ⊆ memberNodes m := by
  cases m with
  | var d => exact fieldNodes_subset d
  | callable d => exact List.nil_subset _
  | property d => exact List.nil_subset _

theorem flatMap_subset_of {γ : Type} {f g : γ → List Node} (h : ∀ x, f x ⊆ g x) (l : List γ) :
    l.flatMap f ⊆ l.flatMap g := by
  intro y hy
  obtain ⟨x, hx, hy⟩ := List.mem_flatMap.mp hy
  exact List.mem_flatMap.mpr ⟨x, hx, h x hy⟩

/-- A name below the parts of a list is among what is bound of a part, or in what is overlooked of
it. -/
theorem name_mem_flatMap {γ : Type} {nodes bound rest : γ → List Node}
    (h : ∀ x, .expr (.name i name) ∈ nodes x →
      .expr (.name i name) ∈ bound x ∨ ∃ p ∈ rest x, .expr (.name i name) ∈ p.nodes) {l : List γ}
    (hmem : .expr (.name i name) ∈ l.flatMap nodes) : .expr (.name i name) ∈ l.flatMap bound ∨
      ∃ p ∈ l.flatMap rest, .expr (.name i name) ∈ p.nodes := by
  obtain ⟨x, hx, hname⟩ := List.mem_flatMap.mp hmem
  obtain hname | ⟨p, hp, hname⟩ := h x hname
  · exact .inl (List.mem_flatMap.mpr ⟨x, hx, hname⟩)
  · exact .inr ⟨p, List.mem_flatMap.mpr ⟨x, hx, hp⟩, hname⟩

theorem name_mem_var {d : VarDecl} (h : .expr (.name i name) ∈ d.nodes) :
    .expr (.name i name) ∈ fieldNodes d ∨
      ∃ p ∈ d.initial, .expr (.name i name) ∈ p.nodes := by
  obtain ⟨info, vname, type, init, absolute, kind, visibility⟩ := d
  simp only [VarDecl.nodes, List.cons_append, List.mem_cons, reduceCtorEq, List.mem_append,
    false_or] at h
  refine h.imp id fun h => ?_
  rw [optExprNodes_eq] at h
  exact List.mem_flatMap.mp h

theorem name_mem_member {m : Member} (h : .expr (.name i name) ∈ memberNodes m) :
    .expr (.name i name) ∈ boundIn m ∨ ∃ p ∈ m.initial, .expr (.name i name) ∈ p.nodes := by
  cases m with
  | var d => exact name_mem_var h
  | callable d => exact .inl h
  | property d => exact .inl h

theorem name_mem_fields {m : Member} (h : .expr (.name i name) ∈ memberNodes m) :
    .expr (.name i name) ∈ fieldIn m ∨
      ∃ p ∈ Node.overlookedIn m, .expr (.name i name) ∈ p.nodes := by
  cases m with
  | var d => exact name_mem_var h
  | callable d =>
    exact .inr ⟨.decl (.callable d), List.mem_singleton.mpr rfl, by
      simpa [Node.nodes, declsNodes, memberNodes] using h⟩
  | property d =>
    exact .inr ⟨.decl (.property d), List.mem_singleton.mpr rfl, by
      simpa [Node.nodes, declsNodes, memberNodes] using h⟩

end Parts

/-- The members of a named type are bound, but for the values that fields begin with. -/
theorem composite {d : CompositeDecl} {rest : List Node}
    (h : Settles m (d.members.flatMap boundIn ++ rest)) :
    Settles m (.decl (.composite d) :: (membersNodes d.members ++ rest)) := by
  rw [membersNodes_flatMap]
  refine h.widen (fun x hx => List.mem_cons_of_mem _ ?_) fun i name hmem => ?_
  · obtain hx | hx := List.mem_append.mp hx
    · exact List.mem_append_left _ (flatMap_subset_of boundIn_subset _ hx)
    · exact List.mem_append_right _ hx
  · obtain hmem | hmem : .expr (.name i name) ∈ d.members.flatMap memberNodes ∨
        .expr (.name i name) ∈ rest := by simpa using hmem
    · obtain hname | ⟨p, hp, hname⟩ := name_mem_flatMap (fun _ => name_mem_member) hmem
      · exact .inl (List.mem_append_left _ hname)
      · exact .inr ⟨_, List.mem_cons_self, p, hp, hname⟩
    · exact .inl (List.mem_append_right _ hmem)

/-- The types of the fields of a record without a name are bound, and its variant part is. -/
theorem record {i : NodeInfo} {packed : Bool} {members : List Member} {part : Option VariantPart}
    (h : Settles m (members.flatMap fieldIn ++ optVariantNodes part)) :
    Settles m (TypeExpr.record i packed members part).nodes := by
  rw [TypeExpr.nodes, membersNodes_flatMap]
  refine h.widen (fun x hx => List.mem_cons_of_mem _ ?_) fun i name hmem => ?_
  · obtain hx | hx := List.mem_append.mp hx
    · exact List.mem_append_left _ (flatMap_subset_of fieldIn_subset _ hx)
    · exact List.mem_append_right _ hx
  · obtain hmem | hmem : .expr (.name i name) ∈ members.flatMap memberNodes ∨
        .expr (.name i name) ∈ optVariantNodes part := by simpa using hmem
    · obtain hname | ⟨p, hp, hname⟩ := name_mem_flatMap (fun _ => name_mem_fields) hmem
      · exact .inl (List.mem_append_left _ hname)
      · exact .inr ⟨_, List.mem_cons_self, p, hp, hname⟩
    · exact .inl (List.mem_append_right _ hmem)

/-- The labels and the types of the fields of one case of a variant part are bound. -/
theorem variantCase {x : VariantCase} {rest : List Node}
    (h : Settles m (exprsNodes x.labels ++ (x.fields.flatMap fieldNodes ++ rest))) :
    Settles m (.variantCase x :: (exprsNodes x.labels ++ (varsNodes x.fields ++ rest))) := by
  rw [varsNodes_flatMap]
  refine h.widen (fun y hy => List.mem_cons_of_mem _ ?_) fun i name hmem => ?_
  · have hfields := flatMap_subset_of fieldNodes_subset x.fields
    simp only [List.mem_append] at hy ⊢
    exact hy.imp id (Or.imp (fun hy => hfields hy) id)
  · obtain hmem | hmem | hmem : .expr (.name i name) ∈ exprsNodes x.labels ∨
        .expr (.name i name) ∈ x.fields.flatMap VarDecl.nodes ∨ .expr (.name i name) ∈ rest := by
      simpa using hmem
    · exact .inl (by simp [hmem])
    · obtain hname | ⟨p, hp, hname⟩ := name_mem_flatMap (fun _ => name_mem_var) hmem
      · exact .inl (by simp only [List.mem_append, hname, true_or, or_true])
      · exact .inr ⟨_, List.mem_cons_self, p, hp, hname⟩
    · exact .inl (by simp [hmem])

/-- A routine is bound but for its directives and its external clause. -/
theorem callable {d : CallableDecl}
    (h : Settles m (.decl (.callable d) ::
      (optParamsNodes d.params ++ (optTypeNodes d.result ++ optBlockNodes d.body)))) :
    Settles m d.nodes := by
  have hnodes : d.nodes = .decl (.callable d) :: optParamsNodes d.params ++ optTypeNodes d.result ++
      exprsNodes d.clauseExprs ++ optBlockNodes d.body := by
    cases d
    simp [CallableDecl.nodes]
  rw [hnodes]
  refine h.widen (fun x hx => ?_) fun i name hmem => ?_
  · simp only [List.mem_cons, List.mem_append, List.cons_append] at hx ⊢
    tauto
  · have hclauses : .expr (.name i name) ∈ exprsNodes d.clauseExprs → Overlooked
        (.decl (.callable d) :: optParamsNodes d.params ++ optTypeNodes d.result ++
          exprsNodes d.clauseExprs ++ optBlockNodes d.body) i name := by
      rw [exprsNodes_eq]
      intro hmem
      obtain ⟨p, hp, hname⟩ := List.mem_flatMap.mp hmem
      exact ⟨_, List.mem_cons_self, p, hp, hname⟩
    simp only [List.mem_cons, List.mem_append, List.cons_append] at hmem hclauses ⊢
    tauto

/-- All parts of a node are overlooked. -/
theorem unseen {x : Node} (hx : x.overlooked = x.children) (hname : x.isName = false) (a : α) :
    Settles (Pure.pure a : Bind α) x.nodes := by
  refine (pure a).widen (List.nil_subset _) fun i name hmem => .inr ?_
  obtain heq | hmem := Node.mem_nodes_iff.mp hmem
  · rw [← heq] at hname
    cases hname
  · obtain ⟨p, hp, hmem⟩ := Node.mem_below_iff.mp hmem
    exact ⟨x, x.self_mem, p, hx ▸ hp, hmem⟩

mutual

theorem visitType (t : TypeExpr) (name : Text) : Settles (visitType t name) t.nodes :=
  match t with
  | .ordinal .. | .real .. | .rawPointer .. | .rawString .. | .variant .. => .node (.pure _)
  | .named t => .node (of_retentive (.resolveType t) fun _ _ => List.not_mem_nil)
  | .string _ none => .node (.pure _)
  | .string _ (some e) => .node (visitLength e)
  | .subrange info low high => .node (visitSubrange info low high)
  | .enum info members => .node (visitEnum info members name)
  | .pointer _ t => .node (visitType t ∅)
  | .classRef _ t => .node (visitType t ∅)
  | .set _ t => .node (visitType t ∅)
  | .array _ _ index elem _ =>
    .node (.bind (visitTypes index) fun _ => visitOptType elem)
  | .file _ elem => .node (visitOptType elem)
  | .record _ _ members part =>
    record (.after (.enter _ _) fun _ => .bind (visitFields members) fun _ =>
      .before (visitVariant part) fun _ => .leave)
  | .proc _ params result _ =>
    .node (.after (.enter _ _) fun _ => .bind (visitOptParams params) fun _ =>
      .before (visitOptType result) fun _ => .leave)
  | .classType i h members f => unseen (x := .type (.classType i h members f)) rfl rfl _
  | .interface i h guid members d f =>
    unseen (x := .type (.interface i h guid members d f)) rfl rfl _

theorem visitTypes : (ts : List TypeExpr) → Settles (visitTypes ts) (typesNodes ts)
  | [] => .pure _
  | t :: ts => .bind (visitType t ∅) fun _ => visitTypes ts

theorem visitOptType : (t : Option TypeExpr) → Settles (visitOptType t) (optTypeNodes t)
  | none => .pure _
  | some t => visitType t ∅

theorem visitParams : (params : List ParamDecl) → Settles (visitParams params) (paramsNodes params)
  | [] => .pure _
  | ⟨_, _, _, type, default⟩ :: params =>
    have h : Settles _ (optTypeNodes type ++ (optExprNodes default ++ paramsNodes params)) :=
      .bind (visitOptType type) fun _ => .bind (visitOptExpr default) fun _ =>
        .after (Retentive.register _ _ _).discard fun _ => visitParams params
    .node (.of_eq h (by simp))

theorem visitOptParams : (params : Option (List ParamDecl)) →
    Settles (visitOptParams params) (optParamsNodes params)
  | none => .pure _
  | some params => visitParams params

theorem visitField : (d : VarDecl) → Settles (visitField d) (fieldNodes d)
  | ⟨_, _, type, _, _, _, _⟩ =>
    .before (visitOptType type) fun _ => (Retentive.register _ _ _).discard

theorem visitFields : (members : List Member) →
    Settles (visitFields members) (members.flatMap fieldIn)
  | [] => .pure _
  | .var d :: members => .bind (visitField d) fun _ => visitFields members
  | .callable _ :: members => visitFields members
  | .property _ :: members => visitFields members

theorem visitCaseFields : (ds : List VarDecl) →
    Settles (visitCaseFields ds) (ds.flatMap fieldNodes)
  | [] => .pure _
  | d :: ds => .bind (visitField d) fun _ => visitCaseFields ds

theorem visitVariantCases : (cases : List VariantCase) →
    Settles (visitVariantCases cases) (variantCasesNodes cases)
  | [] => .pure _
  | ⟨i, labels, fields⟩ :: cases =>
    have h := variantCase (x := ⟨i, labels, fields⟩) (.bind (visitExprs labels) fun _ =>
      .bind (visitCaseFields fields) fun _ => visitVariantCases cases)
    .of_eq h (by simp [variantCasesNodes])

theorem visitVariant : (part : Option VariantPart) →
    Settles (visitVariant part) (optVariantNodes part)
  | none => .pure _
  | some ⟨_, _, tagType, cases⟩ =>
    .node (.bind (visitType tagType ∅) fun _ => .after (.declareTag _ _ _) fun _ =>
      visitVariantCases cases)

theorem visitCallable (d : CallableDecl) : Settles (visitCallable d) d.nodes :=
  match d with
  | ⟨i, name, owner, kind, classMethod, params, result, directives, body, forward, external,
      visibility, builtin⟩ => by
    let d : CallableDecl := ⟨i, name, owner, kind, classMethod, params, result, directives, body,
      forward, external, visibility, builtin⟩
    have hinside : Settles (do
        Binding.visitOptParams params
        Binding.visitOptType result
        Binding.visitBody d body)
        (optParamsNodes params ++ (optTypeNodes result ++ optBlockNodes body)) :=
      .bind (visitOptParams params) fun _ => .bind (visitOptType result) fun _ => visitBody d body
    refine callable (d := d) ?_
    unfold Binding.visitCallable
    dsimp only
    split
    · rename_i hmethod
      obtain ⟨howner, hbody⟩ : owner.isEmpty = false ∧ body.isSome = true := by
        simpa using hmethod
      refine inMethod howner hbody hinside fun x hx => ?_
      simp only [Node.nodes, declsNodes, CallableDecl.nodes, d, List.mem_append, List.mem_cons,
        List.cons_append, List.append_nil] at hx ⊢
      tauto
    · exact .node (inRoutine d hinside)

theorem visitBody (d : CallableDecl) : (body : Option Block) →
    Settles (visitBody d body) (optBlockNodes body)
  | none => .pure _
  | some ⟨_, decls, body⟩ =>
    .node (inBody d (.bind (visitDecls false decls) fun _ => visitStmt body))

theorem visitMembers : (members : List Member) →
    Settles (visitMembers members) (members.flatMap boundIn)
  | [] => .pure _
  | .var d :: members => .bind (visitField d) fun _ => visitMembers members
  | .callable d :: members => .bind (visitCallable d) fun _ => visitMembers members
  | .property d :: members => .bind (visitProperty d) fun _ => visitMembers members

theorem visitProperty : (d : PropertyDecl) → Settles (visitProperty d) d.nodes
  | ⟨_, _, params, type, _, _, index, default, stored, _, _, _, _⟩ =>
    have h : Settles _ (paramsNodes params ++ (optTypeNodes type ++ (optExprNodes index ++
        (optExprNodes default ++ optExprNodes stored)))) :=
      .after (.enter _ _) fun _ => .bind (visitParams params) fun _ => .after .leave fun _ =>
        .bind (visitOptType type) fun _ => .bind (visitOptExpr index) fun _ =>
          .bind (visitOptExpr default) fun _ => .before (visitOptExpr stored) fun _ =>
            (Retentive.register _ _ _).discard
    .node (.of_eq h (by simp))

theorem visitRest : (t : TypeExpr) → ∃ ns, Settles (visitRest t) ns
  | .record _ _ _ part => ⟨_, visitVariant part⟩
  | .interface _ _ guid _ _ _ => ⟨_, visitOptExpr guid⟩
  | .named _ | .string .. | .subrange .. | .enum .. | .pointer .. | .classRef .. | .array .. |
    .set .. | .file .. | .classType .. | .proc .. | .ordinal .. | .real .. | .rawPointer .. |
    .rawString .. | .variant .. => ⟨[], .pure _⟩

theorem visitDecls (declared : Bool) : (ds : List Decl) →
    Settles (visitDecls declared ds) (declsNodes ds)
  | [] => .pure _
  | .type ⟨_, name, t⟩ :: ds =>
    .node (.after (.declareTypes _ _) fun _ => .bind (visitType t name) fun _ => visitDecls true ds)
  | .composite ⟨i, name, kind, heritage, members, type⟩ :: ds => by
    -- the variant part of a record is bound with it, though no walk meets it there
    obtain ⟨_, hrest⟩ := visitRest type
    exact composite (d := ⟨i, name, kind, heritage, members, type⟩) (.after (.declareTypes _ _)
      fun _ => .after (.enter _ _) fun _ => .bind (visitMembers members) fun _ =>
        .bind hrest.forget fun _ => .after .leave fun _ =>
          .after (Silent.checkComposite _).retentive fun _ => visitDecls true ds)
  | .var ⟨_, _, type, init, _, _, _⟩ :: ds =>
    have h : Settles _ (optTypeNodes type ++ (optExprNodes init ++ declsNodes ds)) :=
      .bind (visitOptType type) fun _ => .bind (visitOptExpr init) fun _ =>
        .after (.declareVar _) fun _ => visitDecls false ds
    .node (.of_eq h (by simp))
  | .const ⟨_, _, type, value, _⟩ :: ds =>
    have h : Settles _ (optTypeNodes type ++ (optExprNodes value ++ declsNodes ds)) :=
      .bind (visitOptType type) fun _ => .bind (visitOptExpr value) fun _ =>
        .after (.declareConst _) fun _ => visitDecls false ds
    .node (.of_eq h (by simp))
  | .callable d :: ds => .bind (visitCallable d) fun _ => visitDecls false ds
  | .label _ :: ds => .node (.after (Retentive.register _ _ _).discard fun _ => visitDecls false ds)
  | .exported d :: ds =>
    have h : Settles _ (optExprNodes d.exportName ++ optExprNodes d.index) :=
      .after (Silent.checkExported d).retentive fun _ =>
        .bind (visitOptExpr _) fun _ => visitOptExpr _
    .node (.bind h fun _ => visitDecls false ds)
  | .param _ :: _ | .property _ :: _ | .unit _ :: _ | .enumMember _ :: _ => .throw _

end

theorem visitBlock (b : Block) : Settles (visitBlock b) b.nodes := by
  obtain ⟨info, decls, body⟩ := b
  exact .node (.bind (visitDecls false decls) fun _ => visitStmt body)

theorem declareUnits (units : List UnitRef) :
    Settles (declareUnits units) (units.map fun u => .decl (.unit u)) :=
  of_retentive (.declareUnits units) fun i name hmem => by simp at hmem

theorem visitGoal (g : Goal) : Settles (visitGoal g) g.nodes := by
  cases g with
  | program g => exact .node (.bind (declareUnits _) fun _ => visitBlock _)
  | library g => exact .node (.bind (declareUnits _) fun _ => visitBlock _)
  | unit g =>
    have h := bind (declareUnits g.publicUses) fun _ => bind (visitDecls false g.publicDecls)
      fun _ => bind (declareUnits g.ownUses) fun _ => bind (visitDecls false g.ownDecls) fun _ =>
        bind (visitStmts g.init) fun _ => visitStmts g.final
    exact .node (.of_eq h (by simp))
  | package g => exact .node (declareUnits _)

end Settles

/-- Binding a source to its end leaves no name without an account. Each name that the walk over the
tree meets is replaced by an identifier, a call or a reference to a result, or it is called in the
target of an assignment that is replaced; or it is reported as unknown at its line, as an error if
names are resolved strictly and as a warning if not; or it stands in a method that is skipped with
an error; or in a part that binding does not look into. So with strict names and without errors, all
names are resolved but those in parts that are not looked into. -/
theorem names_accounted {b c : Binding} {g : Goal} (hb : b.notes.StandsIn)
    (h : b.run g = (.ok (), c)) :
    (∀ i name, .expr (.name i name) ∈ g.nodes → Accounted g.nodes c i name) ∧
      (b.scopes.config.strict = true → c.isClean = true →
        ∀ i name, .expr (.name i name) ∈ g.nodes →
          Resolved g.nodes c i name ∨ Overlooked g.nodes i name) := by
  have hends := Settles.visitGoal g b hb
  unfold Ends at hends
  rw [show (visitGoal g).run.run b = (.ok (), c) from h] at hends
  obtain ⟨hlater, haccounted⟩ := hends
  refine ⟨haccounted, fun hstrict hclean i name hmem => ?_⟩
  have hnone : c.errors = #[] := by simpa [isClean] using hclean
  have hdoubts : c.doubts = #[] := by rw [doubts, hlater.config, if_pos hstrict, hnone]
  obtain h | (⟨e, -, -, he⟩ | ⟨d, -, -, -, -, s, e, -, -, he⟩) | h := haccounted i name hmem
  · exact .inl h
  · rw [hdoubts] at he
    exact absurd he (Array.not_mem_empty _)
  · rw [hnone] at he
    exact absurd he (Array.not_mem_empty _)
  · exact .inr h

/-- The tree of a program with a variable of a class type without a name, which has a method with a
default value that nothing declares. -/
def namelessClass : Goal :=
  let node (id : Nat) : NodeInfo := { id, line := 1 }
  let type : TypeExpr := .named { info := node 1, name := "Integer" }
  let param : ParamDecl :=
    { info := node 3, name := "A", type := some type, default := some (.name (node 2) "N") }
  let method : CallableDecl := { info := node 4, name := "M", params := some [param] }
  let type : TypeExpr := .classType (node 5) [] [.callable method] false
  let body : Stmt := .compound (node 8) [.empty (node 7)]
  .program { info := node 10, name := "P",
             block := ⟨node 9, [.var { info := node 6, name := "X", type := some type }], body⟩ }

/-- Binding it with strict names reports nothing and replaces nothing. -/
theorem run_namelessClass : ∃ c, ofGoal { strict := true } ∅ namelessClass 10 = (.ok (), c) ∧
    c.errors = #[] ∧ c.warnings = #[] ∧ c.notes.substitutes.contains 2 = false := by
  have hends : endsWith (ofGoal { strict := true } ∅ namelessClass 10) (fun c =>
      c.errors.isEmpty && c.warnings.isEmpty && !c.notes.substitutes.contains 2) = true := by
    decide +kernel
  obtain ⟨c, hc, hends⟩ := exists_of_endsWith hends
  obtain ⟨⟨herrors, hwarnings⟩, hsubstitutes⟩ : (c.errors = #[] ∧ c.warnings = #[]) ∧
      c.notes.substitutes.contains 2 = false := by simpa using hends
  exact ⟨c, hc, herrors, hwarnings, hsubstitutes⟩

theorem names_accounted_namelessClass : (Annotations.forTree 10).StandsIn ∧
    ∃ c, ofGoal { strict := true } ∅ namelessClass 10 = (.ok (), c) ∧
      (∀ i name, .expr (.name i name) ∈ namelessClass.nodes →
        Accounted namelessClass.nodes c i name) ∧
      ∀ i name, .expr (.name i name) ∈ namelessClass.nodes →
        Resolved namelessClass.nodes c i name ∨ Overlooked namelessClass.nodes i name := by
  have hstands := Annotations.standsIn_forTree 10 0
  obtain ⟨c, hc, herrors, -, -⟩ := run_namelessClass
  let b : Binding := { scopes := .initial { strict := true }, notes := .forTree 10 }
  obtain ⟨haccounted, hstrict⟩ := names_accounted (b := b) hstands hc
  exact ⟨hstands, c, hc, haccounted, hstrict rfl (by simp [isClean, herrors])⟩

/-- The default value is left without replacement and without any finding. -/
theorem namelessClass_overlooked :
    ∃ c, ofGoal { strict := true } ∅ namelessClass 10 = (.ok (), c) ∧
      ∃ i name, .expr (.name i name) ∈ namelessClass.nodes ∧
        ¬Resolved namelessClass.nodes c i name ∧ ¬Reported namelessClass.nodes c i name := by
  obtain ⟨c, hc, herrors, hwarnings, hsubstitutes⟩ := run_namelessClass
  have hdoubts : c.doubts = #[] := by
    unfold doubts
    split
    · exact herrors
    · exact hwarnings
  refine ⟨c, hc, ⟨2, 1, 0⟩, "N", ?_, ?_, ?_⟩
  · exact List.mem_of_getElem? (i := 7) rfl
  · rintro (heffective | ⟨info, j, args, value, hmem, -⟩)
    · rw [Annotations.effective_of_not_contains hsubstitutes] at heffective
      cases heffective
    · simp [namelessClass, Goal.nodes, Block.nodes, optBlockNodes, declsNodes, VarDecl.nodes,
        optTypeNodes, TypeExpr.nodes, membersNodes, CallableDecl.nodes, CallableDecl.clauseExprs,
        optParamsNodes, paramsNodes, ParamDecl.nodes, optExprNodes, exprsNodes, Expr.nodes,
        Stmt.nodes, stmtsNodes] at hmem
  · rintro (⟨e, -, -, he⟩ | ⟨d, -, -, -, -, s, e, -, -, he⟩)
    · rw [hdoubts] at he
      exact absurd he (Array.not_mem_empty _)
    · rw [herrors] at he
      exact absurd he (Array.not_mem_empty _)

end ObjectPascal.Binding
