import ObjectPascal.Proofs.Rule.Provenance
import ObjectPascal.Proofs.Syntax.Reach

/-!
Declarations of types with members hold these twice, once as their own and once in the type. No
builder tells them apart: over arguments in which all such declarations repeat their members, it
gives values in which they do. So they do in every parsed source, and the walk over it misses
nothing but what such types hold besides.
-/

namespace ObjectPascal

/-- All nodes below a node are matched, and so is the node. -/
def Node.Whole (n : Node) : Prop := ∀ x ∈ n.nodes, x.Matched

theorem Node.whole_iff {n : Node} : n.Whole ↔ n.Matched ∧ ∀ c ∈ n.children, c.Whole := by
  simp only [Whole, nodes_eq_cons n, below, List.forall_mem_cons, List.mem_flatMap]
  refine and_congr_right' ⟨fun h c hc x hx => h x ⟨c, hc, hx⟩, fun h x hx => ?_⟩
  obtain ⟨c, hc, hx⟩ := hx
  exact h c hc x hx

namespace Rule

open Grammar (Tables Move Run Parsing Configuration)

/-- Over whole nodes a builder gives whole nodes. -/
def Upholds {α : Type} (ps : List Node) (b : Build α) (qs : α → List Node) : Prop :=
  (∀ n ∈ ps, n.Whole) → b.Gives fun a => ∀ n ∈ qs a, n.Whole

namespace Upholds

variable {α β : Type} {ps rs : List Node} {qs : α → List Node}

theorem pure {a : α} (h : (∀ n ∈ ps, n.Whole) → ∀ n ∈ qs a, n.Whole) :
    Upholds ps (Pure.pure a : Build α) qs := fun hp => .pure (h hp)

theorem give {a : α} (h : qs a ⊆ ps) : Upholds ps (Rule.give a) qs :=
  pure fun hp n hn => hp n (h hn)

theorem bind {b : Build α} {k : α → Build β} {ts : β → List Node} (hb : Upholds ps b qs)
    (hk : ∀ a, Upholds (qs a) (k a) ts) : Upholds ps (b >>= k) ts :=
  fun hp => .bind (hb hp) fun a ha => hk a ha

theorem of_subset {b : Build α} (h : rs ⊆ ps) (hb : Upholds rs b qs) : Upholds ps b qs :=
  fun hp => hb fun n hn => hp n (h hn)

/-- Nodes beside the arguments stay as they are. -/
theorem beside {b : Build α} (fs : List Node) (hb : Upholds ps b qs) :
    Upholds (fs ++ ps) b fun a => fs ++ qs a := by
  intro hp site last a last' hrun
  obtain ⟨hfs, hps⟩ := List.forall_mem_append.mp hp
  exact List.forall_mem_append.mpr ⟨hfs, hb hps site last a last' hrun⟩

theorem ite {c : Prop} [Decidable c] {a b : Build α} (ha : Upholds ps a qs)
    (hb : Upholds ps b qs) : Upholds ps (if c then a else b) qs :=
  fun hp => .ite (ha hp) (hb hp)

/-- What carries no node leaves the arguments. -/
theorem idle (b : Build α) : Upholds ps b fun _ => ps := fun hp _ _ _ _ _ => hp

theorem reject {line : Nat} {message : Text} : Upholds ps (Rule.reject line message) qs :=
  fun _ => .reject

/-- A new node is whole if it is matched and stands over arguments. -/
theorem whole {n : Node} (hn : n.Matched) (hsub : n.children ⊆ ps) (hp : ∀ n ∈ ps, n.Whole) :
    n.Whole :=
  Node.whole_iff.mpr ⟨hn, fun c hc => hp c (hsub hc)⟩

/-- Most builders make one node over their arguments. -/
theorem node_return {b : Build β} {f : β → α}
    (h : ∀ i, ∃ n, qs (f i) = [n] ∧ n.Matched ∧ n.children ⊆ ps) :
    Upholds ps (do return f (← b)) qs := by
  refine (idle b).bind fun i => pure fun hp => ?_
  obtain ⟨n, hq, hn, hsub⟩ := h i
  rw [hq, List.forall_mem_singleton]
  exact whole hn hsub hp

theorem mapM {k : β → Build α} {l : List β} (hk : ∀ b ∈ l, Upholds ps (k b) qs) :
    Upholds ps (l.mapM k) fun as => as.flatMap qs := by
  induction l with
  | nil => exact pure fun _ => by simp
  | cons b l ih =>
    obtain ⟨hb, hl⟩ := List.forall_mem_cons.mp hk
    rw [List.mapM_cons]
    intro hp
    refine .bind (hb hp) fun a ha => .bind (ih hl hp) fun as has => .pure ?_
    simpa only [List.flatMap_cons, List.forall_mem_append] using ⟨ha, has⟩

theorem foldlM {k : α → β → Build α} (hk : ∀ a b, Upholds (qs a) (k a b) qs) (l : List β) (a : α) :
    Upholds (qs a) (l.foldlM k a) qs := by
  induction l generalizing a with
  | nil => exact pure id
  | cons b l ih =>
    rw [List.foldlM_cons]
    exact (hk a b).bind fun a => ih a

/-- Every name of a group is whole, over what the names share. -/
theorem names {f : Token → NodeInfo → α} {n : α → Node} (hn : ∀ t i, (n (f t i)).Matched)
    (hsub : ∀ t i, (n (f t i)).children ⊆ ps) (ts : List Token) :
    Upholds ps (ts.mapM fun t => do return f t (← Rule.nodeAt t.line)) fun as => as.map n := by
  simp only [List.map_eq_flatMap]
  refine mapM fun t _ => (idle _).bind fun i => pure fun hp => ?_
  rw [List.forall_mem_singleton]
  exact whole (hn t i) (hsub t i) hp

end Upholds

section Helpers

theorem groupDecls_upholds (kind : VarKind) (visibility : Visibility) (g : VarGroup) :
    Upholds (Shape.parts.groupParts g) (groupDecls kind visibility g) fun ds =>
      ds.map fun d => .decl (.var d) :=
  Upholds.names
    (f := fun t info =>
      ({ info, name := t.text, type := some g.type, init := g.init, absolute := g.absolute, kind,
         visibility } : VarDecl))
    (n := fun d => .decl (.var d)) (fun _ _ => trivial) (fun _ _ => List.Subset.refl _) g.names

theorem groups_uphold (kind : VarKind) (visibility : Visibility) (gs : List VarGroup) :
    Upholds (gs.flatMap Shape.parts.groupParts) (gs.mapM (groupDecls kind visibility)) fun dss =>
      dss.flatten.map fun d => .decl (.var d) := by
  have hall : Upholds (gs.flatMap Shape.parts.groupParts) (gs.mapM (groupDecls kind visibility))
      fun dss => dss.flatMap fun ds => ds.map fun d => .decl (.var d) :=
    .mapM fun g hg => (groupDecls_upholds kind visibility g).of_subset
      fun n hn => List.mem_flatMap.mpr ⟨g, hg, hn⟩
  simpa only [List.map_flatten, List.flatMap_def] using hall

theorem variableSection_upholds (kind : VarKind) (gs : List VarGroup) :
    Upholds (gs.flatMap Shape.parts.groupParts) (variableSection kind gs) fun ds =>
      ds.map .decl := by
  refine (groups_uphold kind .default gs).bind fun dss => .pure fun h => ?_
  rw [List.map_map]
  exact h

theorem labels_uphold (ts : List Token) :
    Upholds [] (ts.mapM fun t => do return Decl.label { info := ← nodeAt t.line, name := t.text })
      fun ds => ds.map .decl :=
  Upholds.names (f := fun t info => Decl.label { info, name := t.text }) (n := .decl)
    (fun _ _ => trivial) (fun _ _ => List.Subset.refl _) ts

theorem parameters_uphold (kind : ParamKind) (names : List Token) (type : Option TypeExpr)
    (default : Option Expr) :
    Upholds (type.toList.map .type ++ default.toList.map .expr)
      (parameters kind names type default) fun ps => ps.map fun p => .decl (.param p) := by
  have hnames : Upholds (type.toList.map Node.type ++ default.toList.map .expr)
      (names.mapM fun t => do
        return ({ info := ← nodeAt t.line, name := t.text, kind, type, default } : ParamDecl))
      fun ps => ps.map fun p => .decl (.param p) :=
    Upholds.names
      (f := fun t info => ({ info, name := t.text, kind, type, default } : ParamDecl))
      (n := fun p => .decl (.param p)) (fun _ _ => trivial) (fun _ _ => List.Subset.refl _) names
  exact .ite ((Upholds.idle _).bind fun _ => hnames) hnames

/-- A method that is told its owner stays whole. -/
theorem whole_owned (owner : Text) {n : Node} (h : n.Whole) : (owned owner n).Whole := by
  unfold owned
  split
  · exact Node.whole_iff.mpr ⟨trivial, (Node.whole_iff.mp h).2⟩
  · exact h

theorem declareType_upholds (name : Token) (t : TypeExpr) :
    Upholds [.type t] (declareType name t) fun d => [.decl d] := by
  refine (Upholds.idle _).bind fun i => .pure fun h => ?_
  rw [List.forall_mem_singleton] at h ⊢
  -- The members of a declaration are those of the type, told who owns them.
  have hmembers {ms : List Member}
      (hms : (ms.map fun m => Node.decl m.decl) ⊆ (Node.type t).children) :
      ∀ c ∈ (ms.map (ownedBy name.text)).map fun m => Node.decl m.decl, c.Whole := by
    simp only [List.map_map, List.forall_mem_map, Function.comp_apply, decl_ownedBy]
    intro m hm
    exact whole_owned _ ((Node.whole_iff.mp h).2 _ (hms (List.mem_map_of_mem hm)))
  split
  · exact Node.whole_iff.mpr ⟨.classType _ rfl, hmembers (List.Subset.refl _)⟩
  · exact Node.whole_iff.mpr ⟨.interface _ _ _ rfl, hmembers (List.subset_append_right _ _)⟩
  · exact Node.whole_iff.mpr ⟨.record _ _ _ rfl rfl, hmembers (List.subset_append_left _ _)⟩
  · exact Node.whole_iff.mpr ⟨trivial, List.forall_mem_singleton.mpr h⟩

/-- A routine is whole over the parts of its heading, its directives and what is added to it. -/
theorem routine_upholds {h : RoutineHead} {ds : List Directive} {v : Visibility}
    {g : CallableDecl → CallableDecl} {ps : List Node}
    (hsub : ∀ i, (Decl.callable (g (routineOf h ds v i))).children ⊆ ps) :
    Upholds ps (g <$> callableOf h ds v) fun d => [.decl (.callable d)] := by
  change Upholds ps (g <$> (routineOf h ds v <$> nodeAt h.line)) _
  rw [← comp_map, map_eq_pure_bind]
  exact .node_return fun i => ⟨_, rfl, trivial, hsub i⟩

theorem callableOf_upholds (h : RoutineHead) (ds : List Directive) (v : Visibility) :
    Upholds (Shape.parts.memberParts (.method h ds)) (callableOf h ds v) fun d =>
      [.decl (.callable d)] := by
  have hroutine : Upholds (Shape.parts.memberParts (.method h ds)) (id <$> callableOf h ds v)
      fun d => [.decl (.callable d)] := routine_upholds fun i => by
    simp only [Decl.children, routineOf, CallableDecl.paramList, CallableDecl.clauseExprs,
      filterMap_map, List.append_nil, Option.toList_none, List.map_nil, id_eq]
    exact List.Subset.refl _
  rwa [id_map] at hroutine

theorem addMember_upholds (l : MemberList) (m : PendingMember) :
    Upholds (l.items.map (fun m => .decl m.decl) ++ Shape.parts.memberParts m) (addMember l m)
      fun l => l.items.map fun m => .decl m.decl := by
  cases m with
  | visibility v => exact .pure fun h => (List.forall_mem_append.mp h).1
  | fields g =>
    refine ((groupDecls_upholds .field l.visibility g).beside _).bind fun ds => .pure fun h => ?_
    rw [List.map_append, List.map_map]
    exact h
  | method h ds =>
    refine ((callableOf_upholds h ds l.visibility).beside _).bind fun d => .pure fun h => ?_
    rw [snoc, List.map_append]
    exact h
  | property name face specs isDefault line =>
    refine (Upholds.idle _).bind fun i => .pure fun h => ?_
    rw [snoc, List.map_append]
    obtain ⟨hitems, hparts⟩ := List.forall_mem_append.mp h
    refine List.forall_mem_append.mpr ⟨hitems, List.forall_mem_singleton.mpr ?_⟩
    rw [Shape.parts.memberParts, ← filterMap_map] at hparts
    have hsub := (property_takesFrom name face specs isDefault l.visibility i).subset
    exact Upholds.whole trivial hsub hparts

theorem heading_upholds (classMethod : Bool) (word : Token) (name : RoutineName)
    (params : Option (List ParamDecl)) (result : Option TypeExpr) :
    Upholds ((params.getD []).map (fun p => .decl (.param p)) ++ result.toList.map .type)
      (heading classMethod word name params result) Shape.parts.headParts :=
  .ite ((Upholds.idle _).bind fun _ => .pure id) (.pure id)

theorem recordOf_upholds (packed : Bool) (l : Option MemberList) (v : Option VariantPart) :
    Upholds (((l.map (·.items)).getD []).map (fun m => .decl m.decl) ++
        v.toList.map .variantPart) (recordOf packed l v) fun t => [.type t] := by
  exact (Upholds.idle _).bind fun _ => .node_return fun i => ⟨_, rfl, trivial, List.Subset.refl _⟩

theorem variantCaseOf_upholds (labels : List Expr) (gs : List VarGroup) :
    Upholds (labels.map .expr ++ gs.flatMap Shape.parts.groupParts) (variantCaseOf labels gs)
      fun c => [.variantCase c] := by
  refine (Upholds.idle _).bind fun i => ?_
  refine ((groups_uphold .field .default gs).beside _).bind fun dss => .pure fun h => ?_
  exact List.forall_mem_singleton.mpr (Upholds.whole trivial (List.Subset.refl _) h)

theorem dotted_upholds (name : Text) : Upholds [] (dotted name) fun e => [.expr e] := by
  unfold dotted
  split
  · exact .node_return fun i => ⟨_, rfl, trivial, List.Subset.refl _⟩
  · rename_i first fields _
    have hfirst : Upholds [] (do return .name (← Rule.node) first) fun e => [.expr e] :=
      .node_return fun i => ⟨_, rfl, trivial, List.Subset.refl _⟩
    have hfield (e : Expr) (f : Text) : Upholds [.expr e] (do return .field (← Rule.node) e f)
        fun e => [.expr e] := .node_return fun i => ⟨_, rfl, trivial, List.Subset.refl _⟩
    have hall := hfirst.bind (Upholds.foldlM hfield fields)
    simpa only [bind_assoc, pure_bind] using hall

theorem handlerOf_upholds (var name : Text) (body : Stmt) :
    Upholds [.stmt body] (handlerOf var name body) fun h => [.handler h] := by
  refine (Upholds.idle _).bind fun i => (Upholds.idle _).bind fun j => .pure fun h => ?_
  have htype : Node.Whole (.type (.named { info := j, name })) :=
    Node.whole_iff.mpr ⟨trivial, nofun⟩
  exact List.forall_mem_singleton.mpr
    (Node.whole_iff.mpr ⟨trivial, List.forall_mem_cons.mpr ⟨htype, h⟩⟩)

theorem integerOf_upholds (t : Token) : Upholds [] (integerOf t) fun e => [.expr e] := by
  unfold integerOf
  split
  · exact .node_return fun i => ⟨_, rfl, trivial, List.Subset.refl _⟩
  · exact .reject

theorem realOf_upholds (t : Token) : Upholds [] (realOf t) fun e => [.expr e] := by
  unfold realOf
  split
  · exact .node_return fun i => ⟨_, rfl, trivial, List.Subset.refl _⟩
  · exact .reject

theorem stringOf_upholds (t : Token) : Upholds [] (stringOf t) fun e => [.expr e] := by
  unfold stringOf
  split <;> exact .node_return fun i => ⟨_, rfl, trivial, List.Subset.refl _⟩

theorem callOf_upholds (e : Expr) (args : List Expr) :
    Upholds (.expr e :: args.map .expr) (callOf e args) fun e => [.expr e] := by
  unfold callOf
  split
  · exact .node_return fun i => ⟨_, rfl, trivial, List.subset_cons_self _ _⟩
  · exact .node_return fun i => ⟨_, rfl, trivial, List.Subset.refl _⟩

theorem stringCall_upholds (e : Expr) : Upholds [.expr e] (stringCall e) fun e => [.expr e] := by
  refine (Upholds.idle _).bind fun i => (Upholds.idle _).bind fun j => .pure fun h => ?_
  have hcallee : Node.Whole (.expr (.ident j "string")) := Node.whole_iff.mpr ⟨trivial, nofun⟩
  exact List.forall_mem_singleton.mpr
    (Node.whole_iff.mpr ⟨trivial, List.forall_mem_cons.mpr ⟨hcallee, h⟩⟩)

theorem plainDirective_upholds (t : Token) :
    Upholds [] (plainDirective t) fun d => d.arg.toList.map .expr :=
  .ite ((Upholds.idle _).bind fun _ => .pure fun _ => nofun) (.pure fun _ => nofun)

theorem strictly_upholds (word : Token) (v : Visibility) :
    Upholds [] (strictly word v) Shape.parts.memberParts :=
  (Upholds.idle _).bind fun _ => .pure fun _ => nofun

end Helpers

/-- A rule makes whole nodes of whole nodes. -/
def UpholdsParts (r : Rule) : Prop :=
  AlwaysOf (fun vs b => Upholds (vs.flatMap Value.parts) b fun v => Value.parts ⟨r.lhs.shape, v⟩)
    r.rhs [] r.builder

section Rules

variable {α β : Type} {ps : List Node} {qs : α → List Node}

theorem upholds_build {b : Build α} : Upholds ps (build b) qs ↔ Upholds ps b qs := Iff.rfl

theorem upholds_node {f : NodeInfo → α}
    (h : ∀ i, ∃ n, qs (f i) = [n] ∧ n.Matched ∧ n.children ⊆ ps) :
    Upholds ps (f <$> node) qs := by
  rw [map_eq_pure_bind]
  exact .node_return h

/-- A node that is matched over some of the nodes `ps`. -/
def MatchedOver (ps : List Node) (n : Node) : Prop := n.Matched ∧ n.children ⊆ ps

/-- The side condition in a form that simplification evaluates from the node outwards. -/
theorem upholds_alone {f : NodeInfo → α} (h : ∀ i, Alone (MatchedOver ps) (qs (f i))) :
    Upholds ps (f <$> node) qs :=
  upholds_node fun i => (h i).exists

-- What values carry and what stands below nodes is computed for all rules alike.
attribute [local simp] Shape.parts Node.children Node.Matched upholds_build Upholds.give
  upholds_alone alone_singleton MatchedOver optList_map flatMap_nothing snoc List.Subset.refl

/-- A mark has no nodes. -/
example : (Shape.parts .mark ()).length = 0 := by decide +kernel

theorem goals_uphold : ∀ r ∈ goals, r.UpholdsParts := by
  simp only [goals, List.forall_mem_cons]
  -- The types of all values are computed first, so that the builders show their own forms.
  dsimp only [UpholdsParts, rule, AlwaysOf, Phrase.shape, Sym.shape, Shape.Val]
  simp only [List.flatMap_append, List.flatMap_singleton, Value.parts, Shape.parts]
  dsimp only [Shape.Val]
  simp [← List.map_eq_flatMap, Decl.children, Goal.children]

theorem names_uphold : ∀ r ∈ names, r.UpholdsParts := by
  simp only [names, List.forall_mem_cons, List.forall_mem_append, List.forall_mem_map]
  dsimp only [UpholdsParts, rule, AlwaysOf, Phrase.shape, Sym.shape, Shape.Val]
  simp only [List.flatMap_append, List.flatMap_singleton, Value.parts, Shape.parts]
  dsimp only [Shape.Val]
  simp

theorem sections_uphold : ∀ r ∈ sections, r.UpholdsParts := by
  simp only [sections, blocks, constantSections, variableSections, List.forall_mem_cons,
    List.forall_mem_append]
  dsimp only [UpholdsParts, rule, AlwaysOf, Phrase.shape, Sym.shape, Shape.Val]
  simp only [List.flatMap_append, List.flatMap_singleton, Value.parts, Shape.parts]
  dsimp only [Shape.Val]
  simp [optInit_flatMap, ← List.map_eq_flatMap, Decl.children, Stmt.children,
    declareType_upholds, variableSection_upholds]
  refine ⟨labels_uphold, fun names type init => .ite ?_ (.pure id)⟩
  exact (Upholds.idle _).bind fun _ => .reject

theorem routines_uphold : ∀ r ∈ routines, r.UpholdsParts := by
  simp only [routines, headings, parameterLists, directives, List.forall_mem_cons,
    List.forall_mem_append, List.forall_mem_map]
  dsimp only [UpholdsParts, rule, AlwaysOf, Phrase.shape, Sym.shape, Shape.Val]
  simp only [List.flatMap_append, List.flatMap_singleton, Value.parts, Shape.parts]
  dsimp only [Shape.Val]
  simp [optList_flatMap, optExternal_flatMap, filterMap_map, ← List.map_eq_flatMap,
    TypeExpr.children, Decl.children, CallableDecl.paramList, CallableDecl.clauseExprs, routineOf,
    Shape.parts.headParts, plainDirective_upholds, routine_upholds]
  refine ⟨⟨fun h ds => ?_, heading_upholds false, heading_upholds true⟩, ?_, ?_, ?_⟩
  · have hall := callableOf_upholds h (ds.getD []) .default
    rwa [Shape.parts.memberParts, Shape.parts.headParts, List.append_assoc] at hall
  · exact fun names t e => parameters_uphold .plain names (some t) e
  · exact fun word names t e => parameters_uphold (paramKindOf word) names (some t) e
  · exact fun word names => parameters_uphold (paramKindOf word) names none none

theorem types_uphold : ∀ r ∈ types, r.UpholdsParts := by
  simp only [types, simpleTypes, structuredTypes, classTypes, variantParts, List.forall_mem_cons,
    List.forall_mem_append]
  dsimp only [UpholdsParts, rule, AlwaysOf, Phrase.shape, Sym.shape, Shape.Val]
  simp only [List.flatMap_append, List.flatMap_singleton, Value.parts, Shape.parts]
  dsimp only [Shape.Val]
  simp [optList_flatMap, optItems_map, ← List.map_eq_flatMap, TypeExpr.children, Decl.children,
    recordOf_upholds, variantCaseOf_upholds]
  intro q t high
  refine ((dotted_upholds _).beside [.expr high]).bind fun low => upholds_node fun _ => ?_
  exact ⟨_, rfl, trivial, (List.Perm.swap _ _ []).subset⟩

theorem members_uphold : ∀ r ∈ members, r.UpholdsParts := by
  simp only [members, memberLists, properties, List.forall_mem_cons, List.forall_mem_append]
  dsimp only [UpholdsParts, rule, AlwaysOf, Phrase.shape, Sym.shape, Shape.Val]
  simp only [List.flatMap_append, List.flatMap_singleton, Value.parts, Shape.parts]
  dsimp only [Shape.Val]
  simp [optList_flatMap, ← List.map_eq_flatMap, specExpr?, strictly_upholds, addMember_upholds,
    Shape.parts.groupParts, Shape.parts.faceParts]
  have hsame (m : PendingMember) : Upholds (Shape.parts.memberParts m) (give m) fun m =>
      Shape.parts.memberParts m := .give (List.Subset.refl _)
  refine ⟨⟨fun l g => addMember_upholds l (.fields g), fun g => addMember_upholds {} (.fields g),
    addMember_upholds {}, fun g => hsame (.fields g), fun h ds => hsame (.method h _), ?_⟩,
    fun word name face specs d => hsame (.property name face _ _ word.line)⟩
  exact ⟨hsame (.visibility _), hsame (.visibility _), hsame (.visibility _), hsame (.visibility _)⟩

theorem statements_uphold : ∀ r ∈ statements, r.UpholdsParts := by
  simp only [statements, simpleStatements, choices, loops, handlers, List.forall_mem_cons,
    List.forall_mem_append]
  dsimp only [UpholdsParts, rule, AlwaysOf, Phrase.shape, Sym.shape, Shape.Val]
  simp only [List.flatMap_append, List.flatMap_singleton, Value.parts, Shape.parts]
  dsimp only [Shape.Val]
  simp [← List.map_eq_flatMap, Stmt.children, Expr.children, handlerOf_upholds]
  refine ⟨(Upholds.idle _).bind fun i => ?_, fun word var e s => (Upholds.idle _).bind fun _ => ?_⟩
  · rw [map_eq_pure_bind]
    refine (Upholds.idle _).bind fun j => .pure fun _ => List.forall_mem_singleton.mpr ?_
    have hcall : Node.Whole (.expr (.inherited j ∅ none)) :=
      Node.whole_iff.mpr ⟨trivial, List.forall_mem_nil _⟩
    exact Node.whole_iff.mpr ⟨trivial, List.forall_mem_singleton.mpr hcall⟩
  · exact upholds_node fun _ => ⟨_, rfl, trivial, List.Subset.refl _⟩

theorem expressions_uphold : ∀ r ∈ expressions, r.UpholdsParts := by
  simp only [expressions, operations, primaries, designators, typedConstants,
    List.forall_mem_cons, List.forall_mem_append, List.forall_mem_map]
  dsimp only [UpholdsParts, rule, ruleAs, AlwaysOf, Phrase.shape, Sym.shape, Shape.Val]
  simp only [List.flatMap_append, List.flatMap_singleton, Value.parts, Shape.parts]
  dsimp only [Shape.Val]
  simp [← List.map_eq_flatMap, Expr.children, integerOf_upholds, realOf_upholds, stringOf_upholds,
    callOf_upholds, stringCall_upholds]
  exact fun e => callOf_upholds e []

theorem all_uphold : ∀ r ∈ all, r.UpholdsParts := by
  simp only [all, List.forall_mem_append]
  exact ⟨⟨⟨⟨⟨⟨⟨goals_uphold, names_uphold⟩, sections_uphold⟩, routines_uphold⟩, types_uphold⟩,
    members_uphold⟩, statements_uphold⟩, expressions_uphold⟩

end Rules

section Runs

variable {config : Config} {origin : Nat} {t : Tables} {ms : List Move}
  {c : Configuration Value Goal Nat}

/-- What tokens have, and what reductions give where their arguments have it, all values of a run
have. -/
theorem forall_values_of_run (ht : grammar.tables = .ok t) {P : Value → Prop}
    (htoken : ∀ token, P ⟨.token, token⟩)
    (hreduce : ∀ r ∈ all, ∀ args, args.map Sigma.fst = r.rhs.map Sym.shape → (∀ v ∈ args, P v) →
      ∀ line last e, reduction config origin r line args last = .ok e → P e.value)
    {supply : Supply} (h : Run t (semantics config origin) { supply, memory := 0 } ms c) :
    ∀ v ∈ c.values, P v := by
  induction h with
  | refl => exact nofun
  | @tail _ c c' hrun hs ih =>
    obtain ⟨ts, hts⟩ := Parsing.of_run grammar_numbered.built.wellFormed
      grammar_numbered.unreserved ht hrun
    rcases Configuration.step_eq_more hs with ⟨q, _, _, rfl⟩ | ⟨i, hmove, hred⟩
    · exact List.forall_mem_cons.mpr ⟨htoken _, ih⟩
    · obtain ⟨r, hrule, hargs⟩ := args_shaped ht hts (Configuration.reduces_of_move hmove)
      -- A look at the next token does not change the stack.
      have hkeep {c₁ : Configuration Value Goal Nat} (hvalues : c₁.values = c.values)
          (hred : c₁.reduce t (semantics config origin) i = .more c') : ∀ v ∈ c'.values, P v := by
        obtain ⟨e, q, hvalue, _, rfl⟩ := Configuration.reduce_eq_more hred
        rw [valueOf_eq_reduction hrule, Configuration.args, hvalues] at hvalue
        refine List.forall_mem_cons.mpr ⟨?_, fun v hv => ih v ?_⟩
        · refine hreduce r (ofProduction_mem hrule) _ hargs (fun v hv => ih v ?_) _ _ _ hvalue
          exact List.mem_of_mem_take (List.mem_reverse.mp hv)
        · rw [← hvalues]
          exact List.mem_of_mem_drop hv
      rcases hred with ⟨_, hred⟩ | ⟨_, hred⟩
      · exact hkeep rfl hred
      · exact hkeep Configuration.look_values hred

/-- All nodes on the stack of a parse are whole. -/
theorem whole_of_run (ht : grammar.tables = .ok t) {supply : Supply}
    (h : Run t (semantics config origin) { supply, memory := 0 } ms c) :
    ∀ v ∈ c.values, ∀ n ∈ v.parts, n.Whole := by
  refine forall_values_of_run ht (fun _ => nofun) ?_ h
  intro r hr args hargs hwhole line last e hvalue
  obtain ⟨b, hb, hupholds⟩ := exists_applyTo_of (all_uphold r hr) hargs
  rw [reduction, hb] at hvalue
  obtain ⟨⟨v, last'⟩, hrun, heq⟩ := bind_eq_ok.mp hvalue
  cases heq
  refine hupholds (fun n hn => ?_) _ _ _ _ hrun
  obtain ⟨w, hw, hn⟩ := List.mem_flatMap.mp hn
  exact hwhole w hw n hn

end Runs

/-- Every source is rejected, or it is accepted with a tree in which the walk meets all nodes but
these: the types of declared composites, and the nodes at and below what such a type holds besides
the members, the identifier of an interface and the variant part of a record. All these are nodes
that can be reached through fields, and the outline of the tree shows exactly the nodes that can. -/
theorem walk_misses_rest (config : Config) (source : Text) (origin : Nat) :
    (∃ place message,
      (parse config source origin).result = .error (.rejection place message)) ∨
    ∃ goal, (parse config source origin).result = .ok goal ∧
      (∀ o, (goal.outline Node.nothing).Shows o ↔
        ∃ x, (Node.goal goal).Reaches x ∧ x.outline = o) ∧
      ∀ x, (Node.goal goal).Reaches x ↔ x ∈ goal.nodes ∨
        ∃ d, .decl (.composite d) ∈ goal.nodes ∧
          (x = .type d.type ∨ ∃ r ∈ d.rest, r.Reaches x) := by
  refine (rejected_or_placed config source origin).imp_right ?_
  rintro ⟨goal, t, ms, pos, hresult, hplaced⟩
  obtain ⟨c, hrun, hacc, hgoal⟩ := hplaced.run
  obtain ⟨g, rest, hg, htop⟩ := top_of_accepting hplaced.tables hrun hacc
  obtain rfl : goal = g := Option.some.inj (hgoal.symm.trans hg)
  have hwhole : (Node.goal goal).Whole :=
    whole_of_run hplaced.tables hrun ⟨.goal, goal⟩ (htop ▸ List.mem_cons_self) _ List.mem_cons_self
  exact ⟨goal, hresult, fun o => Node.shows_iff (.goal goal) o, fun x => Node.reaches_iff hwhole⟩

/-- The variant part in `record case Integer of 0: (A: Byte) end`. -/
def someVariant : VariantPart where
  info := ⟨6, 1, 0⟩
  tag := ∅
  tagType := .named ⟨⟨1, 1, 0⟩, "Integer"⟩
  cases := [
    { info := ⟨4, 1, 0⟩, labels := [.int ⟨2, 1, 0⟩ 0 "0"],
      fields := [⟨⟨5, 1, 0⟩, "A", some (.named ⟨⟨3, 1, 0⟩, "Byte"⟩), none, ∅, .field, .default⟩] }]

/-- A program that declares nothing but a type with members. -/
def declaring (d : CompositeDecl) : Goal :=
  .program { info := ⟨12, 1, 0⟩, name := "P",
             block := ⟨⟨11, 1, 0⟩, [.composite d], .compound ⟨10, 1, 0⟩ [.empty ⟨9, 1, 0⟩]⟩ }

/-- In `type R = record case Integer of 0: (A: Byte) end` the label and the field of the variant
part can be reached through the type of the declaration, but the walk meets neither. -/
theorem walk_misses_variant : ∃ r ∈ all, ∃ e d,
    reduction {} 0 r 1 [⟨.token, ⟨.ident, 1, ⟨1, 17⟩, "R"⟩⟩, ⟨.token, ⟨.equal, 1, ⟨1, 19⟩, "="⟩⟩,
      ⟨.type, .record ⟨7, 1, 0⟩ false [] (some someVariant)⟩,
      ⟨.token, ⟨.semicolon, 1, ⟨1, 66⟩, ";"⟩⟩] 7 = .ok e ∧ e.value = ⟨.decl, .composite d⟩ ∧
    ∀ x ∈ (someVariant.cases.flatMap fun c => (Node.variantCase c).children),
      (Node.goal (declaring d)).Reaches x ∧ x ∉ (declaring d).nodes := by
  have hmem : constantSections ⊆ all := fun r hr => by simp [all, sections, hr]
  refine ⟨_, hmem (List.mem_of_getElem? (i := 15) rfl), _, _, rfl, rfl, fun x hx => ⟨?_, ?_⟩⟩
  · obtain ⟨c, hc, hx⟩ := List.mem_flatMap.mp hx
    have hcase : (Node.variantPart someVariant).Reaches x :=
      .head (List.mem_cons_of_mem _ (List.mem_map_of_mem hc)) (.single hx)
    -- The way leads through the block, the declaration and its type.
    exact .head List.mem_cons_self (.head List.mem_cons_self (.head List.mem_cons_self
      (.head List.mem_cons_self hcase)))
  · have hform : (∃ e, x = .expr e) ∨ ∃ d, x = .decl (.var d) := by
      obtain ⟨c, _, hx⟩ := List.mem_flatMap.mp hx
      rcases List.mem_append.mp hx with hx | hx <;> obtain ⟨y, _, rfl⟩ := List.mem_map.mp hx
      · exact .inl ⟨y, rfl⟩
      · exact .inr ⟨y, rfl⟩
    -- The walk meets the program, its block, the declaration and the statements.
    rcases hform with ⟨e, rfl⟩ | ⟨d, rfl⟩ <;>
      simp [declaring, Goal.nodes, Block.nodes, optBlockNodes, declsNodes, membersNodes, Stmt.nodes,
        stmtsNodes]

end Rule

end ObjectPascal
