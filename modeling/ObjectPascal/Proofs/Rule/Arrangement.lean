import ObjectPascal.Proofs.Rule.Placement

/-!
Every rule of the language puts what it builds in order. The nodes that a rule makes where its
stretch begins are on the line of a token there, except in two rules that find nothing but a name,
and an if statement without an else part is made by a single rule.
-/

namespace ObjectPascal.Rule

open Scene (Held Spans Arranged)

/-- The first part of the rule that has a line is a token of the stretch, or a phrase that has text
and the line of a token there. -/
def anchored : List Sym → Bool
  | [] => false
  | .token _ :: _ => true
  | .phrase p :: rest =>
    match p.shape with
    | .token | .expr => true
    | .text | .list _ | .opt (.list _) => anchored rest
    | _ => p == .blockBody

/-- The rules that find no line although they find text: it is that of a name. -/
def loose (lhs : Phrase) (rhs : List Sym) : Bool :=
  (lhs == .namedType || lhs == .usesItem) && rhs == [.phrase .qualident]

/-- The right-hand side of the if statement without an else part. -/
def bareIf : List Sym := [.token .IF, .phrase .expr, .token .THEN, .phrase .stmt]

/-- The nodes that a rule may put where its stretch begins. -/
def admits (lhs : Phrase) (rhs : List Sym) (n : Node) : Bool :=
  (anchored rhs || (lhs == .stmt && rhs == [] && n.void) || (loose lhs rhs && n.slack)) &&
    (!n.bare || (lhs == .stmt && rhs == bareIf))

/-- Among arguments that are arranged, a builder gives a value that is. -/
def Arranging {α : Type} (admits : Node → Bool) (ps : List Piece) (b : Build α)
    (qs : α → List Piece) : Prop :=
  ∀ σ : Scene, σ.admits = admits →
    Goes σ (fun m => σ.Arranged m σ.lo ps σ.hi) b fun v m => σ.Arranged m σ.lo (qs v) σ.hi

/-- Among arguments that are arranged, a rule gives a value that is. -/
def Arranges (r : Rule) : Prop :=
  AlwaysOf (fun vs b => Arranging (admits r.lhs r.rhs) (vs.flatMap Value.pieces) b fun v =>
    Value.pieces ⟨r.lhs.shape, v⟩) r.rhs [] r.builder

/-- Among arranged pieces with the nodes `fs`, a builder gives a value with arranged nodes. -/
def Nodal {α : Type} (admits : Node → Bool) (ps : List Piece) (fs : List Node) (b : Build α)
    (ns : α → List Node) : Prop :=
  fs = nodesOf ps → Arranging admits ps b fun v => (ns v).map .node

/-- Among arguments that are arranged, a rule gives a value with arranged nodes. -/
def ArrangesNodes (r : Rule) : Prop :=
  AlwaysOf (fun vs b => Nodal (admits r.lhs r.rhs) (vs.flatMap Value.pieces)
    (vs.flatMap Value.parts) b fun v => Value.parts ⟨r.lhs.shape, v⟩) r.rhs [] r.builder

section Arranging

variable {α : Type} {admits : Node → Bool} {ps : List Piece} {qs : α → List Piece}

theorem arranging_give {a : α} (h : (qs a).Sublist ps) : Arranging admits ps (give a) qs :=
  fun _ _ => Goes.pure fun _ hm => hm.sublist h

theorem Arranging.ite {c : Prop} [Decidable c] {b b' : Build α} (hb : Arranging admits ps b qs)
    (hb' : Arranging admits ps b' qs) : Arranging admits ps (if c then b else b') qs :=
  fun σ hσ => .ite (hb σ hσ) (hb' σ hσ)

theorem Arranging.reject (line : Nat) (message : Text) :
    Arranging admits ps (Rule.reject line message) qs := fun _ _ => .reject line message

theorem Arranging.require (f : Feature) (line : Nat) (what : Text) {b : Build α}
    (hb : Arranging admits ps b qs) :
    Arranging admits ps (do Rule.require f line what; b) qs := fun σ hσ =>
  (Goes.require f line what).bind fun _ => hb σ hσ

/-- A heading is put at the word for its kind. -/
theorem heading_arranging (classMethod : Bool) (word : Token) (name : RoutineName)
    (params : Option (List ParamDecl)) (result : Option TypeExpr)
    (hsub : (.word (nameWord word) :: (((params.getD []).map fun p => Node.decl (.param p)) ++
      result.toList.map Node.type).map Piece.node).Sublist ps) :
    Arranging admits ps (heading classMethod word name params result)
      fun h => Shape.pieces .routineHead h := by
  have hgive : Arranging admits ps (give
      { kind := routineKindOf word, classMethod, name, params, result, line := word.line })
      fun h => Shape.pieces .routineHead h := fun _ _ =>
    Goes.pure fun _ hm => (hm.sublist hsub).anonymous
  exact fun σ hσ => .ite ((Goes.reject _ _).bind fun _ => hgive σ hσ) (hgive σ hσ)

theorem strictly_arranging (word : Token) (v : Visibility) :
    Arranging admits ps (strictly word v) fun m => Shape.pieces .member m :=
  .require _ _ _ (arranging_give (List.nil_sublist ps))

end Arranging

section Nodal

variable {α : Type} {lhs : Phrase} {rhs : List Sym} {ps : List Piece} {fs : List Node}
  {ns : α → List Node}

theorem nodal_build {b : Build α} :
    Nodal (admits lhs rhs) ps fs (build b) ns ↔ Nodal (admits lhs rhs) ps fs b ns := Iff.rfl

theorem nodal_give {a : α} (h : (ns a).Sublist fs) : Nodal (admits lhs rhs) ps fs (give a) ns := by
  rintro rfl σ _
  exact Goes.pure fun m hm => hm.of_wordless h

/-- Most builders make one node over their arguments. -/
theorem Nodal.node_return {f : NodeInfo → α}
    (h : ∀ i, ∃ n, ns (f i) = [n] ∧ Seated (admits lhs rhs) i fs n) :
    Nodal (admits lhs rhs) ps fs (do return f (← node)) ns := by
  rintro rfl σ hσ
  refine (Goes.node (lasting_arranged _ _ _) σ.lo).bind fun i => Goes.pure fun m hm => ?_
  obtain ⟨⟨hm, hk⟩, hi⟩ := hm
  obtain ⟨n, hn, hseat⟩ := h i
  dsimp only
  rw [hn]
  refine seat hk hi hm ?_
  rwa [hσ]

theorem nodal_node {f : NodeInfo → α}
    (h : ∀ i, ∃ n, ns (f i) = [n] ∧ Seated (admits lhs rhs) i fs n) :
    Nodal (admits lhs rhs) ps fs (f <$> node) ns := by
  rw [map_eq_pure_bind]
  exact Nodal.node_return h

theorem nodal_alone {f : NodeInfo → α} (h : ∀ i, Alone (Seated (admits lhs rhs) i fs) (ns (f i))) :
    Nodal (admits lhs rhs) ps fs (f <$> node) ns :=
  nodal_node fun i => (h i).exists

theorem admits_of_anchored {n : Node} (ha : anchored rhs = true) (hb : n.bare = false) :
    admits lhs rhs n = true := by
  simp [admits, ha, hb]

/-- A conditional begins with its word. -/
example : anchored bareIf = true := by decide +kernel

theorem Nodal.of_goes {b : Build α} {qs : List Piece}
    (hb : ∀ σ : Scene, σ.admits = admits lhs rhs → Goes σ (fun m => σ.Arranged m σ.lo qs σ.hi) b
      fun v m => σ.Arranged m σ.lo ((ns v).map .node) σ.hi)
    (hsub : qs.Sublist ps) : Nodal (admits lhs rhs) ps fs b ns := fun _ σ hσ =>
  (hb σ hσ).mono (fun _ hm => hm.sublist hsub) fun _ _ hm => hm

end Nodal

section Helpers

variable {σ : Scene} {m : Places} {a c : Nat}

/-- Number, parts and kind of a method stay as they are when it is told its owner. -/
theorem owned_same (owner : Text) (n : Node) :
    (owned owner n).info = n.info ∧ (owned owner n).children = n.children ∧
      (owned owner n).free = n.free ∧ (owned owner n).void = n.void := by
  unfold owned
  split <;> exact ⟨rfl, rfl, rfl, rfl⟩

/-- A method that is told its owner keeps its place. -/
theorem held_owned (owner : Text) {n : Node} (h : ∀ x ∈ n.nodes, σ.Held m x) :
    ∀ x ∈ (owned owner n).nodes, σ.Held m x := by
  obtain ⟨hinfo, hchildren, hfree, _⟩ := owned_same owner n
  have hn := h n n.self_mem
  have hputs (p : Nat) (hp : σ.Puts n p) : σ.Puts (owned owner n) p := by
    unfold owned
    split <;> exact hp
  refine Held.nodes ?_ ?_ (fun d hd => ?_) ?_
  · rw [hinfo]
    exact hn.numbered
  · rw [hinfo]
    exact hn.tells.imp (σ.owned owner n _) fun hnew => ⟨hinfo.symm ▸ hnew.1, hputs _ hnew.2⟩
  · rw [hchildren] at hd
    rw [hinfo]
    refine ⟨(hn.parts d hd).2, fun x hx => h x ?_⟩
    exact Node.mem_nodes_iff.mpr (.inr (Node.mem_below_iff.mpr ⟨d, hd, hx⟩))
  · rw [Node.InOrder, hchildren, hfree]
    exact hn.order

theorem owned_precedes {pos : Nat → Nat} (owner : Text) {y z : Node} (h : y.Precedes pos z) :
    (owned owner y).Precedes pos (owned owner z) := by
  obtain ⟨hy, _, _, hvoid⟩ := owned_same owner y
  obtain ⟨hz, _⟩ := owned_same owner z
  rw [Node.Precedes, hy, hz, hvoid]
  exact h

theorem groupDecls_goes (kind : VarKind) (visibility : Visibility) (g : VarGroup)
    (ha : σ.lo ≤ a) (hc : c ≤ σ.hi) :
    Goes σ (fun m => σ.Arranged m a (Shape.pieces .varGroup g) c) (groupDecls kind visibility g)
      fun ds m => σ.Arranged m a ((ds.map fun d => .decl (.var d)).map .node) c :=
  Goes.names
    (f := fun t info =>
      ({ info, name := t.text, type := some g.type, init := g.init, absolute := g.absolute, kind,
         visibility } : VarDecl))
    (n := fun d => .decl (.var d)) (fun _ _ => rfl) (fun _ _ => rfl) (fun _ _ => rfl) g.names ha hc

theorem groups_goes (kind : VarKind) (visibility : Visibility) (gs : List VarGroup)
    (ha : σ.lo ≤ a) (hc : c ≤ σ.hi) :
    Goes σ (fun m => σ.Arranged m a (gs.flatMap (Shape.pieces .varGroup)) c)
      (gs.mapM (groupDecls kind visibility)) fun dss m =>
      σ.Arranged m a ((dss.flatten.map fun d => .decl (.var d)).map .node) c := by
  refine (Goes.mapM (fun g _ _ ha hc => groupDecls_goes kind visibility g ha hc) gs ha hc).mono
    (fun _ hm => hm) fun dss m hm => ?_
  rwa [List.map_flatten, List.map_flatten, List.map_map, ← List.flatMap_def]

theorem variableSection_goes (kind : VarKind) (gs : List VarGroup) (ha : σ.lo ≤ a)
    (hc : c ≤ σ.hi) :
    Goes σ (fun m => σ.Arranged m a (gs.flatMap (Shape.pieces .varGroup)) c)
      (variableSection kind gs) fun ds m => σ.Arranged m a ((ds.map .decl).map .node) c := by
  refine (groups_goes kind .default gs ha hc).bind fun dss => Goes.pure fun m hm => ?_
  have hmap : (dss.flatten.map Decl.var).map Node.decl = dss.flatten.map fun d => .decl (.var d) :=
    List.map_map
  rwa [hmap]

theorem labels_go (ts : List Token) (ha : σ.lo ≤ a) (hc : c ≤ σ.hi) :
    Goes σ (fun m => σ.Arranged m a ((ts.map nameWord).map .word) c)
      (ts.mapM fun t => do return Decl.label { info := ← nodeAt t.line, name := t.text })
      fun ds m => σ.Arranged m a ((ds.map .decl).map .node) c := by
  refine (Goes.names (l := []) (f := fun t info => Decl.label { info, name := t.text })
    (n := .decl) (fun _ _ => rfl) (fun _ _ => rfl) (fun _ _ => rfl) ts ha hc).mono
    (fun m hm => ?_) fun _ _ hm => hm
  rwa [List.map_nil, List.append_nil]

theorem parameters_go (kind : ParamKind) (names : List Token) (type : Option TypeExpr)
    (default : Option Expr) (ha : σ.lo ≤ a) (hc : c ≤ σ.hi) :
    Goes σ (fun m => σ.Arranged m a ((names.map nameWord).map .word ++
        (type.toList.map Node.type ++ default.toList.map Node.expr).map .node) c)
      (parameters kind names type default)
      fun ps m => σ.Arranged m a ((ps.map fun p => Node.decl (.param p)).map .node) c := by
  have hall := Goes.names (σ := σ)
    (l := type.toList.map Node.type ++ default.toList.map Node.expr)
    (f := fun t info => ({ info, name := t.text, kind, type, default } : ParamDecl))
    (n := fun p => .decl (.param p)) (fun _ _ => rfl) (fun _ _ => rfl) (fun _ _ => rfl) names ha hc
  exact Goes.ite ((Goes.reject _ _).bind fun _ => hall) hall

/-- A routine is put at the word that begins it, over parts behind the word. -/
theorem routine_goes (h : RoutineHead) (ds : List Directive) (v : Visibility)
    {g : CallableDecl → CallableDecl} {l : List Piece} (hinfo : ∀ d, (g d).info = d.info)
    (hsub : ∀ i, (Decl.callable (g (routineOf h ds v i))).children.Sublist (nodesOf l))
    (ha : σ.lo ≤ a) (hc : c ≤ σ.hi) :
    Goes σ (fun m => σ.Arranged m a (.word ⟨h.line, none⟩ :: l) c)
      (do return g (← callableOf h ds v)) fun d m =>
      σ.Arranged m a [.node (.decl (.callable d))] c := by
  refine Goes.word (w := ⟨h.line, none⟩) (f := fun i => g (routineOf h ds v i))
    (n := fun d => .decl (.callable d)) (s := none) (fun i => hinfo _) (fun i => ?_)
    (fun _ => id) (fun i => .of_sublist (hsub i)) ha hc
  rw [wordOf, hinfo]
  rfl

/-- The property of a heading with a number, before its specifiers are entered. -/
def propertyOf (name : Token) (face : Option PropertyFace) (isDefault : Bool) (v : Visibility)
    (i : NodeInfo) : PropertyDecl :=
  { info := i, name := name.text, params := (face.map (·.params)).getD [],
    type := face.map (·.type), defaultArray := isDefault, visibility := v }

/-- The direct parts of a property are those of its heading and, with their order lost, those of its
specifiers that are not replaced. -/
theorem property_takesFrom (name : Token) (face : Option PropertyFace) (specs : List PropertySpec)
    (isDefault : Bool) (v : Visibility) (i : NodeInfo) :
    (Node.decl (.property (specs.foldl specify (propertyOf name face isDefault v i)))).TakesFrom
      (face.toList.flatMap Shape.parts.faceParts ++ (specs.filterMap specExpr?).map .expr) := by
  generalize hd : propertyOf name face isDefault v i = d
  obtain ⟨_, hparams, htype⟩ := specs_same specs d
  have hface : (d.params.map fun p => Node.decl (.param p)) ++ d.type.toList.map .type =
      face.toList.flatMap Shape.parts.faceParts := by
    subst hd
    cases face <;> simp [Shape.parts.faceParts, propertyOf]
  refine ⟨_, _, _, (specExprs (specs.foldl specify d)).map .expr, rfl, ?_, List.Sublist.refl _,
    fun y hy => ⟨?_, hy⟩⟩
  · simp only [Node.children, Decl.children, hparams, htype, hface, specExprs, List.append_assoc]
  · have hnone : specExprs d = [] := hd ▸ rfl
    have hsub := specs_subperm specs d
    rw [hnone, List.append_nil] at hsub
    exact List.map_subset _ hsub.subset hy

/-- A property is put at the word that begins it. -/
theorem property_goes (name : Token) (face : Option PropertyFace) (specs : List PropertySpec)
    (isDefault : Bool) (line : Nat) (v : Visibility) (ha : σ.lo ≤ a) (hc : c ≤ σ.hi) :
    Goes σ (fun m => σ.Arranged m a
        (Shape.pieces .member (.property name face specs isDefault line)) c)
      (do return specs.foldl specify (propertyOf name face isDefault v (← nodeAt line)))
      fun d m => σ.Arranged m a [.node (.decl (.property d))] c := by
  have hparts : nodesOf ((Shape.parts.memberParts
      (.property name face specs isDefault line)).map .node) =
      face.toList.flatMap Shape.parts.faceParts ++ (specs.filterMap specExpr?).map .expr := by
    rw [nodesOf_nodes, Shape.parts.memberParts, filterMap_map]
  refine Goes.word (w := ⟨line, none⟩) (s := none) (n := fun d => .decl (.property d))
    (f := fun i => specs.foldl specify (propertyOf name face isDefault v i))
    (l := (Shape.parts.memberParts (.property name face specs isDefault line)).map .node)
    (fun i => (specs_same specs _).1) (fun i => ?_) (fun _ => id) (fun i => ?_) ha hc
  · rw [wordOf, (specs_same specs _).1]
    rfl
  · rw [hparts]
    exact property_takesFrom name face specs isDefault v i

theorem addMember_goes (l : MemberList) (p : PendingMember) (ha : σ.lo ≤ a) (hc : c ≤ σ.hi) :
    Goes σ (fun m => σ.Arranged m a (Shape.pieces .members l ++ Shape.pieces .member p) c)
      (addMember l p) fun l m => σ.Arranged m a (Shape.pieces .members l) c := by
  -- The new member is put behind the others.
  have hsnoc (ms : List Member) (v : Visibility) : Shape.pieces .members ⟨l.items ++ ms, v⟩ =
      Shape.pieces .members l ++ (ms.map fun x => Node.decl x.decl).map .node := by
    change ((l.items ++ ms).map fun x => Node.decl x.decl).map Piece.node = _
    rw [List.map_append, List.map_append]
    rfl
  have hbehind {α : Type} {b : Build α} {g : α → List Node} {k : α → List Member}
      (hg : ∀ x, (k x).map (fun x => Node.decl x.decl) = g x)
      (hb : ∀ a c, σ.lo ≤ a → c ≤ σ.hi → Goes σ (fun m => σ.Arranged m a (Shape.pieces .member p) c)
        b fun x m => σ.Arranged m a ((g x).map .node) c) :
      Goes σ (fun m => σ.Arranged m a (Shape.pieces .members l ++ Shape.pieces .member p) c)
        (do return { l with items := l.items ++ k (← b) })
        fun l m => σ.Arranged m a (Shape.pieces .members l) c := by
    have hall := Goes.within hb (Shape.pieces .members l) [] ha hc
    simp only [List.append_nil] at hall
    refine hall.bind fun x => Goes.pure fun m hm => ?_
    rw [hsnoc, hg]
    exact hm
  cases p with
  | visibility v =>
    refine Goes.pure fun m hm => ?_
    have hsub : (Shape.pieces .members l).Sublist
        (Shape.pieces .members l ++ Shape.pieces .member (.visibility v)) :=
      List.sublist_append_left _ _
    exact hm.sublist hsub
  | fields g =>
    exact hbehind (fun ds => List.map_map) fun _ _ ha hc =>
      groupDecls_goes .field l.visibility g ha hc
  | method h ds =>
    refine hbehind (k := fun d => [.callable d]) (g := fun d => [.decl (.callable d)])
      (fun d => rfl) fun a c ha hc => ?_
    have hroutine := routine_goes (σ := σ) h ds l.visibility (g := id)
      (l := (Shape.parts.memberParts (.method h ds)).map .node) (fun _ => rfl) (fun i => ?_) ha hc
    · simp only [id_eq, bind_pure] at hroutine
      exact hroutine
    · rw [nodesOf_nodes]
      simp [Decl.children, routineOf, CallableDecl.paramList, CallableDecl.clauseExprs,
        filterMap_map, Shape.parts.memberParts, Shape.parts.headParts]
  | property name face specs isDefault line =>
    have hall := hbehind (k := fun d => [.property d]) (g := fun d => [.decl (.property d)])
      (fun d => rfl) fun _ _ ha hc =>
        property_goes name face specs isDefault line l.visibility ha hc
    rw [bind_assoc] at hall
    simp only [pure_bind] at hall
    exact hall

/-- A named type is put at its name. The members of a type with members stand below the name. -/
theorem declareType_goes (name : Token) (t : TypeExpr) (ha : σ.lo ≤ a) (hc : c ≤ σ.hi) :
    Goes σ (fun m => σ.Arranged m a [.word (nameWord name), .node (.type t)] c)
      (declareType name t) fun d m => σ.Arranged m a [.node (.decl d)] c := by
  intro site v last m h hline hfirst hm
  cases hm with
  | @word _ p _ _ u _ hp hu hw hm =>
    have hall : Goes σ (fun m => σ.Arranged m (p + 1) [.node (.type t)] c) (declareType name t)
        fun d m => σ.Arranged m a [.node (.decl d)] c := by
      refine (Goes.nodeAt (lasting_arranged _ _ _) name.line p).bind fun i =>
        Goes.pure fun m hm => ?_
      obtain ⟨⟨hm, hk⟩, hi⟩ := hm
      have hpc : p < c := hm.le
      obtain ⟨hle, hheld⟩ := hm.nodes.1 (.type t) List.mem_cons_self
      have ht := hheld _ (Node.self_mem _)
      have hseat (d : Decl) (hinfo : d.info = i)
          (hword : wordOf (.decl d) = some ⟨i.line, some name.text⟩)
          (hparts : ∀ x ∈ d.children, p ≤ m.pos x.info.id ∧ ∀ y ∈ x.nodes, σ.Held m y)
          (horder : d.children.Pairwise (Node.Precedes m.pos)) :
          σ.Arranged m a [.node (.decl d)] c := by
        obtain ⟨hspan, htells⟩ := spans_of_word hk hi (Nat.le_trans ha hp)
          (Nat.lt_of_lt_of_le hpc hc) hu hw (n := .decl d) hinfo hword fun _ h => h
        refine .node (hspan.mono hp hpc) (Held.nodes ?_ htells (fun x hx => ?_) (horder.imp .inl))
          (.nil (Nat.le_refl c))
        · rw [Node.info, hinfo]
          exact hk.numbered
        · rw [Node.info, hinfo, hk.pos]
          exact hparts x hx
      have hordered : t.children.Pairwise (Node.Precedes m.pos) :=
        ht.order.imp fun h => h.resolve_right fun hfree => nomatch hfree.1
      -- Members are parts of the type, told whose they are.
      have hcomposite (kind : CompositeKind) (heritage : List Text) (ms : List Member)
          (type : TypeExpr) (hms : (ms.map fun x => Node.decl x.decl).Sublist t.children) :
          σ.Arranged m a [.node (.decl (.composite
            { info := i, name := name.text, kind, heritage, members := ms.map (ownedBy name.text),
              type }))] c := by
        have hchildren : ((ms.map (ownedBy name.text)).map fun x => Node.decl x.decl) =
            (ms.map fun x => Node.decl x.decl).map (owned name.text) := by
          rw [List.map_map, List.map_map]
          exact List.map_congr_left fun x _ => decl_ownedBy name.text x
        refine hseat _ rfl rfl (fun x hx => ?_) ?_
        · rw [Decl.children, hchildren] at hx
          obtain ⟨y, hy, rfl⟩ := List.mem_map.mp hx
          have hyt : y ∈ (Node.type t).children := hms.subset hy
          rw [(owned_same name.text y).1]
          refine ⟨Nat.le_trans (Nat.le_of_succ_le hle) (ht.parts y hyt).2,
            held_owned name.text fun x hx => hheld x ?_⟩
          exact Node.mem_nodes_iff.mpr (.inr (Node.mem_below_iff.mpr ⟨y, hyt, hx⟩))
        · rw [Decl.children, hchildren, List.pairwise_map]
          exact (hordered.sublist hms).imp (owned_precedes name.text)
      split
      · exact hcomposite _ _ _ _ (List.Sublist.refl _)
      · exact hcomposite _ _ _ _ (List.sublist_append_right _ _)
      · exact hcomposite _ _ _ _ (List.sublist_append_left _ _)
      · refine hseat _ rfl rfl (fun x hx => ?_) (List.pairwise_singleton _ _)
        obtain rfl := List.mem_singleton.mp hx
        exact ⟨Nat.le_of_succ_le hle, hheld⟩
    exact hall site v last m h hline hfirst hm

/-- A dotted name is put where the stretch begins. -/
theorem dotted_goes {P : Places → Prop} (hP : Lasting P) (name : Text)
    (hadmits : ∀ n : Node, n.bare = false → σ.admits n = true) :
    Goes σ P (dotted name) fun e m => P m ∧ σ.Leads m (.expr e) := by
  have hfirst (t : Text) :
      Goes σ P (do return .name (← node) t) fun e m => P m ∧ σ.Leads m (.expr e) :=
    (Goes.node hP σ.lo).bind fun i => Goes.pure fun m ⟨⟨hm, hk⟩, hline⟩ =>
      ⟨hm, hk.pos, leaf_held hk hline rfl rfl (hadmits _ rfl) rfl⟩
  have hfield (f : Text) (e : Expr) : Goes σ (fun m => P m ∧ σ.Leads m (.expr e))
      (do return .field (← node) e f) fun e m => P m ∧ σ.Leads m (.expr e) := by
    have hlasting : Lasting fun m => P m ∧ σ.Leads m (.expr e) := fun m m' hm h =>
      ⟨hP m m' hm h.1, h.2.extend hm⟩
    refine (Goes.node hlasting σ.lo).bind fun i => Goes.pure fun m hm => ?_
    obtain ⟨⟨⟨hp, hlead⟩, hk⟩, hline⟩ := hm
    refine ⟨hp, hk.pos, Held.nodes hk.numbered
      (tells_of_kept hk hline rfl rfl (hadmits (.expr (.field i e f)) rfl)) (fun x hx => ?_)
      (List.pairwise_singleton _ _)⟩
    obtain rfl := List.mem_singleton.mp hx
    exact ⟨Nat.le_of_eq (hk.pos.trans hlead.pos.symm), hlead.held⟩
  unfold dotted
  split
  · exact hfirst name
  · rename_i first fields _
    have hfields (fields : List Text) (e : Expr) : Goes σ (fun m => P m ∧ σ.Leads m (.expr e))
        (fields.foldlM (fun e f => do return .field (← node) e f) e)
        fun e m => P m ∧ σ.Leads m (.expr e) := by
      induction fields generalizing e with
      | nil => exact Goes.pure fun _ h => h
      | cons f fields ih =>
        rw [List.foldlM_cons]
        exact (hfield f e).bind ih
    have hall := (hfirst first).bind (hfields fields)
    rw [bind_assoc] at hall
    simp only [pure_bind] at hall
    exact hall

section Nodes

variable {α : Type} {lhs : Phrase} {rhs : List Sym} {ps : List Piece} {fs : List Node}

theorem variableSection_nodal (kind : VarKind) (gs : List VarGroup)
    (hsub : (gs.flatMap (Shape.pieces .varGroup)).Sublist ps) :
    Nodal (admits lhs rhs) ps fs (variableSection kind gs) fun ds => ds.map .decl :=
  .of_goes (fun _ _ => variableSection_goes kind gs (Nat.le_refl _) (Nat.le_refl _)) hsub

theorem labels_nodal (ts : List Token) (hsub : ((ts.map nameWord).map Piece.word).Sublist ps) :
    Nodal (admits lhs rhs) ps fs
      (ts.mapM fun t => (fun info => Decl.label { info, name := t.text }) <$> nodeAt t.line)
      fun ds => ds.map .decl := by
  simp only [map_eq_pure_bind]
  exact .of_goes (fun _ _ => labels_go ts (Nat.le_refl _) (Nat.le_refl _)) hsub

theorem parameters_nodal (kind : ParamKind) (names : List Token) (type : Option TypeExpr)
    (default : Option Expr) (hsub : ((names.map nameWord).map Piece.word ++
      (type.toList.map Node.type ++ default.toList.map Node.expr).map Piece.node).Sublist ps) :
    Nodal (admits lhs rhs) ps fs (parameters kind names type default)
      fun ps => ps.map fun p => .decl (.param p) :=
  .of_goes (fun _ _ => parameters_go kind names type default (Nat.le_refl _) (Nat.le_refl _)) hsub

theorem routine_nodal {h : RoutineHead} {ds : List Directive} {v : Visibility}
    {g : CallableDecl → CallableDecl} (hinfo : ∀ d, (g d).info = d.info)
    (hsub : ∀ i, (Decl.callable (g (routineOf h ds v i))).children.Sublist fs) :
    Nodal (admits lhs rhs) (.word ⟨h.line, none⟩ :: ps) fs (g <$> callableOf h ds v)
      fun d => [.decl (.callable d)] := by
  intro hfs σ hσ
  rw [map_eq_pure_bind]
  refine routine_goes h ds v hinfo (fun i => ?_) (Nat.le_refl _) (Nat.le_refl _)
  rw [hfs] at hsub
  exact hsub i

theorem callableOf_nodal {h : RoutineHead} {ds : List Directive} {v : Visibility}
    (hsub : ∀ i, (Decl.callable (routineOf h ds v i)).children.Sublist fs) :
    Nodal (admits lhs rhs) (.word ⟨h.line, none⟩ :: ps) fs (callableOf h ds v)
      fun d => [.decl (.callable d)] := by
  rw [← id_map (callableOf h ds v)]
  exact routine_nodal (fun _ => rfl) hsub

theorem addMember_nodal (l : MemberList) (p : PendingMember)
    (hsub : (Shape.pieces .members l ++ Shape.pieces .member p).Sublist ps) :
    Nodal (admits lhs rhs) ps fs (addMember l p) fun l => l.items.map fun m => .decl m.decl :=
  .of_goes (fun _ _ => addMember_goes l p (Nat.le_refl _) (Nat.le_refl _)) hsub

theorem declareType_nodal (name : Token) (t : TypeExpr)
    (hsub : [.word (nameWord name), .node (.type t)].Sublist ps) :
    Nodal (admits lhs rhs) ps fs (declareType name t) fun d => [.decl d] :=
  .of_goes (fun _ _ => declareType_goes name t (Nat.le_refl _) (Nat.le_refl _)) hsub

section Free

variable (ha : ∀ n : Node, n.bare = false → admits lhs rhs n = true)

include ha

/-- A builder that makes a node over another new one and over what stands behind a word. -/
theorem nodal_pair {f : NodeInfo → NodeInfo → α} {n : α → Node} {d : NodeInfo → Node} {w : Word}
    {l : List Node}
    (hn : ∀ i j, (n (f i j)).info = i ∧ wordOf (n (f i j)) = none ∧ (n (f i j)).bare = false)
    (hd : ∀ j, (d j).info = j ∧ wordOf (d j) = none ∧ (d j).bare = false ∧ (d j).children = [])
    (hchildren : ∀ i j, (n (f i j)).children = d j :: l)
    (hsub : (l.map Piece.node).Sublist ps) :
    Nodal (admits lhs rhs) (.word w :: ps) fs (do let i ← node; return f i (← node))
      fun v => [n v] := by
  refine Nodal.of_goes (fun σ hσ => ?_) (hsub.cons_cons (.word w))
  have hlasting (i : NodeInfo) : Lasting fun m =>
      (σ.Arranged m σ.lo (.word w :: l.map .node) σ.hi ∧ σ.Kept m i σ.lo) ∧ i.line = σ.line :=
    fun _ _ hm h => ⟨⟨h.1.1.extend hm, h.1.2.extend hm⟩, h.2⟩
  refine (Goes.node (lasting_arranged _ _ _) σ.lo).bind fun i =>
    (Goes.node (hlasting i) σ.lo).bind fun j => Goes.pure fun m hm => ?_
  obtain ⟨⟨⟨⟨hm, hi⟩, hline⟩, hj⟩, hline'⟩ := hm
  obtain ⟨hinfo, hword, hbare⟩ := hn i j
  obtain ⟨hinfo', hword', hbare', hleaf⟩ := hd j
  have hadmits {x : Node} (hx : x.bare = false) : σ.admits x = true := by
    rw [hσ]
    exact ha _ hx
  refine seat_cons hi hline hm hinfo hword (hadmits hbare) ⟨?_,
    leaf_held hj hline' hinfo' hword' (hadmits hbare') hleaf⟩ (hchildren i j) ?_
  · rw [hinfo']
    exact hj.pos
  · rw [nodesOf_nodes]

theorem handlerOf_nodal {var name : Text} {body : Stmt} {w : Word}
    (hsub : [Piece.node (.stmt body)].Sublist ps) :
    Nodal (admits lhs rhs) (.word w :: ps) fs (handlerOf var name body) fun h => [.handler h] :=
  nodal_pair ha (n := .handler) (l := [.stmt body])
    (d := fun j => .type (.named { info := j, name })) (fun _ _ => ⟨rfl, rfl, rfl⟩)
    (fun _ => ⟨rfl, rfl, rfl, rfl⟩) (fun _ _ => rfl) hsub

theorem stringCall_nodal {e : Expr} {w : Word} (hsub : [Piece.node (.expr e)].Sublist ps) :
    Nodal (admits lhs rhs) (.word w :: ps) fs (stringCall e) fun e => [.expr e] :=
  nodal_pair (n := .expr) (l := [.expr e]) (d := fun j => .expr (.ident j "string")) ha
    (fun _ _ => ⟨rfl, rfl, rfl⟩) (fun _ => ⟨rfl, rfl, rfl, rfl⟩) (fun _ _ => rfl) hsub

theorem inherited_nodal {w : Word} :
    Nodal (admits lhs rhs) (.word w :: ps) fs
      (do let info ← node; (fun i => Stmt.call info (.inherited i ∅ none)) <$> node)
      fun s => [.stmt s] := by
  simp only [map_eq_pure_bind]
  exact nodal_pair (n := .stmt) (d := fun j => .expr (.inherited j ∅ none)) (l := []) ha
    (fun _ _ => ⟨rfl, rfl, rfl⟩) (fun _ => ⟨rfl, rfl, rfl, rfl⟩) (fun _ _ => rfl)
    (List.nil_sublist ps)

theorem integerOf_nodal (t : Token) :
    Nodal (admits lhs rhs) ps fs (integerOf t) fun e => [.expr e] := by
  unfold integerOf
  split
  · exact Nodal.node_return fun i => ⟨_, rfl, rfl, rfl, ha _ rfl, .inl (List.nil_sublist _)⟩
  · exact fun _ => .reject _ _

theorem realOf_nodal (t : Token) :
    Nodal (admits lhs rhs) ps fs (realOf t) fun e => [.expr e] := by
  unfold realOf
  split
  · exact Nodal.node_return fun i => ⟨_, rfl, rfl, rfl, ha _ rfl, .inl (List.nil_sublist _)⟩
  · exact fun _ => .reject _ _

theorem stringOf_nodal (t : Token) :
    Nodal (admits lhs rhs) ps fs (stringOf t) fun e => [.expr e] := by
  unfold stringOf
  split <;> exact Nodal.node_return fun i =>
    ⟨_, rfl, rfl, rfl, ha _ rfl, .inl (List.nil_sublist _)⟩

theorem callOf_nodal (e : Expr) (args : List Expr)
    (hsub : (.expr e :: args.map .expr).Sublist fs) :
    Nodal (admits lhs rhs) ps fs (callOf e args) fun e => [.expr e] := by
  unfold callOf
  split
  · exact Nodal.node_return fun i => ⟨_, rfl, rfl, rfl, ha _ rfl,
      .inl ((List.sublist_cons_self _ _).trans hsub)⟩
  · exact Nodal.node_return fun i => ⟨_, rfl, rfl, rfl, ha _ rfl, .inl hsub⟩

theorem recordOf_nodal (packed : Bool) (l : Option MemberList) (v : Option VariantPart)
    (hsub : (((l.map (·.items)).getD []).map (fun m => Node.decl m.decl) ++
      v.toList.map Node.variantPart).Sublist fs) :
    Nodal (admits lhs rhs) ps fs (recordOf packed l v) fun t => [.type t] := by
  intro hfs σ hσ
  have hnode : Nodal (admits lhs rhs) ps fs
      (do return TypeExpr.record (← node) packed ((l.map (·.items)).getD []) v)
      fun t => [.type t] := Nodal.node_return fun i =>
    ⟨_, rfl, rfl, rfl, ha _ rfl, .inl hsub⟩
  refine (Goes.forIn (fun m _ => ?_) _ _).bind fun _ => hnode hfs σ hσ
  cases m with
  | var d => exact Goes.pure fun _ hm => hm
  | _ => exact (Goes.require _ _ _).bind fun _ => Goes.pure fun _ hm => hm

theorem variantCaseOf_nodal (labels : List Expr) (gs : List VarGroup)
    (hsub : ((labels.map .expr).map Piece.node ++ gs.flatMap (Shape.pieces .varGroup)).Sublist ps) :
    Nodal (admits lhs rhs) ps fs (variantCaseOf labels gs) fun c => [.variantCase c] := by
  refine Nodal.of_goes (fun σ hσ => ?_) hsub
  refine (Goes.node (lasting_arranged _ _ _) σ.lo).bind fun i => ?_
  have hlasting : Lasting fun m => σ.Kept m i σ.lo ∧ i.line = σ.line :=
    fun _ _ hm h => ⟨h.1.extend hm, h.2⟩
  have hfields := (Goes.within (fun _ _ ha hc => groups_goes .field .default gs ha hc)
    ((labels.map .expr).map .node) [] (Nat.le_refl σ.lo) (Nat.le_refl σ.hi)).beside hlasting
  simp only [List.append_nil] at hfields
  refine (hfields.mono (fun _ hm => ⟨hm.1.1, hm.1.2, hm.2⟩) fun _ _ hm => hm).bind fun dss =>
    Goes.pure fun m hm => ?_
  obtain ⟨hm, hk, hline⟩ := hm
  refine seat hk hline hm ⟨rfl, rfl, ?_, .inl ?_⟩
  · rw [hσ]
    exact ha _ rfl
  · rw [nodesOf_append, nodesOf_nodes, nodesOf_nodes]
    exact List.Sublist.refl _

/-- A low bound that is read as a dotted name is put before the high bound. -/
theorem subrange_nodal {name : Text} {high : Expr} {w : Word}
    (hsub : [Piece.node (.expr high)].Sublist ps) :
    Nodal (admits lhs rhs) (.word w :: ps) fs
      (do
        let low ← dotted name
        (fun i => TypeExpr.subrange i low high) <$> node) fun t => [.type t] := by
  simp only [map_eq_pure_bind]
  refine Nodal.of_goes (fun σ hσ => ?_) (hsub.cons_cons (.word w))
  have hadmits (n : Node) (hn : n.bare = false) : σ.admits n = true := by
    rw [hσ]
    exact ha _ hn
  refine (dotted_goes (lasting_arranged _ _ _) name hadmits).bind fun low => ?_
  refine (Goes.node (fun m m' hm h => ⟨h.1.extend hm, h.2.extend hm⟩) σ.lo).bind fun i =>
    Goes.pure fun m hm => ?_
  obtain ⟨⟨⟨hm, hlead⟩, hk⟩, hline⟩ := hm
  exact seat_cons (n := .type (.subrange i low high)) hk hline hm rfl rfl (hadmits _ rfl) hlead rfl
    (List.Sublist.refl [Node.expr high])

end Free

end Nodes

end Helpers

end ObjectPascal.Rule
