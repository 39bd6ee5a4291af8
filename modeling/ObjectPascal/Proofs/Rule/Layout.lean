import ObjectPascal.Parse
import ObjectPascal.Proofs.Effect
import ObjectPascal.Proofs.Syntax.Walk

/-!
Where builders put the nodes of a tree. A value on the stack of a parse carries nodes, whatever
else it is made of. A builder numbers new nodes and puts them above the nodes that its arguments
carry, so the nodes of what it builds stand side by side if those of its arguments do. This holds
for every rule of the language and all values that its right-hand side can have.
-/

namespace ObjectPascal.Rule

open Node (seed Laid Carries Yields Grouped)

/-- The expression in a specifier. -/
def specExpr? : PropertySpec → Option Expr
  | .index e | .default e | .stored e => some e
  | .read _ | .write _ | .noDefault | .implements _ => none

/-- The nodes that a value carries, each with all nodes below it. -/
def Shape.parts : (s : Shape) → s.Val → List Node
  | token, _ | text, _ | mark, _ | routineName, _ => []
  | expr, e => [.expr e]
  | fieldInit, f => [.fieldInit f]
  | stmt, s => [.stmt s]
  | caseArm, a => [.caseArm a]
  | handler, h => [.handler h]
  | exceptBody, b =>
    let b : ExceptBody := b
    b.handlers.map .handler ++ b.rest.map .stmt ++ b.plain.map .stmt
  | type, t => [.type t]
  | decl, d => [.decl d]
  | callable, d => [.decl (.callable d)]
  | block, b => [.block b]
  | unitRef, u => [.decl (.unit u)]
  | unitEnd, e =>
    let e : UnitEnd := e
    e.init.map .stmt ++ e.final.map .stmt
  | goal, g => [.goal g]
  | varGroup, g => groupParts g
  | varInit, i => (VarInit.init i).toList.map .expr
  | routineHead, h => headParts h
  | param, p => [.decl (.param p)]
  | directive, d => (Directive.arg d).toList.map .expr
  | external, e =>
    let e : ExternalSpec := e
    (e.library.toList ++ e.name.toList ++ e.index.toList).map .expr
  | enumMember, m => [.decl (.enumMember m)]
  | variantCase, c => [.variantCase c]
  | variantPart, p => [.variantPart p]
  | members, l => (MemberList.items l).map fun m => .decl m.decl
  | member, m => memberParts m
  | propertyFace, f => faceParts f
  | propertySpec, s => (specExpr? s).toList.map .expr
  | list s, l => List.flatMap s.parts l
  | opt s, o => List.flatMap s.parts (Option.toList o)
where
  groupParts (g : VarGroup) : List Node := .type g.type :: g.init.toList.map .expr
  headParts (h : RoutineHead) : List Node :=
    (h.params.getD []).map (fun p => .decl (.param p)) ++ h.result.toList.map .type
  faceParts (f : PropertyFace) : List Node :=
    f.params.map (fun p => .decl (.param p)) ++ [.type f.type]
  memberParts : PendingMember → List Node
    | .visibility _ => []
    | .fields g => groupParts g
    | .method h ds => headParts h ++ ds.flatMap fun d => d.arg.toList.map .expr
    | .property _ face specs _ _ => face.toList.flatMap faceParts ++
      specs.flatMap fun s => (specExpr? s).toList.map .expr

/-- Run among arguments that carry `ps`, a builder gives a value that carries `qs`: with new
numbers, which are handed out in order, and no other ones. -/
def Lays {α : Type} (ps : List Node) (b : Build α) (qs : α → List Node) : Prop :=
  ∀ site last a last', b site last = .ok (a, last') →
    last ≤ last' ∧ (Laid ps last → Laid (qs a) last') ∧
      ∀ i, Carries (qs a) i → Carries ps i ∨ (last < i ∧ i ≤ last')

namespace Lays

variable {α β : Type} {ps rs : List Node} {qs : α → List Node}

theorem pure {a : α} (h : Yields ps (qs a)) : Lays ps (Pure.pure a : Build α) qs := by
  rintro site last _ _ ⟨⟩
  exact ⟨Nat.le_refl _, h.laid last, fun i hi => .inl (h.carries i hi)⟩

theorem give {a : α} (h : Yields ps (qs a)) : Lays ps (Rule.give a) qs := pure h

theorem bind {b : Build α} {k : α → Build β} {ts : β → List Node} (hb : Lays ps b qs)
    (hk : ∀ a, Lays (qs a) (k a) ts) : Lays ps (b >>= k) ts := by
  intro site last c last'' h
  change (b site last >>= fun e => k e.1 site e.2) = .ok (c, last'') at h
  cases hrun : b site last with
  | error f =>
    rw [hrun] at h
    cases h
  | ok e =>
    obtain ⟨a, last'⟩ := e
    rw [hrun] at h
    obtain ⟨hle, hlaid, hcarries⟩ := hb site last a last' hrun
    obtain ⟨hle', hlaid', hcarries'⟩ := hk a site last' c last'' h
    refine ⟨Nat.le_trans hle hle', fun hp => hlaid' (hlaid hp), fun i hi => ?_⟩
    rcases hcarries' i hi with hold | hnew
    · rcases hcarries i hold with hold | hnew
      · exact .inl hold
      · exact .inr ⟨hnew.1, Nat.le_trans hnew.2 hle'⟩
    · exact .inr ⟨Nat.lt_of_le_of_lt hle hnew.1, hnew.2⟩

/-- Arguments may be put in other places first. -/
theorem of_yields {b : Build α} (h : Yields ps rs) (hb : Lays rs b qs) : Lays ps b qs := by
  intro site last a last' hrun
  obtain ⟨hle, hlaid, hcarries⟩ := hb site last a last' hrun
  exact ⟨hle, fun hp => hlaid (h.laid last hp), fun i hi => (hcarries i hi).imp_left (h.carries i)⟩

theorem ite {c : Prop} [Decidable c] {a b : Build α} (ha : Lays ps a qs) (hb : Lays ps b qs) :
    Lays ps (if c then a else b) qs := by
  split
  · exact ha
  · exact hb

theorem read : Lays ps (MonadReader.read : Build Site) fun _ => ps := by
  rintro site last _ _ ⟨⟩
  exact ⟨Nat.le_refl _, id, fun i hi => .inl hi⟩

theorem reject (line : Nat) (message : Text) : Lays ps (Rule.reject line message) qs := by
  rintro site last _ _ ⟨⟩

theorem require (f : Feature) (line : Nat) (what : Text) :
    Lays ps (Rule.require f line what) fun _ => ps :=
  read.bind fun _ => ite (pure (Yields.refl _)) (reject _ _)

/-- A new number is held for a node that is not yet built. -/
theorem nodeAt (line : Nat) : Lays ps (Rule.nodeAt line) fun i => seed i :: ps := by
  rintro site last _ _ ⟨⟩
  have hseed : ∀ i, (seed ⟨last + 1, line, site.origin⟩).Has i → i = last + 1 := fun i hi =>
    (Node.seed_has.mp hi).symm
  refine ⟨Nat.le_succ last, fun h => ?_, fun i ⟨p, hp, hi⟩ => ?_⟩
  · have hold := h.mono (Nat.le_succ last)
    refine ⟨?_, ?_, ?_⟩
    · rw [List.forall_mem_cons]
      refine ⟨fun i hi => ?_, hold.numbered⟩
      rw [hseed i hi]
      exact ⟨Nat.le_add_left 1 last, Nat.le_refl _⟩
    · rw [List.forall_mem_cons]
      refine ⟨?_, hold.tidy⟩
      rw [Node.tidy_iff]
      exact ⟨⟨by simp, by simp⟩, by simp⟩
    · rw [List.pairwise_cons]
      refine ⟨fun p hp => .inl fun i hi hpi => ?_, hold.apart⟩
      have hle := (h.numbered p hp i hpi).2
      rw [hseed i hi] at hle
      omega
  · rcases List.mem_cons.mp hp with rfl | hp
    · rw [hseed i hi]
      exact .inr ⟨Nat.lt_succ_self last, Nat.le_refl _⟩
    · exact .inl ⟨p, hp, hi⟩

theorem node : Lays ps Rule.node fun i => seed i :: ps := read.bind fun _ => nodeAt _

/-- Most builders make one node over their arguments. -/
theorem node_return {f : NodeInfo → α}
    (h : ∀ i, ∃ n, qs (f i) = [n] ∧ n.info = i ∧ n.children.Subperm ps) :
    Lays ps (do return f (← Rule.node)) qs := by
  refine node.bind fun i => pure ?_
  obtain ⟨n, hq, hi, hsub⟩ := h i
  rw [hq]
  exact Yields.node hi hsub

theorem mapM {k : β → Build α} {f : β → List Node} {g : α → List Node}
    (hk : ∀ b rs, Lays (f b ++ rs) (k b) fun a => g a ++ rs) (l : List β) (rs : List Node) :
    Lays (l.flatMap f ++ rs) (l.mapM k) fun as => as.flatMap g ++ rs := by
  induction l generalizing rs with
  | nil => exact pure (Yields.refl _)
  | cons b l ih =>
    rw [List.mapM_cons, List.flatMap_cons, List.append_assoc]
    -- What is built first stands beside the arguments of the others.
    refine (hk b _).bind fun a => ?_
    have hbeside : Yields (g a ++ (l.flatMap f ++ rs)) (l.flatMap f ++ (g a ++ rs)) :=
      Yields.of_subperm (List.perm_append_comm_assoc _ _ _).subperm
    refine of_yields hbeside ((ih (g a ++ rs)).bind fun as => pure (Yields.of_subperm ?_))
    rw [List.flatMap_cons, List.append_assoc]
    exact (List.perm_append_comm_assoc _ _ _).subperm

theorem foldlM {k : α → β → Build α} (hk : ∀ a b, Lays (qs a) (k a b) qs) (l : List β) (a : α) :
    Lays (qs a) (l.foldlM k a) qs := by
  induction l generalizing a with
  | nil => exact pure (Yields.refl _)
  | cons b l ih =>
    rw [List.foldlM_cons]
    exact (hk a b).bind fun a => ih a

theorem forIn {k : β → α → Build (ForInStep α)} (hk : ∀ b a, Lays ps (k b a) fun _ => ps)
    (l : List β) (a : α) : Lays ps (ForIn.forIn l a k) fun _ => ps := by
  induction l generalizing a with
  | nil => exact pure (Yields.refl _)
  | cons b l ih =>
    rw [List.forIn_cons]
    refine (hk b a).bind fun step => ?_
    cases step with
    | done a => exact pure (Yields.refl _)
    | yield a => exact ih a

/-- What is made of one name after the other is made so of each. -/
theorem mapM_eq_ok {f : Token → NodeInfo → α} {ts : List Token} {site : Site} {last last' : Nat}
    {as : List α}
    (h : (ts.mapM fun t => do return f t (← Rule.nodeAt t.line) : Build (List α)) site last =
      .ok (as, last')) : ∀ a ∈ as, ∃ t i, a = f t i := by
  induction ts generalizing last as with
  | nil =>
    cases h
    simp
  | cons t ts ih =>
    rw [List.mapM_cons] at h
    obtain ⟨⟨bs, last''⟩, hrest, heq⟩ := bind_eq_ok.mp h
    cases heq
    exact List.forall_mem_cons.mpr ⟨⟨t, _, rfl⟩, ih hrest⟩

/-- Names of one group are numbered in turn and share what stands below them. -/
theorem names {f : Token → NodeInfo → α} {n : α → Node} {cs : List Node}
    (hinfo : ∀ t i, (n (f t i)).info = i) (hchildren : ∀ t i, (n (f t i)).children = cs)
    (hgroup : ∀ t i u j, Grouped (n (f t i)) (n (f u j))) (hfree : ∀ c ∈ cs, c.groups = false)
    (ts : List Token) (fs : List Node) :
    Lays (cs ++ fs) (ts.mapM fun t => do return f t (← Rule.nodeAt t.line)) fun as =>
      as.map n ++ fs := by
  have hone (t : Token) (rs : List Node) :
      Lays rs (do return f t (← Rule.nodeAt t.line)) fun a => [seed (n a).info] ++ rs := by
    refine (nodeAt t.line).bind fun i => pure ?_
    rw [hinfo]
    exact Yields.refl _
  have hseeds : Lays (cs ++ fs) (ts.mapM fun t => do return f t (← Rule.nodeAt t.line)) fun as =>
      as.flatMap (fun a => [seed (n a).info]) ++ (cs ++ fs) := by
    have hnone : ts.flatMap (fun _ => ([] : List Node)) = [] := by simp
    have hall := mapM (f := fun _ => []) hone ts (cs ++ fs)
    rwa [hnone] at hall
  intro site last as last' hrun
  obtain ⟨hle, hlaid, hcarries⟩ := hseeds site last as last' hrun
  have hforms := mapM_eq_ok hrun
  -- The places held are filled with the names, all over the same parts.
  have hyields : Yields (as.flatMap (fun a => [seed (n a).info]) ++ (cs ++ fs))
      (as.map n ++ fs) := by
    have hfill : Yields ((as.map n).map (fun d => seed d.info) ++ cs ++ fs) (as.map n ++ fs) :=
      Yields.group ?_ ?_ ?_
    · rwa [List.map_map, List.append_assoc, List.map_eq_flatMap] at hfill
    · rw [List.forall_mem_map]
      intro a ha
      obtain ⟨t, i, rfl⟩ := hforms a ha
      exact hchildren t i
    · rw [List.pairwise_map]
      refine List.pairwise_of_forall_mem_list fun a ha b hb => ?_
      obtain ⟨t, i, rfl⟩ := hforms a ha
      obtain ⟨u, j, rfl⟩ := hforms b hb
      exact hgroup t i u j
    · intro c hc f _ hcf
      have hgroups := hcf.groups_left
      rw [hfree c hc] at hgroups
      cases hgroups
  exact ⟨hle, fun h => hyields.laid last' (hlaid h), fun i hi => hcarries i (hyields.carries i hi)⟩

end Lays

section Forms

/-! The parts of optional values and lists, in the form that the parts of nodes have. -/

variable {α β γ : Type}

theorem flatMap_nothing (l : List β) : l.flatMap (fun _ => ([] : List γ)) = [] := by
  simp

theorem optList_map (o : Option (List α)) (f : α → β) :
    o.toList.flatMap (List.map f) = (o.getD []).map f := by
  cases o <;> simp

theorem optList_flatMap (o : Option (List α)) (f : α → List β) :
    o.toList.flatMap (List.flatMap f) = (o.getD []).flatMap f := by
  cases o <;> simp

theorem optItems_map (o : Option MemberList) (f : Member → β) :
    (o.toList.flatMap fun l => l.items.map f) = ((o.map (·.items)).getD []).map f := by
  cases o <;> simp

theorem optExternal_flatMap {f : ExternalSpec → List β} (h : f {} = []) (o : Option ExternalSpec) :
    o.toList.flatMap f = f (o.getD {}) := by
  cases o <;> simp [h]

theorem optInit_flatMap (o : Option VarInit) (f : Expr → β) :
    (o.toList.flatMap fun i => i.init.toList.map f) = (o.getD {}).init.toList.map f := by
  cases o <;> simp

theorem filterMap_map {f : α → Option β} (g : β → γ) (l : List α) :
    (l.filterMap f).map g = l.flatMap fun a => (f a).toList.map g := by
  induction l with
  | nil => rfl
  | cons a l ih => cases h : f a <;> simp [h, ih]

end Forms

section Helpers

variable {fs : List Node}

theorem not_grouped {c d : Node} (h : c.groups = false) : ¬Grouped c d := fun hcd => by
  have hgroups := hcd.groups_left
  rw [h] at hgroups
  cases hgroups

theorem groupDecls_lays (kind : VarKind) (visibility : Visibility) (g : VarGroup)
    (fs : List Node) :
    Lays (Shape.parts.groupParts g ++ fs) (groupDecls kind visibility g) fun ds =>
      ds.map (fun d => .decl (.var d)) ++ fs := by
  have hfree : ∀ c ∈ Shape.parts.groupParts g, c.groups = false := by
    simp [Shape.parts.groupParts, Node.groups]
  exact Lays.names
    (f := fun t info =>
      ({ info, name := t.text, type := some g.type, init := g.init, absolute := g.absolute, kind,
         visibility } : VarDecl))
    (n := fun d => .decl (.var d)) (fun _ _ => rfl) (fun _ _ => rfl) (fun _ _ _ _ => .var rfl rfl)
    hfree g.names fs

theorem groups_lays (kind : VarKind) (visibility : Visibility) (gs : List VarGroup)
    (fs : List Node) :
    Lays (gs.flatMap Shape.parts.groupParts ++ fs) (gs.mapM (groupDecls kind visibility)) fun dss =>
      dss.flatten.map (fun d => .decl (.var d)) ++ fs := by
  have hall := Lays.mapM (groupDecls_lays kind visibility) gs fs
  simpa only [List.map_flatten, List.flatMap_def] using hall

theorem variableSection_lays (kind : VarKind) (gs : List VarGroup) :
    Lays (gs.flatMap Shape.parts.groupParts) (variableSection kind gs) fun ds => ds.map .decl := by
  have hall := groups_lays kind .default gs []
  simp only [List.append_nil] at hall
  refine hall.bind fun dss => Lays.pure ?_
  rw [List.map_map]
  exact Yields.refl _

theorem parameters_lays (kind : ParamKind) (names : List Token) (type : Option TypeExpr)
    (default : Option Expr) :
    Lays (type.toList.map .type ++ default.toList.map .expr) (parameters kind names type default)
      fun ps => ps.map fun p => .decl (.param p) := by
  have hnames : Lays (type.toList.map Node.type ++ default.toList.map .expr)
      (names.mapM fun t => do
        return ({ info := ← nodeAt t.line, name := t.text, kind, type, default } : ParamDecl))
      fun ps => ps.map fun p => .decl (.param p) := by
    have hfree : ∀ c ∈ type.toList.map Node.type ++ default.toList.map .expr,
        c.groups = false := by
      simp [or_imp, forall_and, Node.groups]
    have hall := Lays.names
      (f := fun t info => ({ info, name := t.text, kind, type, default } : ParamDecl))
      (n := fun p => .decl (.param p)) (fun _ _ => rfl) (fun _ _ => rfl)
      (fun _ _ _ _ => .param rfl rfl) hfree names []
    simpa only [List.append_nil] using hall
  exact Lays.ite ((Lays.reject _ _).bind fun _ => hnames) hnames

/-- Whom a member belongs to is told to methods. -/
def owned (owner : Text) : Node → Node
  | .decl (.callable d) => .decl (.callable { d with owner })
  | n => n

theorem decl_ownedBy (owner : Text) (m : Member) :
    Node.decl (ownedBy owner m).decl = owned owner (.decl m.decl) := by
  cases m <;> rfl

theorem owned_yields (owner : Text) (ps : List Node) : Yields ps (ps.map (owned owner)) := by
  refine Yields.replace (fun p _ => ?_) (fun p _ => ?_) fun p q hpq => ?_
  · unfold owned
    split <;> rfl
  · unfold owned
    split <;> rfl
  · -- Names of groups are no methods.
    cases hpq with
    | var ht hv => exact .var ht hv
    | param ht hv => exact .param ht hv

/-- A type with members gives way to a declaration with the same members. -/
theorem composite_yields (i : NodeInfo) (name : Text) (kind : CompositeKind)
    (heritage : List Text) {ms : List Member} (type : TypeExpr) {t : TypeExpr}
    (ht : (ms.map fun m => Node.decl m.decl).Subperm t.children) :
    Yields [seed i, .type t] [.decl (.composite
      { info := i, name, kind, heritage, members := ms.map (ownedBy name), type })] := by
  have hswap : Yields [seed i, .type t] [.type t, seed i] :=
    Yields.of_subperm (List.Perm.swap _ _ []).subperm
  have hopen : Yields [.type t, seed i] (t.children ++ [seed i]) := Yields.unwrap rfl
  have hmembers : Yields (t.children ++ [seed i]) (seed i :: ms.map fun m => .decl m.decl) :=
    Yields.of_subperm (((List.subperm_cons _).mpr ht).trans
      (List.perm_append_singleton _ _).symm.subperm)
  have howned := owned_yields name (seed i :: ms.map fun m => Node.decl m.decl)
  have hsame : (ms.map fun m => Node.decl m.decl).map (owned name) =
      (ms.map (ownedBy name)).map fun m => Node.decl m.decl := by
    rw [List.map_map, List.map_map]
    exact List.map_congr_left fun m _ => (decl_ownedBy name m).symm
  rw [List.map_cons, hsame] at howned
  refine (((hswap.trans hopen).trans hmembers).trans howned).trans ?_
  exact Yields.node rfl (List.Subperm.refl _)

theorem declareType_lays (name : Token) (t : TypeExpr) :
    Lays [.type t] (declareType name t) fun d => [.decl d] := by
  refine (Lays.nodeAt name.line).bind fun i => Lays.pure ?_
  split
  · exact composite_yields i name.text _ _ _ (List.Subperm.refl _)
  · exact composite_yields i name.text _ _ _ (List.sublist_append_right _ _).subperm
  · exact composite_yields i name.text _ _ _ (List.sublist_append_left _ _).subperm
  · exact Yields.node rfl (List.Subperm.refl _)

/-- Parameters are not grouped with members, and other parts of a member with nothing at all. -/
theorem not_grouped_member {c : Node} (hc : c.groups = true → ∃ p, c = .decl (.param p))
    (m : Member) : ¬Grouped c (.decl m.decl) := by
  intro h
  obtain ⟨p, rfl⟩ := hc h.groups_left
  cases m <;> cases h

/-- The routine of a heading with a number. -/
def routineOf (h : RoutineHead) (ds : List Directive) (v : Visibility) (i : NodeInfo) :
    CallableDecl :=
  { info := i, name := h.name.name, owner := h.name.owner, kind := h.kind,
    classMethod := h.classMethod, params := h.params, result := h.result, directives := ds,
    visibility := v }

/-- A routine is built over the parts of its heading, its directives and what is added to it,
beside members. -/
theorem routine_lays {h : RoutineHead} {ds : List Directive} {v : Visibility}
    {g : CallableDecl → CallableDecl} {ps : List Node} (ms : List Member)
    (hinfo : ∀ d, (g d).info = d.info)
    (hsub : ∀ i, (Decl.callable (g (routineOf h ds v i))).children.Subperm ps) :
    Lays (ps ++ ms.map fun m => .decl m.decl) (do return g (← callableOf h ds v)) fun d =>
      .decl (.callable d) :: ms.map fun m => .decl m.decl := by
  change Lays _ ((fun i => routineOf h ds v i) <$> nodeAt h.line >>= fun d => pure (g d)) _
  rw [map_eq_pure_bind, bind_assoc]
  refine (Lays.nodeAt h.line).bind fun i => ?_
  rw [pure_bind]
  refine Lays.pure (Yields.wrap (hinfo _) (hsub i) fun c hc f hf => ?_)
  obtain ⟨m, _, rfl⟩ := List.mem_map.mp hf
  refine not_grouped_member (fun hgroups => ?_) m
  simp only [Node.children, Decl.children, List.mem_append, List.mem_map] at hc
  rcases hc with ((⟨p, _, rfl⟩ | ⟨t, _, rfl⟩) | ⟨e, _, rfl⟩) | ⟨b, _, rfl⟩
  · exact ⟨p, rfl⟩
  · cases hgroups
  · cases hgroups
  · cases hgroups

theorem callableOf_lays (h : RoutineHead) (ds : List Directive) (v : Visibility)
    (ms : List Member) :
    Lays (Shape.parts.memberParts (.method h ds) ++ ms.map fun m => .decl m.decl)
      (callableOf h ds v) fun d => .decl (.callable d) :: ms.map fun m => .decl m.decl := by
  have hsub (i : NodeInfo) : (Decl.callable (routineOf h ds v i)).children.Subperm
      (Shape.parts.memberParts (.method h ds)) := by
    simp only [Decl.children, routineOf, CallableDecl.paramList, CallableDecl.clauseExprs,
      filterMap_map, List.append_nil, Option.toList_none, List.map_nil]
    exact List.Subperm.refl _
  have hroutine := routine_lays (g := id) ms (fun _ => rfl) hsub
  simpa only [id_eq, bind_pure] using hroutine

/-- The expressions in the specifiers of a property. -/
def specExprs (d : PropertyDecl) : List Expr :=
  d.index.toList ++ (d.default.toList ++ d.stored.toList)

/-- A specifier takes the place of an earlier one of its kind. -/
theorem specify_subperm (d : PropertyDecl) (s : PropertySpec) :
    (specExprs (specify d s)).Subperm ((specExpr? s).toList ++ specExprs d) := by
  cases s with
  | index e =>
    have hsub : (d.default.toList ++ d.stored.toList).Subperm (specExprs d) :=
      (List.sublist_append_right _ _).subperm
    exact (List.subperm_cons e).mpr hsub
  | default e =>
    have hsub : (d.index.toList ++ d.stored.toList).Subperm (specExprs d) :=
      ((List.Sublist.refl _).append (List.sublist_append_right _ _)).subperm
    exact List.perm_middle.subperm.trans ((List.subperm_cons e).mpr hsub)
  | stored e =>
    have hsub : (d.index.toList ++ d.default.toList).Subperm (specExprs d) :=
      ((List.Sublist.refl _).append (List.sublist_append_left _ _)).subperm
    have hperm : (d.index.toList ++ (d.default.toList ++ [e])).Perm
        (e :: (d.index.toList ++ d.default.toList)) := by
      rw [← List.append_assoc]
      exact List.perm_append_singleton _ _
    exact hperm.subperm.trans ((List.subperm_cons e).mpr hsub)
  | _ => exact List.Subperm.refl _

theorem specs_subperm (ss : List PropertySpec) (d : PropertyDecl) :
    (specExprs (ss.foldl specify d)).Subperm (ss.filterMap specExpr? ++ specExprs d) := by
  induction ss generalizing d with
  | nil => exact List.Subperm.refl _
  | cons s ss ih =>
    have hcons : (s :: ss).filterMap specExpr? =
        (specExpr? s).toList ++ ss.filterMap specExpr? := by
      cases h : specExpr? s <;> simp [h]
    rw [List.foldl_cons, hcons, List.append_assoc]
    refine (ih (specify d s)).trans ?_
    refine ((List.subperm_append_left _).mpr (specify_subperm d s)).trans ?_
    exact (List.perm_append_comm_assoc _ _ _).subperm

theorem specs_same (specs : List PropertySpec) (d : PropertyDecl) :
    (specs.foldl specify d).info = d.info ∧ (specs.foldl specify d).params = d.params ∧
      (specs.foldl specify d).type = d.type := by
  induction specs generalizing d with
  | nil => exact ⟨rfl, rfl, rfl⟩
  | cons s specs ih =>
    rw [List.foldl_cons]
    cases s <;> exact ih _

theorem property_yields {name : Token} {face : Option PropertyFace} {specs : List PropertySpec}
    {line : Nat} (i : NodeInfo) (isDefault : Bool) (v : Visibility) (ms : List Member) :
    Yields
      (seed i :: (Shape.parts.memberParts (.property name face specs isDefault line) ++
        ms.map fun m => .decl m.decl))
      (.decl (.property (specs.foldl specify
        { info := i, name := name.text, params := (face.map (·.params)).getD [],
          type := face.map (·.type), defaultArray := isDefault, visibility := v })) ::
        ms.map fun m => .decl m.decl) := by
  generalize hd : PropertyDecl.mk i name.text ((face.map (·.params)).getD []) (face.map (·.type))
    ∅ ∅ none none none false [] isDefault v = d
  obtain ⟨hinfo, hparams, htype⟩ := specs_same specs d
  have hspecs : (specExprs (specs.foldl specify d)).Subperm (specs.filterMap specExpr?) := by
    have hnone : specExprs d = [] := hd ▸ rfl
    have hsub := specs_subperm specs d
    rwa [hnone, List.append_nil] at hsub
  have hface : (d.params.map fun p => Node.decl (.param p)) ++ d.type.toList.map .type =
      face.toList.flatMap Shape.parts.faceParts := by
    subst hd
    cases face <;> simp [Shape.parts.faceParts]
  have hchildren : (Node.decl (.property (specs.foldl specify d))).children =
      face.toList.flatMap Shape.parts.faceParts ++
        (specExprs (specs.foldl specify d)).map Node.expr := by
    simp only [Node.children, Decl.children, hparams, htype, hface, specExprs, List.append_assoc]
  refine Yields.wrap (hinfo.trans (hd ▸ rfl)) ?_ fun c hc f hf => ?_
  · rw [hchildren]
    obtain ⟨es, hperm, hes⟩ := hspecs
    rw [Shape.parts.memberParts, ← filterMap_map]
    exact (List.subperm_append_left _).mpr ⟨es.map .expr, hperm.map _, hes.map _⟩
  · obtain ⟨m, _, rfl⟩ := List.mem_map.mp hf
    refine not_grouped_member (fun hgroups => ?_) m
    simp only [Node.children, Decl.children, List.mem_append, List.mem_map] at hc
    rcases hc with (⟨p, _, rfl⟩ | ⟨t, _, rfl⟩) | ⟨e, _, rfl⟩
    · exact ⟨p, rfl⟩
    · cases hgroups
    · cases hgroups

theorem addMember_lays (l : MemberList) (m : PendingMember) :
    Lays (l.items.map (fun m => .decl m.decl) ++ Shape.parts.memberParts m) (addMember l m)
      fun l => l.items.map fun m => .decl m.decl := by
  -- The new member is put behind the others once it is built.
  have hsnoc (m : Member) : Yields (.decl m.decl :: l.items.map fun m => .decl m.decl)
      ((snoc l.items m).map fun m => .decl m.decl) := by
    rw [snoc, List.map_append]
    exact Yields.of_subperm (List.perm_append_singleton _ _).subperm
  refine Lays.of_yields (Yields.of_subperm List.perm_append_comm.subperm) ?_
  cases m with
  | visibility v => exact Lays.pure (Yields.refl _)
  | fields g =>
    refine (groupDecls_lays .field l.visibility g _).bind fun ds => Lays.pure ?_
    refine Yields.of_subperm ?_
    rw [List.map_append, List.map_map]
    exact List.perm_append_comm.subperm
  | method h ds =>
    exact (callableOf_lays h ds l.visibility l.items).bind fun d => Lays.pure (hsnoc (.callable d))
  | property name face specs isDefault line =>
    refine (Lays.nodeAt line).bind fun i => Lays.pure ?_
    exact (property_yields i isDefault l.visibility l.items).trans (hsnoc (.property _))

theorem heading_lays (classMethod : Bool) (word : Token) (name : RoutineName)
    (params : Option (List ParamDecl)) (result : Option TypeExpr) :
    Lays ((params.getD []).map (fun p => .decl (.param p)) ++ result.toList.map .type)
      (heading classMethod word name params result) Shape.parts.headParts :=
  Lays.ite ((Lays.reject _ _).bind fun _ => Lays.pure (Yields.refl _)) (Lays.pure (Yields.refl _))

theorem labels_lay (ts : List Token) :
    Lays [] (ts.mapM fun t => do return Decl.label { info := ← nodeAt t.line, name := t.text })
      fun ds => ds.map .decl := by
  have hone (t : Token) (fs : List Node) :
      Lays ([] ++ fs) (do return Decl.label { info := ← nodeAt t.line, name := t.text })
        fun d => [.decl d] ++ fs :=
    (Lays.nodeAt t.line).bind fun i => Lays.pure (Yields.leaf rfl rfl)
  have hnone : ts.flatMap (fun _ => ([] : List Node)) = [] := by simp
  have hall := Lays.mapM hone ts []
  simpa only [hnone, List.append_nil, List.map_eq_flatMap] using hall

theorem recordOf_lays (packed : Bool) (l : Option MemberList) (v : Option VariantPart) :
    Lays (((l.map (·.items)).getD []).map (fun m => .decl m.decl) ++ v.toList.map .variantPart)
      (recordOf packed l v) fun t => [.type t] := by
  refine (Lays.forIn (fun m _ => ?_) _ _).bind fun _ => Lays.node_return fun i => ?_
  · cases m with
    | var d => exact Lays.pure (Yields.refl _)
    | _ => exact (Lays.require _ _ _).bind fun _ => Lays.pure (Yields.refl _)
  · exact ⟨_, rfl, rfl, List.Subperm.refl _⟩

theorem variantCaseOf_lays (labels : List Expr) (gs : List VarGroup) :
    Lays (labels.map .expr ++ gs.flatMap Shape.parts.groupParts) (variantCaseOf labels gs)
      fun c => [.variantCase c] := by
  refine Lays.node.bind fun i => ?_
  have hperm : Yields (seed i :: (labels.map .expr ++ gs.flatMap Shape.parts.groupParts))
      (gs.flatMap Shape.parts.groupParts ++ (seed i :: labels.map .expr)) :=
    Yields.of_subperm (((List.perm_append_comm.cons _).trans List.perm_middle.symm).symm.subperm)
  refine Lays.of_yields hperm ((groups_lays .field .default gs _).bind fun dss => Lays.pure ?_)
  refine (Yields.of_subperm List.perm_middle.symm.subperm).trans (Yields.node rfl ?_)
  exact List.perm_append_comm.subperm

theorem dotted_lays (name : Text) : Lays fs (dotted name) fun e => .expr e :: fs := by
  have hfirst (i : NodeInfo) (t : Text) : Yields (seed i :: fs) (.expr (.name i t) :: fs) :=
    Yields.leaf rfl rfl
  unfold dotted
  split
  · exact Lays.node.bind fun i => Lays.pure (hfirst i _)
  · rename_i first fields _
    refine Lays.node.bind fun i => Lays.of_yields (hfirst i first) ?_
    have hfield (e : Expr) (f : Text) : Lays (.expr e :: fs) (do return .field (← Rule.node) e f)
        fun e => .expr e :: fs := by
      refine Lays.node.bind fun i => Lays.pure ?_
      have hwrap : Yields (seed i :: ([.expr e] ++ fs)) (.expr (.field i e f) :: fs) := by
        refine Yields.wrap rfl (List.Subperm.refl _) fun c hc _ _ => not_grouped ?_
        exact List.mem_singleton.mp hc ▸ rfl
      exact hwrap
    exact Lays.foldlM hfield fields (.name i first)

theorem handlerOf_lays (var name : Text) (body : Stmt) :
    Lays [.stmt body] (handlerOf var name body) fun h => [.handler h] := by
  refine Lays.node.bind fun i => Lays.node.bind fun j => Lays.pure ?_
  have htype : Yields [seed j, seed i, .stmt body]
      [.type (.named { info := j, name }), seed i, .stmt body] := Yields.leaf rfl rfl
  refine (htype.trans (Yields.of_subperm (List.Perm.swap _ _ _).subperm)).trans ?_
  exact Yields.node rfl (List.Subperm.refl _)

theorem integerOf_lays (t : Token) : Lays [] (integerOf t) fun e => [.expr e] := by
  unfold integerOf
  split
  · exact Lays.node_return fun i => ⟨_, rfl, rfl, List.Subperm.refl _⟩
  · exact Lays.reject _ _

theorem realOf_lays (t : Token) : Lays [] (realOf t) fun e => [.expr e] := by
  unfold realOf
  split
  · exact Lays.node_return fun i => ⟨_, rfl, rfl, List.Subperm.refl _⟩
  · exact Lays.reject _ _

theorem stringOf_lays (t : Token) : Lays [] (stringOf t) fun e => [.expr e] := by
  unfold stringOf
  split <;> exact Lays.node_return fun i => ⟨_, rfl, rfl, List.Subperm.refl _⟩

theorem callOf_lays (e : Expr) (args : List Expr) :
    Lays (.expr e :: args.map .expr) (callOf e args) fun e => [.expr e] := by
  unfold callOf
  split
  · exact Lays.node_return fun i => ⟨_, rfl, rfl, (List.sublist_cons_self _ _).subperm⟩
  · exact Lays.node_return fun i => ⟨_, rfl, rfl, List.Subperm.refl _⟩

theorem stringCall_lays (e : Expr) : Lays [.expr e] (stringCall e) fun e => [.expr e] := by
  refine Lays.node.bind fun i => Lays.node.bind fun j => Lays.pure ?_
  have hcallee : Yields [seed j, seed i, .expr e]
      [.expr (.ident j "string"), seed i, .expr e] := Yields.leaf rfl rfl
  refine (hcallee.trans (Yields.of_subperm (List.Perm.swap _ _ _).subperm)).trans ?_
  exact Yields.node rfl (List.Subperm.refl _)

theorem plainDirective_lays (t : Token) :
    Lays [] (plainDirective t) fun d => d.arg.toList.map .expr :=
  Lays.ite ((Lays.require _ _ _).bind fun _ => Lays.pure (Yields.refl _))
    (Lays.pure (Yields.refl _))

theorem strictly_lays (word : Token) (v : Visibility) :
    Lays [] (strictly word v) Shape.parts.memberParts :=
  (Lays.require _ _ _).bind fun _ => Lays.pure (Yields.refl _)

end Helpers

/-- The nodes that a value on the stack carries. -/
def Value.parts (v : Value) : List Node := v.1.parts v.2

/-- The property holds of the values of all symbols together with what a function gives for
them. -/
def AlwaysOf {α : Type} (P : List Value → α → Prop) :
    (ss : List Sym) → List Value → Curried (ss.map Sym.shape) α → Prop
  | [], vs, a => P vs a
  | s :: ss, vs, f => ∀ v : s.shape.Val, AlwaysOf P ss (vs ++ [⟨s.shape, v⟩]) (f v)

/-- The builder of a rule finds what it takes among values of the right shapes, and what holds of
all values together with what is built of them holds there. -/
theorem exists_applyTo_of {α : Type} {P : List Value → α → Prop} {ss : List Sym} {us : List Value}
    {f : Curried (ss.map Sym.shape) α} (hf : AlwaysOf P ss us f) {vs : List Value}
    (hvs : vs.map Sigma.fst = ss.map Sym.shape) :
    ∃ a, applyTo (ss.map Sym.shape) f vs = some a ∧ P (us ++ vs) a := by
  induction ss generalizing us vs with
  | nil =>
    obtain rfl : vs = [] := List.map_eq_nil_iff.mp hvs
    refine ⟨f, rfl, ?_⟩
    rw [List.append_nil]
    exact hf
  | cons s ss ih =>
    cases vs with
    | nil => cases hvs
    | cons v vs =>
      obtain ⟨shape, v⟩ := v
      obtain ⟨hshape, hrest⟩ := List.cons.inj hvs
      obtain rfl : shape = s.shape := hshape
      obtain ⟨a, ha, hP⟩ := ih (hf v) hrest
      refine ⟨a, (dif_pos rfl).trans ha, ?_⟩
      rwa [List.append_assoc] at hP

/-- A rule puts what it builds over the nodes that the values of its parts carry. -/
def LaysParts (r : Rule) : Prop :=
  AlwaysOf (fun vs b => Lays (vs.flatMap Value.parts) b fun v => Value.parts ⟨r.lhs.shape, v⟩) r.rhs
    [] r.builder

section Rules

variable {α β γ : Type} {ps : List Node} {qs : α → List Node}

theorem lays_build {b : Build α} : Lays ps (build b) qs ↔ Lays ps b qs := Iff.rfl

theorem lays_give {a : α} (h : (qs a).Subperm ps) : Lays ps (give a) qs :=
  Lays.give (Yields.of_subperm h)

theorem lays_node {f : NodeInfo → α}
    (h : ∀ i, ∃ n, qs (f i) = [n] ∧ n.info = i ∧ n.children.Subperm ps) :
    Lays ps (f <$> node) qs := by
  rw [map_eq_pure_bind]
  exact Lays.node_return h

/-- A node with a number over some of the nodes `ps`. -/
def Over (i : NodeInfo) (ps : List Node) (n : Node) : Prop :=
  n.info = i ∧ n.children.Subperm ps

/-- The list is one node that has the property. -/
def Alone (P : Node → Prop) : List Node → Prop
  | [n] => P n
  | _ => False

theorem alone_singleton (P : Node → Prop) (n : Node) : Alone P [n] ↔ P n := Iff.rfl

theorem Alone.exists {P : Node → Prop} {l : List Node} (h : Alone P l) : ∃ n, l = [n] ∧ P n := by
  rcases l with _ | ⟨n, _ | _⟩
  · cases h
  · exact ⟨n, rfl, h⟩
  · cases h

/-- The side condition in a form that simplification evaluates from the node outwards. -/
theorem lays_alone {f : NodeInfo → α} (h : ∀ i, Alone (Over i ps) (qs (f i))) :
    Lays ps (f <$> node) qs :=
  lays_node fun i => (h i).exists

theorem lays_routine {h : RoutineHead} {ds : List Directive} {v : Visibility}
    {g : CallableDecl → CallableDecl} (hinfo : ∀ d, (g d).info = d.info)
    (hsub : ∀ i, (Decl.callable (g (routineOf h ds v i))).children.Subperm ps) :
    Lays ps (g <$> callableOf h ds v) fun d => [.decl (.callable d)] := by
  simpa using routine_lays [] hinfo hsub

-- What values carry and what stands below nodes is computed for all rules alike.
attribute [local simp] Shape.parts Node.children Node.info lays_build lays_give lays_alone
  alone_singleton Over optList_map flatMap_nothing snoc List.Subperm.refl

theorem goals_lay : ∀ r ∈ goals, r.LaysParts := by
  simp only [goals, List.forall_mem_cons]
  -- The types of all values are computed first, so that the builders show their own forms.
  dsimp only [LaysParts, rule, AlwaysOf, Phrase.shape, Sym.shape, Shape.Val]
  simp only [List.flatMap_append, List.flatMap_singleton, Value.parts, Shape.parts]
  dsimp only [Shape.Val]
  simp [← List.map_eq_flatMap, Decl.children, Goal.children, Decl.info, Goal.info]

theorem names_lay : ∀ r ∈ names, r.LaysParts := by
  simp only [names, List.forall_mem_cons, List.forall_mem_append, List.forall_mem_map]
  dsimp only [LaysParts, rule, AlwaysOf, Phrase.shape, Sym.shape, Shape.Val]
  simp only [List.flatMap_append, List.flatMap_singleton, Value.parts, Shape.parts]
  dsimp only [Shape.Val]
  simp

theorem sections_lay : ∀ r ∈ sections, r.LaysParts := by
  simp only [sections, blocks, constantSections, variableSections, List.forall_mem_cons,
    List.forall_mem_append]
  dsimp only [LaysParts, rule, AlwaysOf, Phrase.shape, Sym.shape, Shape.Val]
  simp only [List.flatMap_append, List.flatMap_singleton, Value.parts, Shape.parts]
  dsimp only [Shape.Val]
  simp [optInit_flatMap, ← List.map_eq_flatMap, Decl.children, Stmt.children, Decl.info, Stmt.info,
    declareType_lays, variableSection_lays]
  refine ⟨labels_lay, fun names type init => ?_, fun name i e => lays_node fun _ => ?_⟩
  · exact Lays.ite (Lays.read.bind fun _ => Lays.reject _ _) (Lays.pure (Yields.refl _))
  · -- The number of an export is read before its name.
    exact ⟨_, rfl, rfl, (List.Perm.swap _ _ []).subperm⟩

theorem routines_lay : ∀ r ∈ routines, r.LaysParts := by
  simp only [routines, headings, parameterLists, directives, List.forall_mem_cons,
    List.forall_mem_append, List.forall_mem_map]
  dsimp only [LaysParts, rule, AlwaysOf, Phrase.shape, Sym.shape, Shape.Val]
  simp only [List.flatMap_append, List.flatMap_singleton, Value.parts, Shape.parts]
  dsimp only [Shape.Val]
  simp [lays_routine, optList_flatMap, optExternal_flatMap, filterMap_map, ← List.map_eq_flatMap,
    TypeExpr.children, Decl.children, CallableDecl.paramList, CallableDecl.clauseExprs, routineOf,
    Shape.parts.headParts, TypeExpr.info, plainDirective_lays]
  refine ⟨⟨fun h ds => ?_, heading_lays false, heading_lays true⟩, ?_, ?_, ?_⟩
  · have hall := callableOf_lays h (ds.getD []) .default []
    rwa [List.map_nil, List.append_nil, Shape.parts.memberParts, Shape.parts.headParts,
      List.append_assoc] at hall
  · exact fun names t e => parameters_lays .plain names (some t) e
  · exact fun word names t e => parameters_lays (paramKindOf word) names (some t) e
  · exact fun word names => parameters_lays (paramKindOf word) names none none

/-- A text has no nodes. -/
example : (Shape.parts .text (Text.ofString "a")).length = 0 := by decide +kernel

theorem types_lay : ∀ r ∈ types, r.LaysParts := by
  simp only [types, simpleTypes, structuredTypes, classTypes, variantParts, List.forall_mem_cons,
    List.forall_mem_append]
  dsimp only [LaysParts, rule, AlwaysOf, Phrase.shape, Sym.shape, Shape.Val]
  simp only [List.flatMap_append, List.flatMap_singleton, Value.parts, Shape.parts]
  dsimp only [Shape.Val]
  simp [optList_flatMap, optItems_map, ← List.map_eq_flatMap, TypeExpr.children, Decl.children,
    TypeExpr.info, Decl.info, recordOf_lays, variantCaseOf_lays]
  exact fun q t high => (dotted_lays _).bind fun low =>
    lays_node fun _ => ⟨_, rfl, rfl, List.Subperm.refl _⟩

theorem members_lay : ∀ r ∈ members, r.LaysParts := by
  simp only [members, memberLists, properties, List.forall_mem_cons, List.forall_mem_append]
  dsimp only [LaysParts, rule, AlwaysOf, Phrase.shape, Sym.shape, Shape.Val]
  simp only [List.flatMap_append, List.flatMap_singleton, Value.parts, Shape.parts]
  dsimp only [Shape.Val]
  simp [optList_flatMap, ← List.map_eq_flatMap, specExpr?, strictly_lays, addMember_lays,
    Shape.parts.groupParts, Shape.parts.faceParts]
  have hsame {m : PendingMember} : Lays (Shape.parts.memberParts m) (give m) fun m =>
      Shape.parts.memberParts m := lays_give (List.Subperm.refl _)
  refine ⟨⟨fun l g => addMember_lays l (.fields g), fun g => addMember_lays {} (.fields g),
    addMember_lays {}, fun g => hsame, fun h ds => hsame, ?_⟩, fun word name face specs d => hsame⟩
  exact ⟨hsame, hsame, hsame, hsame⟩

theorem statements_lay : ∀ r ∈ statements, r.LaysParts := by
  simp only [statements, simpleStatements, choices, loops, handlers, List.forall_mem_cons,
    List.forall_mem_append]
  dsimp only [LaysParts, rule, AlwaysOf, Phrase.shape, Sym.shape, Shape.Val]
  simp only [List.flatMap_append, List.flatMap_singleton, Value.parts, Shape.parts]
  dsimp only [Shape.Val]
  simp [← List.map_eq_flatMap, Stmt.children, Expr.children, Expr.info, Stmt.info, handlerOf_lays]
  refine ⟨?_, fun word var e s => ?_⟩
  · refine Lays.node.bind fun i => ?_
    rw [map_eq_pure_bind]
    refine Lays.node.bind fun j => Lays.pure ?_
    have hcall : Yields [seed j, seed i] [.expr (.inherited j ∅ none), seed i] :=
      Yields.leaf rfl rfl
    refine (hcall.trans (Yields.of_subperm (List.Perm.swap _ _ []).subperm)).trans ?_
    exact Yields.node rfl (List.Subperm.refl _)
  · exact (Lays.require _ _ _).bind fun _ =>
      lays_node fun _ => ⟨_, rfl, rfl, List.Subperm.refl _⟩

theorem expressions_lay : ∀ r ∈ expressions, r.LaysParts := by
  simp only [expressions, operations, primaries, designators, typedConstants,
    List.forall_mem_cons, List.forall_mem_append, List.forall_mem_map]
  dsimp only [LaysParts, rule, ruleAs, AlwaysOf, Phrase.shape, Sym.shape, Shape.Val]
  simp only [List.flatMap_append, List.flatMap_singleton, Value.parts, Shape.parts]
  dsimp only [Shape.Val]
  simp [← List.map_eq_flatMap, Expr.children, Expr.info, integerOf_lays, realOf_lays, stringOf_lays,
    callOf_lays, stringCall_lays]
  exact fun e => callOf_lays e []

theorem all_lay : ∀ r ∈ all, r.LaysParts := by
  simp only [all, List.forall_mem_append]
  exact ⟨⟨⟨⟨⟨⟨⟨goals_lay, names_lay⟩, sections_lay⟩, routines_lay⟩, types_lay⟩, members_lay⟩,
    statements_lay⟩, expressions_lay⟩

end Rules

end ObjectPascal.Rule
