import ObjectPascal.Proofs.Binding.Later
import ObjectPascal.Proofs.Syntax.Walk

/-!
What becomes of a name: it is replaced, or it is reported, or it stands in a method that is skipped
with an error, or in a part that binding does not look into. A step settles some nodes if it
accounts for all names among them; steps that follow each other settle their nodes together.
Expressions and statements are looked into all over.
-/

namespace ObjectPascal

/-- The value that a field begins with. -/
def VarDecl.initial (d : VarDecl) : List Node := d.init.toList.map .expr

/-- The value that a member begins with, if it is a field. -/
def Member.initial : Member → List Node
  | .var d => d.initial
  | _ => []

namespace Node

/-- Whether a node is a name. -/
def isName : Node → Bool
  | expr (.name ..) => true
  | _ => false

/-- What binding does not look into among the members of a record without a name. -/
def overlookedIn : Member → List Node
  | .var d => d.initial
  | m => [decl m.decl]

/-- The parts of a node that binding does not look into: what the directives and the external clause
of a routine hold, what a class or an interface without a name holds, and of the members of a record
without a name all but the types of its fields. A field begins with no value in any source, and
binding does not expect one. -/
def overlooked : Node → List Node
  | decl (.callable d) => d.clauseExprs.map expr
  | decl (.composite d) => d.members.flatMap Member.initial
  | type (.record _ _ members _) => members.flatMap overlookedIn
  | type (.classType i h members f) => (TypeExpr.classType i h members f).children
  | type (.interface i h guid members d f) => (TypeExpr.interface i h guid members d f).children
  | variantCase c => c.fields.flatMap VarDecl.initial
  | _ => []

end Node

namespace Binding

/-- A name in a part that binding does not look into. -/
def Overlooked (ns : List Node) (i : NodeInfo) (name : Text) : Prop :=
  ∃ x ∈ ns, ∃ p ∈ x.overlooked, .expr (.name i name) ∈ p.nodes

/-- A name is replaced, or the target of an assignment that it is called in is. -/
def Resolved (ns : List Node) (c : Binding) (i : NodeInfo) (name : Text) : Prop :=
  (c.notes.effective (.name i name)).isStandIn = true ∨
    ∃ info j args value, .stmt (.assign info (.call j (.name i name) args) value) ∈ ns ∧
      args.getD [] = [] ∧ ∃ r, c.notes.substitutes[j.id]? = some r ∧ r.isStandIn = true

/-- The findings that tell of unknown names. -/
def doubts (c : Binding) : Array Finding := if c.scopes.config.strict then c.errors else c.warnings

/-- A name is reported as unknown. -/
def Unknown (c : Binding) (i : NodeInfo) (name : Text) : Prop :=
  ∃ e : ScopeError, e.fault = .notFound ∧ e.name = name ∧ ⟨c.path, i.line, .scope e⟩ ∈ c.doubts

/-- A method with a body is skipped with an error, since it is not among the members of its type or
these cannot be loaded. -/
def Skipped (c : Binding) (d : CallableDecl) : Prop :=
  d.owner.isEmpty = false ∧ d.body.isSome = true ∧
    ∃ (s : Scopes) (e : ScopeError), (s.enterMethod d.owner d.name).run = some (.error e) ∧
      e.fault ≠ .compositeNotFound ∧ ⟨c.path, d.info.line, .scope e⟩ ∈ c.errors

/-- A finding tells why a name is not resolved. -/
def Reported (ns : List Node) (c : Binding) (i : NodeInfo) (name : Text) : Prop :=
  Unknown c i name ∨
    ∃ d, .decl (.callable d) ∈ ns ∧ .expr (.name i name) ∈ (Node.decl (.callable d)).nodes ∧
      Skipped c d

/-- It is known what became of a name. -/
def Accounted (ns : List Node) (c : Binding) (i : NodeInfo) (name : Text) : Prop :=
  Resolved ns c i name ∨ Reported ns c i name ∨ Overlooked ns i name

section Accounted

variable {ns ns' : List Node} {b c : Binding} {i : NodeInfo} {name : Text}

theorem Overlooked.subset (h : Overlooked ns i name) (hns : ns ⊆ ns') : Overlooked ns' i name := by
  obtain ⟨x, hx, hp⟩ := h
  exact ⟨x, hns hx, hp⟩

theorem Resolved.subset (h : Resolved ns c i name) (hns : ns ⊆ ns') : Resolved ns' c i name := by
  obtain h | ⟨info, j, args, value, hmem, hrest⟩ := h
  · exact .inl h
  · exact .inr ⟨info, j, args, value, hns hmem, hrest⟩

theorem Accounted.subset (h : Accounted ns c i name) (hns : ns ⊆ ns') :
    Accounted ns' c i name := by
  obtain h | (h | ⟨d, hd, hrest⟩) | h := h
  · exact .inl (h.subset hns)
  · exact .inr (.inl (.inl h))
  · exact .inr (.inl (.inr ⟨d, hns hd, hrest⟩))
  · exact .inr (.inr (h.subset hns))

theorem Later.doubts (h : Later b c) {f : Finding} (hf : f ∈ b.doubts) : f ∈ c.doubts := by
  unfold Binding.doubts at hf ⊢
  rw [h.config]
  split at hf <;> rename_i hstrict
  · rw [if_pos hstrict]
    exact h.errors f hf
  · rw [if_neg hstrict]
    exact h.warnings f hf

theorem Resolved.later (h : Resolved ns b i name) (hb : b.notes.StandsIn) (k : Later b c) :
    Resolved ns c i name := by
  have hc := k.notes.standsIn hb
  obtain h | ⟨info, j, args, value, hmem, hargs, r, hr, -⟩ := h
  · obtain ⟨e, he⟩ := (Annotations.isStandIn_effective_name hb).mp h
    exact .inl ((Annotations.isStandIn_effective_name hc).mpr (k.notes.keys _ e he))
  · obtain ⟨r', hr'⟩ := k.notes.keys _ r hr
    exact .inr ⟨info, j, args, value, hmem, hargs, r', hr', hc _ _ hr'⟩

theorem Accounted.later (h : Accounted ns b i name) (hb : b.notes.StandsIn) (k : Later b c) :
    Accounted ns c i name := by
  obtain h | (⟨e, hfault, hname, he⟩ | ⟨d, hd, hmem, howner, hbody, s, e, hs, hfault, he⟩) | h := h
  · exact .inl (h.later hb k)
  · exact .inr (.inl (.inl ⟨e, hfault, hname, k.doubts (k.path ▸ he)⟩))
  · exact .inr (.inl (.inr ⟨d, hd, hmem, howner, hbody, s, e, hs, hfault,
      k.errors _ (k.path ▸ he)⟩))
  · exact .inr (.inr h)

end Accounted

/-- A step that loses nothing and accounts for all names among some nodes. -/
def Settles {α : Type} (m : Bind α) (ns : List Node) : Prop :=
  ∀ b, b.notes.StandsIn → Ends m b (fun _ c => Later b c ∧
    ∀ i name, .expr (.name i name) ∈ ns → Accounted ns c i name) fun _ _ => True

/-- No name is among the nodes. -/
def Nameless (ns : List Node) : Prop := ∀ i name, .expr (.name i name) ∉ ns

namespace Settles

variable {α β : Type} {m : Bind α} {ns ns' : List Node}

/-- The nodes may be more, if what is added holds no names but overlooked ones. -/
theorem widen (h : Settles m ns) (hns : ns ⊆ ns')
    (hnames : ∀ i name, .expr (.name i name) ∈ ns' →
      .expr (.name i name) ∈ ns ∨ Overlooked ns' i name) : Settles m ns' := by
  refine fun b hb => (h b hb).mono (fun _ c hc => ⟨hc.1, fun i name hmem => ?_⟩) fun _ _ h => h
  obtain hmem | hmem := hnames i name hmem
  · exact (hc.2 i name hmem).subset hns
  · exact .inr (.inr hmem)

theorem of_eq (h : Settles m ns) (hns : ns' = ns) : Settles m ns' := hns ▸ h

/-- Another node that is no name. -/
theorem node (h : Settles m ns) {x : Node} (hx : x.isName = false := by rfl) :
    Settles m (x :: ns) := by
  refine h.widen (List.subset_cons_self x ns) fun i name hmem => .inl ?_
  obtain rfl | hmem := List.mem_cons.mp hmem
  · cases hx
  · exact hmem

theorem of_retentive (h : Retentive m) (hns : Nameless ns) : Settles m ns := fun b _ =>
  (h b (.refl b)).mono (fun _ _ hc => ⟨hc, fun i name hmem => absurd hmem (hns i name)⟩)
    fun _ _ h => h

theorem pure (a : α) : Settles (Pure.pure a : Bind α) [] :=
  of_retentive (Keeps.pure a) fun _ _ => List.not_mem_nil

theorem retentive (h : Settles m ns) {b : Binding} (hb : b.notes.StandsIn) :
    Ends m b (fun _ c => Later b c) fun _ _ => True :=
  (h b hb).mono (fun _ _ hc => hc.1) fun _ _ h => h

theorem bind {k : α → Bind β} (h : Settles m ns) (hk : ∀ a, Settles (k a) ns') :
    Settles (m >>= k) (ns ++ ns') := by
  intro b hb
  rw [Ends.bind_iff]
  refine (h b hb).mono (fun a c hc => ?_) fun _ _ h => h
  have hstands := hc.1.notes.standsIn hb
  refine (hk a c hstands).mono (fun _ d hd => ⟨hc.1.trans hd.1, fun i name hmem => ?_⟩)
    fun _ _ h => h
  obtain hmem | hmem := List.mem_append.mp hmem
  · exact ((hc.2 i name hmem).later hstands hd.1).subset (List.subset_append_left ns ns')
  · exact (hd.2 i name hmem).subset (List.subset_append_right ns ns')

/-- A step before that binds nothing. -/
theorem after {k : α → Bind β} (h : Retentive m) (hk : ∀ a, Settles (k a) ns) :
    Settles (m >>= k) ns :=
  bind (of_retentive h fun _ _ => List.not_mem_nil) hk

/-- A step behind that binds nothing. -/
theorem before {k : α → Bind β} (h : Settles m ns) (hk : ∀ a, Retentive (k a)) :
    Settles (m >>= k) ns :=
  (bind h fun a => of_retentive (hk a) fun _ _ => List.not_mem_nil).of_eq (List.append_nil ns).symm

theorem discard (h : Settles m ns) : Settles (Functor.discard m) ns := by
  intro b hb
  rw [Ends.discard_iff]
  exact h b hb

theorem ite {p : Prop} [Decidable p] {m n : Bind α} (hm : Settles m ns) (hn : Settles n ns) :
    Settles (if p then m else n) ns := by
  split
  · exact hm
  · exact hn

/-- A step for each part in turn. -/
theorem foldlM {γ : Type} {f : β → γ → Bind β} {nodes : γ → List Node}
    (hf : ∀ acc x, Settles (f acc x) (nodes x)) (l : List γ) (acc : β) :
    Settles (l.foldlM f acc) (l.flatMap nodes) := by
  induction l generalizing acc with
  | nil => exact pure _
  | cons x l ih =>
    rw [List.foldlM_cons, List.flatMap_cons]
    exact (hf acc x).bind ih

theorem forM {γ : Type} {f : γ → Bind PUnit} {nodes : γ → List Node}
    (hf : ∀ x, Settles (f x) (nodes x)) (l : List γ) : Settles (l.forM f) (l.flatMap nodes) := by
  induction l with
  | nil => exact pure _
  | cons x l ih =>
    rw [List.flatMap_cons]
    exact (hf x).bind fun _ => ih

/-! Expressions. -/

/-- What stands in for a name has the form of a stand-in. -/
theorem standIn_isStandIn (s : Scopes) (i : NodeInfo) (name : Text) (d : Decl) (called : Bool)
    (b : Binding) : Ends (standIn s (.ident i name) d called) b
      (fun r c => Later b c ∧ r.isStandIn = true) fun _ _ => True := by
  unfold standIn
  split
  · rw [Ends.bind_iff]
    refine (Retentive.newInfo i.line b (.refl b)).mono (fun info c hc => ?_) fun _ _ h => h
    rw [Ends.bind_iff]
    refine ((Retentive.recordType _ _).goesOn hc).mono (fun _ d hd => ?_) fun _ _ h => h
    exact ⟨hd, rfl⟩
  · exact ⟨.refl b, rfl⟩

/-- From here on something stands in for an expression. -/
theorem substituted {e r : Expr} (hr : r.isStandIn = true) {b : Binding} :
    Ends (annotate fun a => .ok (a.substitute e r)) b (fun _ c => Later b c ∧
      c.notes.substitutes[e.info.id]? = some r) fun _ _ => True := by
  obtain ⟨hretains, hget⟩ := b.notes.retains_substitute e hr
  exact ⟨.of_notes hretains, hget⟩

/-- A name is replaced, or it is reported as unknown. -/
theorem resolveName (i : NodeInfo) (name : Text) (called : Bool) :
    Settles (resolveName i name called) [.expr (.name i name)] := by
  have honly {c : Binding} (h : Accounted [.expr (.name i name)] c i name) :
      ∀ j other, .expr (.name j other) ∈ [Node.expr (.name i name)] →
        Accounted [.expr (.name i name)] c j other := by
    intro j other hmem
    cases List.mem_singleton.mp hmem
    exact h
  intro b hb
  unfold Binding.resolveName
  rw [Ends.bind_iff, getScopes_iff]
  split
  · -- nothing is known about the name
    unfold unresolved
    rw [Ends.bind_iff, getScopes_iff]
    dsimp only
    split
    · rename_i hstrict
      refine ⟨?_, honly (.inr (.inl (.inl ⟨b.scopes.error .notFound name, rfl, rfl, ?_⟩)))⟩
      · exact (Silent.complain i.line _).retentive b (.refl b)
      · simp [doubts, hstrict]
    · rename_i hstrict
      refine ⟨?_, honly (.inr (.inl (.inl ⟨b.scopes.error .notFound name, rfl, rfl, ?_⟩)))⟩
      · exact (Silent.warn i.line _).retentive b (.refl b)
      · simp [doubts, hstrict]
  · rename_i d place hfound
    have hreplaced (ident : NodeInfo) : Settles (do
        let substitute ← standIn b.scopes (.ident ident name) d called
        annotate fun a => .ok (a.substitute (.name i name) substitute))
        [.expr (.name i name)] := by
      intro b₁ hb₁
      rw [Ends.bind_iff]
      refine (standIn_isStandIn _ ident name d called b₁).mono (fun r c hc => ?_) fun _ _ h => h
      refine (substituted hc.2).mono (fun _ d hd => ?_) fun _ _ h => h
      have hlater := hc.1.trans hd.1
      refine ⟨hlater, honly (.inl (.inl ?_))⟩
      exact (Annotations.isStandIn_effective_name (hlater.notes.standsIn hb₁)).mpr ⟨r, hd.2⟩
    exact after (.newInfo _) (fun ident => after .update fun _ => after .update fun _ =>
      after (Retentive.recordType _ _) fun _ =>
        after (Retentive.noteNonLocal _ _ _ _) fun _ => hreplaced ident) b hb

mutual

theorem visitExpr : (e : Expr) → Settles (visitExpr e) e.nodes
  | .int .. | .real .. | .char .. | .string .. | .bool .. | .nil .. | .result .. =>
    .node (pure _)
  | .name .. => resolveName _ _ _
  | .ident .. => .node (of_retentive (.bindIdent _ _) fun _ _ => List.not_mem_nil)
  | .call info callee args => by
    have hrest : Settles (do
        Binding.visitArgs args
        bindCall (.call info callee args) callee) (argsNodes args) :=
      before (visitArgs args) fun _ => Retentive.bindCall _ callee
    refine node ?_
    unfold Binding.visitExpr
    dsimp only
    split
    · exact .bind (resolveName _ _ _) fun _ => hrest
    · exact .bind (visitExpr callee) fun _ => hrest
  | .field _ object _ => .node (.before (visitExpr object) fun _ => .bindField _ _ _)
  | .index _ array indexes => .node (.bind (visitExpr array) fun _ => visitExprs indexes)
  | .deref _ pointer => .node (visitExpr pointer)
  | .unary _ _ operand => .node (visitExpr operand)
  | .binary _ _ l r => .node (.bind (visitExpr l) fun _ => visitExpr r)
  | .range _ l r => .node (.bind (visitExpr l) fun _ => visitExpr r)
  | .set _ es => .node (visitExprs es)
  | .array _ es => .node (visitExprs es)
  | .record _ fields => .node (visitFieldInits fields)
  | .inherited _ _ args => .node (.before (visitArgs args) fun _ => .bindInherited _ _)

theorem visitExprs : (es : List Expr) → Settles (visitExprs es) (exprsNodes es)
  | [] => .pure _
  | e :: es => .bind (visitExpr e) fun _ => visitExprs es

theorem visitArgs : (args : Option (List Expr)) → Settles (visitArgs args) (argsNodes args)
  | none => .pure _
  | some es => visitExprs es

theorem visitFieldInits : (fields : List FieldInit) →
    Settles (visitFieldInits fields) (fieldInitsNodes fields)
  | [] => .pure _
  | ⟨_, _, value⟩ :: fields =>
    .node (.bind (visitExpr value) fun _ => visitFieldInits fields)

end

theorem visitOptExpr (e : Option Expr) : Settles (visitOptExpr e) (optExprNodes e) :=
  visitExprs e.toList

/-! Statements. -/

theorem rewriteResult_eq {s : Scopes} {a a' : Annotations} {target ref : Expr}
    (h : s.rewriteResult a target = .ok (some (ref, a'))) :
    (∃ name, Scopes.plainName? target = some name) ∧
      a.Retains a' ∧ a'.substitutes[target.info.id]? = some ref ∧ ref.isStandIn = true := by
  unfold Scopes.rewriteResult at h
  split at h
  · cases h
  · rename_i f hf
    obtain ⟨name, hname, -⟩ := Option.bind_eq_some_iff.mp hf
    obtain ⟨a₁, hbind, h⟩ := bind_eq_ok.mp h
    obtain ⟨a₂, htype, h⟩ := bind_eq_ok.mp h
    cases h
    have hsame : a₂.substitutes = a.substitutes := by
      rw [(Annotations.get?_of_update htype).1]
      cases hd : s.top.find? "Result" with
      | none =>
        rw [hd] at hbind
        cases hbind
        rfl
      | some d =>
        rw [hd] at hbind
        exact (Annotations.get?_of_update (f := fun an => { an with decl := some d }) hbind).1
    obtain ⟨hretains, hget⟩ := a₂.retains_substitute target
      (r := .result (a.newInfo target.info.line).1 f.name) rfl
    exact ⟨⟨name, hname⟩, (Annotations.Retains.of_eq hsame).trans hretains, hget, rfl⟩

/-- The names in a plain name with perhaps a call around. -/
theorem name_mem_of_plainName? {target : Expr} {plain : Text}
    (h : Scopes.plainName? target = some plain) {i : NodeInfo} {name : Text}
    (hmem : .expr (.name i name) ∈ target.nodes) :
    target = .name i name ∨ ∃ j args, target = .call j (.name i name) args ∧ args.getD [] = [] := by
  unfold Scopes.plainName? at h
  split at h
  · simp only [Expr.nodes, List.mem_singleton, Node.expr.injEq] at hmem
    exact .inl hmem.symm
  · simp [Expr.nodes] at hmem
  · simp [Expr.nodes, argsNodes] at hmem
    exact .inr ⟨_, none, by rw [hmem.1, hmem.2], rfl⟩
  · simp [Expr.nodes, argsNodes] at hmem
  · simp [Expr.nodes, argsNodes, exprsNodes] at hmem
    exact .inr ⟨_, some [], by rw [hmem.1, hmem.2], rfl⟩
  · simp [Expr.nodes, argsNodes, exprsNodes] at hmem
  · cases h

/-- The target of an assignment is bound, or it is replaced as a whole. -/
theorem visitTarget (info : NodeInfo) (target value : Expr) :
    Settles (visitTarget target) (.stmt (.assign info target value) :: target.nodes) := by
  intro b hb
  unfold Binding.visitTarget
  rw [Ends.bind_iff, getScopes_iff, Ends.bind_iff, getNotes_iff]
  split
  · trivial
  · rename_i ref notes hresult
    obtain ⟨⟨plain, hplain⟩, hretains, hget, href⟩ := rewriteResult_eq hresult
    have hlater : Later b { b with notes } := .of_notes hretains
    refine ⟨hlater, fun i name hmem => .inl ?_⟩
    have hmem : .expr (.name i name) ∈ target.nodes := by simpa using hmem
    obtain rfl | ⟨j, args, rfl, hargs⟩ := name_mem_of_plainName? hplain hmem
    · exact .inl ((Annotations.isStandIn_effective_name (hlater.notes.standsIn hb)).mpr ⟨ref, hget⟩)
    · exact .inr ⟨info, j, args, value, List.mem_cons_self, hargs, ref, hget, href⟩
  · exact node (visitExpr target) rfl b hb

theorem caseRange (label : Expr) : Settles (caseRange label) label.nodes := by
  unfold Binding.caseRange
  split
  · rename_i info low high
    refine node (bind (visitExpr low) fun _ => before (visitExpr high) fun _ => ?_)
    refine .after (.caseValue low) fun l => .after (.caseValue high) fun h => ?_
    split
    · split
      · exact .after (.complain _ _) fun _ => .pure _
      · exact .pure _
    · exact .pure _
  · exact .before (visitExpr _) fun _ => .after (.caseValue _) fun _ => .pure _

theorem caseLabels (seen : List CaseRange) (labels : List Expr) :
    Settles (caseLabels seen labels) (exprsNodes labels) := by
  rw [exprsNodes_eq_flatMap]
  refine foldlM (fun seen label => .before (caseRange label) fun r => ?_) labels seen
  split
  · exact .pure _
  · exact .after (.checkRepeated _ _ _) fun _ => .pure _

theorem openObjects (objects : List Expr) :
    Settles (openObjects objects) (exprsNodes objects) := by
  rw [exprsNodes_eq_flatMap]
  exact forM (fun e => .before (visitExpr e) fun _ => .openObject e) objects

theorem inHandler (info : NodeInfo) (var : Text) (type : NamedType) {body : Bind Unit}
    {ns : List Node} (hbody : Settles body ns) : Settles (inHandler info var type body) ns := by
  refine after (.resolveType type) fun _ => ite hbody (after (.enter _ _) fun _ => ?_)
  refine after (.newInfo _) fun i => after (Retentive.register _ _ _).discard fun _ => ?_
  exact before hbody fun _ => .leave

mutual

theorem visitStmt : (s : Stmt) → Settles (visitStmt s) s.nodes
  | .empty _ | .breakLoop _ | .continueLoop _ | .asm .. => .node (.pure _)
  | .compound _ ss => .node (visitStmts ss)
  | .assign _ target value => .bind (visitTarget _ target value) fun _ => visitExpr value
  | .call _ e => .node (visitExpr e)
  | .cond _ test yes no =>
    have h : Settles _ (test.nodes ++ (yes.nodes ++ optStmtNodes no)) :=
      .bind (visitExpr test) fun _ => .bind (visitStmt yes) fun _ => visitOptStmt no
    .node (.of_eq h (by simp))
  | .caseOf _ selector arms rest =>
    have h : Settles _ (selector.nodes ++ (armsNodes arms ++ stmtsNodes rest)) :=
      .bind (visitExpr selector) fun _ => .bind (visitArms [] arms) fun _ => visitStmts rest
    .node (.of_eq h (by simp))
  | .forTo _ _ low high _ body =>
    have h : Settles _ (low.nodes ++ (high.nodes ++ body.nodes)) :=
      .after (Silent.loopVariable _ _).retentive fun _ => .bind (visitExpr low) fun _ =>
        .bind (visitExpr high) fun _ => visitStmt body
    .node (.of_eq h (by simp))
  | .forIn _ _ coll body =>
    .node (.after (Silent.loopVariable _ _).retentive fun _ =>
      .bind (visitExpr coll) fun _ => visitStmt body)
  | .whileDo _ test body => .node (.bind (visitExpr test) fun _ => visitStmt body)
  | .repeatUntil _ body test => .node (.bind (visitStmts body) fun _ => visitExpr test)
  | .withDo _ objects body =>
    .node (.after Silent.getScopes.retentive fun s => .bind (openObjects objects) fun _ =>
      .before (visitStmt body) fun _ => .setScopes (f := (·.unwindTo s.depth)) fun _ => rfl)
  | .tryExcept _ body handlers rest plain =>
    have h : Settles _ (stmtsNodes body ++ (handlersNodes handlers ++
        (stmtsNodes rest ++ stmtsNodes plain))) :=
      .bind (visitStmts body) fun _ => .bind (visitHandlers handlers) fun _ =>
        .bind (visitStmts rest) fun _ => visitStmts plain
    .node (.of_eq h (by simp))
  | .tryFinally _ body finish => .node (.bind (visitStmts body) fun _ => visitStmts finish)
  | .raise _ e place => .node (.bind (visitOptExpr e) fun _ => visitOptExpr place)
  | .goto _ _ => .node (of_retentive (Silent.checkLabel _ _).retentive fun _ _ => List.not_mem_nil)
  | .labeled _ _ s => .node (.after (Silent.checkLabel _ _).retentive fun _ => visitStmt s)

theorem visitStmts : (ss : List Stmt) → Settles (visitStmts ss) (stmtsNodes ss)
  | [] => .pure _
  | s :: ss => .bind (visitStmt s) fun _ => visitStmts ss

theorem visitOptStmt : (s : Option Stmt) → Settles (visitOptStmt s) (optStmtNodes s)
  | none => .pure _
  | some s => visitStmt s

theorem visitArms (seen : List CaseRange) : (arms : List CaseArm) →
    Settles (visitArms seen arms) (armsNodes arms)
  | [] => .pure _
  | ⟨i, labels, body⟩ :: arms =>
    have h : Settles _ (exprsNodes labels ++ (body.nodes ++ armsNodes arms)) :=
      .bind (caseLabels seen labels) fun seen => .bind (visitStmt body) fun _ =>
        visitArms seen arms
    .node (.of_eq h (by simp))

theorem visitHandlers : (handlers : List Handler) →
    Settles (visitHandlers handlers) (handlersNodes handlers)
  | [] => .pure _
  | ⟨_, _, _, body⟩ :: handlers =>
    .node (.node (.bind (inHandler _ _ _ (visitStmt body)) fun _ => visitHandlers handlers))

end

end Settles
end Binding
end ObjectPascal
