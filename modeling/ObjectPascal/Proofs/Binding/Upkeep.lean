import ObjectPascal.Proofs.Binding.Orderly

/-!
Binding a source keeps all in order. This holds of the step for each form of node, and so of the
whole walk.
-/

namespace ObjectPascal.Binding

variable {α : Type} {last : Nat} {A : Decl → Prop}

/-- What is recorded stays while a name is declared. -/
theorem register_inOrder {b : Binding} (hb : InOrder last A b) (line : Nat) (name : Text) {d : Decl}
    (hd : A d) : Ends (register line name d) b
      (fun _ c => InOrder last A c ∧ c.notes = b.notes ∧ c.implicit = b.implicit)
      fun _ _ => True := by
  unfold Binding.register
  rw [Ends.bind_iff, getScopes_iff]
  dsimp only
  have hscopes : (if Scopes.createsFrame d = true then b.scopes.enter name (some d)
      else b.scopes).Holds A := by
    split
    · exact hb.sight.enter name _
    · exact hb.sight
  split
  · rename_i t ht
    have hregistered := hscopes.register hd ht
    refine ⟨hb.rescoped ?_, rfl, rfl⟩
    split
    · exact hregistered.unwindTo _
    · exact hregistered
  · exact ⟨hb.recorded ⟨rfl, rfl, rfl, Nat.le_refl _, fun _ _ => .inl⟩, rfl, rfl⟩

/-- A variable that no source declares is made for a routine. -/
theorem declareImplicit_inOrder {b c : Binding} (hb : InOrder last A b) (hc : InOrder last A c)
    (himplicit : c.implicit = b.implicit) {v : VarDecl} (hnew : b.notes.next ≤ v.info.id)
    (hmade : v.info.id < c.notes.next) (hv : A (.var v)) (d : CallableDecl) :
    Ends (declareImplicit d v) c
      (fun _ e => InOrder last A e ∧ e.notes.next = c.notes.next) fun _ _ => True := by
  unfold Binding.declareImplicit
  rw [Ends.bind_iff, Ends.discard_iff]
  refine (register_inOrder hc _ _ hv).mono (fun _ e he => ?_) fun _ _ h => h
  obtain ⟨he, hnotes, hsame⟩ := he
  exact ⟨hb.declared he (hsame.trans himplicit) hnew (hnotes ▸ hmade) d, by rw [hnotes]⟩

namespace OrderlyWithin

theorem register (line : Nat) (name : Text) {d : Decl} (hd : A d) :
    OrderlyWithin last A 0 (register line name d) := fun _ hb _ =>
  (register_inOrder hb line name hd).mono (fun _ _ hc => ⟨hc.1, Nat.le_of_eq (by rw [hc.2.1]; rfl)⟩)
    fun _ _ h => h

/-- A new node before a step that may refer to it. -/
theorem made (line : Nat) {k : NodeInfo → Bind α} {r : Nat}
    (hk : ∀ i, OrderlyWithin last A r (k i)) : OrderlyWithin last A (r + 1) (newInfo line >>= k) := by
  intro b hb hroom
  rw [Ends.bind_iff]
  refine (newInfo_ends A (by omega) line).mono (fun i c hc => ?_) fun _ _ h => h
  obtain ⟨-, hnext, hrecorded⟩ := hc
  refine (hk i c (hb.recorded hrecorded) (by omega)).mono (fun _ d hd => ⟨hd.1, ?_⟩) fun _ _ h => h
  have hless := hd.2
  omega

section Implicit

variable (hplain : ∀ d : Decl, d.isValued = false → A d)
include hplain

theorem declareResult (d : CallableDecl) : OrderlyWithin last A 1 (declareResult d) := by
  unfold Binding.declareResult
  split
  · intro b hb hroom
    rw [Ends.bind_iff]
    refine (newInfo_ends A hroom _).mono (fun i c hc => ?_) fun _ _ h => h
    obtain ⟨hi, hnext, hrecorded⟩ := hc
    refine (declareImplicit_inOrder hb (hb.recorded hrecorded) hrecorded.implicit
      (v := { info := i, name := "Result", type := d.result, kind := .result })
      (Nat.le_of_eq hi.symm) ?_ (hplain _ rfl) d).mono (fun _ e he => ⟨he.1, ?_⟩) fun _ _ h => h
    · dsimp only
      omega
    · have hsame := he.2
      omega
  · exact (records (.silent (.pure _))).mono (Nat.zero_le 1)

theorem declareSelf (d : CallableDecl) : OrderlyWithin last A 2 (declareSelf d) := by
  intro b hb hroom
  unfold Binding.declareSelf
  rw [Ends.bind_iff]
  refine (newInfo_ends A (by omega) _).mono (fun i c hc => ?_) fun _ _ h => h
  obtain ⟨hi, hnext, hrecorded⟩ := hc
  dsimp only
  rw [Ends.bind_iff]
  refine (newInfo_ends A (by omega) _).mono (fun j e he => ?_) fun _ _ h => h
  obtain ⟨-, hnext', hrecorded'⟩ := he
  have hall := hrecorded.trans hrecorded'
  refine (declareImplicit_inOrder hb (hb.recorded hall) hall.implicit
    (v := { info := i, name := "Self", type := some (.named { info := j, name := d.owner }) })
    (Nat.le_of_eq hi.symm) ?_ (hplain _ rfl) d).mono (fun _ x hx => ⟨hx.1, ?_⟩) fun _ _ h => h
  · dsimp only
    omega
  · have hsame := hx.2
    omega

end Implicit

end OrderlyWithin

namespace Orderly

variable {ns : List Node}

/-! Declaring names. -/

theorem register (line : Nat) (name : Text) {d : Decl} (hd : A d) :
    Orderly last A (register line name d) ns := within (.register line name hd) (Nat.zero_le _)

theorem enter (name : Text) (owner : Option Decl) : Orderly last A (enter name owner) ns :=
  within (.setScopes fun _ hs => hs.enter name owner) (Nat.zero_le _)

/-- A new node, which is made for one of the nodes. -/
theorem made {line : Nat} {k : NodeInfo → Bind α} {x : Node}
    (hk : ∀ i, Orderly last A (k i) ns) : Orderly last A (newInfo line >>= k) (x :: ns) :=
  fun hns => (OrderlyWithin.made line fun i =>
    hk i fun d hd => hns d (hd.imp_right (List.mem_cons_of_mem x))).mono
      (by rw [List.length_cons]; omega)

theorem leave : Orderly last A leave ns := by
  intro _ b hb _
  unfold Binding.leave
  rw [Ends.bind_iff, getScopes_iff]
  split
  · rename_i f s hs
    exact ⟨hb.rescoped (hb.sight.leave? hs), Nat.le_add_right _ _⟩
  · trivial

/-- A frame is entered and left again. -/
theorem framed (name : Text) (owner : Option Decl) {m : Bind Unit} (h : Orderly last A m ns) :
    Orderly last A (do Binding.enter name owner; m; Binding.leave) ns :=
  ahead (enter name owner) fun _ => behind h fun _ => leave

theorem declareType {d : Decl} (hd : isTypeDecl d = true) : Orderly last A (declareType d) ns := by
  intro hns b hb hroom
  have hA : A d := hns d (.inl (by cases d <;> first | rfl | cases hd))
  unfold Binding.declareType
  rw [Ends.bind_iff, getScopes_iff]
  split
  · split
    · rename_i t ht
      exact ⟨hb.rescoped (hb.sight.redeclare hA ht), Nat.le_add_right _ _⟩
    · exact silent (.complain _ _) hns b hb hroom
  · exact discard (register _ _ hA) hns b hb hroom

theorem declareTypes (declared : Bool) (ds : List Decl) (hds : ∀ d ∈ ds, isTypeDecl d = true) :
    Orderly last A (declareTypes declared ds) [] := by
  refine ite (pure _) ?_
  induction ds with
  | nil => exact pure _
  | cons d ds ih =>
    obtain ⟨hd, hds⟩ := List.forall_mem_cons.mp hds
    exact ahead (declareType hd) fun _ => ih hds

/-! Expressions. -/

theorem bindField (e object : Expr) (field : Text) :
    Orderly last A (bindField e object field) ns := by
  intro hns b hb hroom
  unfold Binding.bindField
  rw [Ends.bind_iff, getNotes_iff, Ends.bind_iff, getScopes_iff]
  split
  · split
    · rename_i d hd
      exact bindTo _ (hb.sight.find? hd) hns b hb hroom
    · exact silent (.unresolved _ _) hns b hb hroom
  · refine (after (Silent.compositeOf object) fun type => ?_ : Orderly last A _ ns) hns b hb hroom
    split
    · exact pure _
    · refine after (Silent.ended _) fun r => ?_
      split
      · exact silent (.lookupFailed _ _)
      · rename_i m
        exact ahead (bindTo _ (hns _ (.inl m.isValued_decl))) fun _ =>
          within (.records (.recordType e _)) (Nat.zero_le _)

theorem bindInherited (e : Expr) (method : Text) : Orderly last A (bindInherited e method) ns := by
  refine plain fun hplain => after Silent.getScopes fun s => ?_
  split
  · exact pure _
  · split
    · exact pure _
    · refine after (Silent.ended _) fun r => ?_
      split
      · rename_i m
        exact bindTo _ (hplain _ m.isValued_decl)
      · split
        · exact pure _
        · exact silent (.complain _ _)

mutual

theorem visitExpr : (e : Expr) → Orderly last A (visitExpr e) e.nodes
  | .int .. | .real .. | .char .. | .string .. | .bool .. | .nil .. | .result .. => pure _
  | .name .. => resolveName _ _ _
  | .ident .. => bindIdent _ _
  | .call info callee args => by
    have hrest : Orderly last A (do
        Binding.visitArgs args
        Binding.bindCall (.call info callee args) callee) (argsNodes args) :=
      behind (visitArgs args) fun _ => bindCall _ callee
    unfold Binding.visitExpr
    dsimp only
    split
    · exact node (bind (resolveName _ _ _) fun _ => hrest)
    · exact node (bind (visitExpr callee) fun _ => hrest)
  | .field _ object name => node (behind (visitExpr object) fun _ => bindField _ object name)
  | .index _ array indexes => node (bind (visitExpr array) fun _ => visitExprs indexes)
  | .deref _ pointer => node (visitExpr pointer)
  | .unary _ _ operand => node (visitExpr operand)
  | .binary _ _ l r => node (bind (visitExpr l) fun _ => visitExpr r)
  | .range _ l r => node (bind (visitExpr l) fun _ => visitExpr r)
  | .set _ es => node (visitExprs es)
  | .array _ es => node (visitExprs es)
  | .record _ fields => node (visitFieldInits fields)
  | .inherited _ method args => node (behind (visitArgs args) fun _ => bindInherited _ method)

theorem visitExprs : (es : List Expr) → Orderly last A (visitExprs es) (exprsNodes es)
  | [] => pure _
  | e :: es => bind (visitExpr e) fun _ => visitExprs es

theorem visitArgs : (args : Option (List Expr)) → Orderly last A (visitArgs args) (argsNodes args)
  | none => pure _
  | some es => visitExprs es

theorem visitFieldInits : (fields : List FieldInit) →
    Orderly last A (visitFieldInits fields) (fieldInitsNodes fields)
  | [] => pure _
  | ⟨_, _, value⟩ :: fields => node (bind (visitExpr value) fun _ => visitFieldInits fields)

end

theorem visitOptExpr (e : Option Expr) : Orderly last A (visitOptExpr e) (optExprNodes e) :=
  visitExprs e.toList

/-! Statements. -/

/-- The reference that replaces the name of a function is made for it. -/
theorem visitTarget (e : Expr) : Orderly last A (visitTarget e) e.nodes := by
  intro hns b hb hroom
  have hpos : 1 ≤ e.nodes.length := by
    rw [Node.expr_nodes, List.length_cons]
    omega
  unfold Binding.visitTarget
  rw [Ends.bind_iff, getScopes_iff, Ends.bind_iff, getNotes_iff]
  split
  · trivial
  · rename_i ref notes hresult
    obtain ⟨f, a, rfl, hsub, hnext, hmeant, rfl⟩ := rewriteResult_steps hresult
    have hnext : a.next = b.notes.next + 1 := hnext.trans (Nat.mod_eq_of_lt (by omega))
    have hrecorded : Recorded A b { b with notes := a } :=
      ⟨rfl, rfl, hsub, by dsimp only; omega, fun i d hd =>
        (hmeant i d hd).imp_right (hb.sight.top _ d)⟩
    refine ⟨hb.substituted hrecorded e rfl (Nat.le_refl _) ?_, ?_⟩
    · exact hnext ▸ Nat.lt_succ_self b.notes.next
    · change a.next ≤ _
      omega
  · exact visitExpr e hns b hb hroom

theorem caseRange (label : Expr) : Orderly last A (caseRange label) label.nodes := by
  unfold Binding.caseRange
  split
  · rename_i info low high
    refine node (bind (visitExpr low) fun _ => before (visitExpr high) fun _ => ?_)
    refine .bind (Silent.caseValue low) fun l => .bind (Silent.caseValue high) fun h => ?_
    split
    · split
      · exact .bind (Silent.complain _ _) fun _ => .pure _
      · exact .pure _
    · exact .pure _
  · exact before (visitExpr label) fun _ => .bind (Silent.caseValue label) fun _ => .pure _

theorem caseLabels (seen : List CaseRange) (labels : List Expr) :
    Orderly last A (caseLabels seen labels) (exprsNodes labels) := by
  rw [exprsNodes_eq_flatMap]
  refine foldlM (fun seen label => before (caseRange label) fun r => ?_) labels seen
  split
  · exact .pure _
  · exact .bind (Silent.checkRepeated _ _ _) fun _ => .pure _

/-- The members of each object are put in sight. -/
theorem openObjects (objects : List Expr) :
    Orderly last A (openObjects objects) (exprsNodes objects) := by
  rw [exprsNodes_eq_flatMap]
  refine forM (fun e => ?_) objects
  refine (bind (visitExpr e) fun _ => (?_ : Orderly last A _ [])).of_eq (List.append_nil _).symm
  refine plain fun hplain => after (Silent.compositeOf e) fun type => ?_
  split
  · exact pure _
  · intro hns b hb hroom
    rw [Ends.bind_iff, getScopes_iff]
    split
    · rename_i s k hs
      exact ⟨hb.rescoped (hb.sight.loadHeritage hplain hs), Nat.le_add_right _ _⟩
    · exact silent (.lookupFailed _ _) hns b hb hroom

/-- What is opened for a statement is closed after it. -/
theorem withObjects (objects : List Expr) {body : Bind Unit} (hbody : Orderly last A body ns) :
    Orderly last A (do
      let depth := (← getScopes).depth
      Binding.openObjects objects
      body
      setScopes ((← getScopes).unwindTo depth)) (exprsNodes objects ++ ns) := by
  refine after Silent.getScopes fun s => bind (openObjects objects) fun _ => ?_
  have hclosed : Orderly last A (do setScopes ((← getScopes).unwindTo s.depth)) [] :=
    within (.setScopes fun _ ht => ht.unwindTo _) (Nat.zero_le _)
  exact (bind hbody fun _ => hclosed).of_eq (List.append_nil ns).symm

theorem resolveType (t : NamedType) : Orderly last A (resolveType t) ns := by
  refine plain fun hplain => after Silent.getScopes fun s => ?_
  dsimp only
  split
  · exact silent (.unresolved _ _)
  · exact bindTo _ (hplain _ rfl)
  · exact bindTo _ (hplain _ rfl)
  · exact silent (.misused _ _)

theorem inHandler (h : Handler) {body : Bind Unit} (hbody : Orderly last A body ns) :
    Orderly last A (inHandler h.info h.var h.type body)
      (.handler h :: .type (.named h.type) :: ns) := by
  have hinside : Orderly last A (do
      let i ← newInfo h.info.line
      Functor.discard (Binding.register h.info.line h.var
        (.var { info := i, name := h.var, type := some (.named h.type) }))
      body) (.handler h :: ns) :=
    plain fun hplain => made fun i =>
      ahead (discard (register _ _ (hplain _ rfl))) fun _ => hbody
  have hframed := framed ("on " ++ h.var) none hinside
  simp only [bind_assoc] at hframed
  have hall := ahead (resolveType h.type) fun _ =>
    ite (p := h.var.isEmpty = true) hbody.node hframed
  exact hall.widen (.cons_cons _ (List.sublist_cons_self _ _))

mutual

theorem visitStmt : (s : Stmt) → Orderly last A (visitStmt s) s.nodes
  | .empty _ | .breakLoop _ | .continueLoop _ | .asm .. => node (pure _)
  | .compound _ ss => node (visitStmts ss)
  | .assign _ target value => node (bind (visitTarget target) fun _ => visitExpr value)
  | .call _ e => node (visitExpr e)
  | .cond _ test yes no =>
    have h := bind (visitExpr test) fun _ => bind (visitStmt yes) fun _ => visitOptStmt no
    node (h.of_eq (by simp))
  | .caseOf _ selector arms rest =>
    have h := bind (visitExpr selector) fun _ => bind (visitArms [] arms) fun _ => visitStmts rest
    node (h.of_eq (by simp))
  | .forTo info var low high _ body =>
    have h := after (.loopVariable info.line var) fun _ => bind (visitExpr low) fun _ =>
      bind (visitExpr high) fun _ => visitStmt body
    node (h.of_eq (by simp))
  | .forIn _ _ coll body =>
    node (after (.loopVariable _ _) fun _ => bind (visitExpr coll) fun _ => visitStmt body)
  | .whileDo _ test body => node (bind (visitExpr test) fun _ => visitStmt body)
  | .repeatUntil _ body test => node (bind (visitStmts body) fun _ => visitExpr test)
  | .withDo _ objects body => node (withObjects objects (visitStmt body))
  | .tryExcept _ body handlers rest plain =>
    have h := bind (visitStmts body) fun _ => bind (visitHandlers handlers) fun _ =>
      bind (visitStmts rest) fun _ => visitStmts plain
    node (h.of_eq (by simp))
  | .tryFinally _ body finish => node (bind (visitStmts body) fun _ => visitStmts finish)
  | .raise _ e place => node (bind (visitOptExpr e) fun _ => visitOptExpr place)
  | .goto _ _ => node (silent (.checkLabel _ _))
  | .labeled _ _ s => node (after (.checkLabel _ _) fun _ => visitStmt s)

theorem visitStmts : (ss : List Stmt) → Orderly last A (visitStmts ss) (stmtsNodes ss)
  | [] => pure _
  | s :: ss => bind (visitStmt s) fun _ => visitStmts ss

theorem visitOptStmt : (s : Option Stmt) → Orderly last A (visitOptStmt s) (optStmtNodes s)
  | none => pure _
  | some s => visitStmt s

theorem visitArms (seen : List CaseRange) : (arms : List CaseArm) →
    Orderly last A (visitArms seen arms) (armsNodes arms)
  | [] => pure _
  | ⟨i, labels, body⟩ :: arms =>
    have h := bind (caseLabels seen labels) fun seen => bind (visitStmt body) fun _ =>
      visitArms seen arms
    node (h.of_eq (by simp))

theorem visitHandlers : (handlers : List Handler) →
    Orderly last A (visitHandlers handlers) (handlersNodes handlers)
  | [] => pure _
  | ⟨i, var, type, body⟩ :: handlers =>
    have h := bind (inHandler ⟨i, var, type, body⟩ (visitStmt body)) fun _ => visitHandlers handlers
    h.of_eq (by simp [handlersNodes])

end

/-! Types. -/

/-- The position of a member is recorded, which is a constant of the member itself. -/
theorem declareEnumMember (type : TypeExpr) (name : Text) (next : UInt64) (m : EnumMember) :
    Orderly last A (declareEnumMember type name next m)
      (.decl (.enumMember m) :: optExprNodes m.value) := by
  intro hA
  have hm : A (.enumMember m) := hA _ (.inr List.mem_cons_self)
  have hposition : Orderly last A (memberPosition next m.value) (optExprNodes m.value) := by
    cases m.value with
    | none => exact pure _
    | some e =>
      have h : Orderly last A (memberPosition next (some e)) e.nodes :=
        before (visitExpr e) fun _ => .bind (Silent.constant e) fun v => by split <;> exact .pure _
      exact h.of_eq (by simp [optExprNodes, exprsNodes])
  have hself (position : UInt64) (free : Bool) : Orderly last A (do
      if free then
        annotate (·.setConst (.decl (.enumMember m)) (some type)
          (.integral (.ofEnum name position)))
      return position + 1) [] := by
    split
    · exact before (within (.records (.setConst _ _ _)) (Nat.zero_le _)) fun _ => .pure _
    · exact pure _
  have h := bind hposition fun position => ahead (register m.info.line m.name hm)
    fun free => hself position free
  exact h.widen (by simp) hA

theorem visitEnum (info : NodeInfo) (members : List EnumMember) (name : Text) :
    Orderly last A (visitEnum info members name) (enumMembersNodes members) :=
  discard (foldlM (declareEnumMember _ _) members 0)

theorem visitSubrange (info : NodeInfo) (low high : Expr) :
    Orderly last A (visitSubrange info low high) (low.nodes ++ high.nodes) := by
  refine bind (visitExpr low) fun _ => before (visitExpr high) fun _ => ?_
  refine .bind (Silent.folding fun _ => Folding.Spares.subrangeSize low high) fun r => ?_
  split
  · exact .pure _
  · exact Silent.complain _ _

theorem visitLength (e : Expr) : Orderly last A (visitLength e) (optExprNodes (some e)) :=
  of_eq (before (visitExpr e) fun _ => (Silent.constant e).discard)
    (by simp [optExprNodes, exprsNodes])

theorem declareTag (info : NodeInfo) (tag : Text) (type : TypeExpr) {x : Node} :
    Orderly last A (declareTag info tag type) [x] := by
  unfold Binding.declareTag
  split
  · exact pure _
  · exact plain fun hplain => made fun i => discard (register _ _ (hplain _ rfl))

/-- What is declared without a value. -/
theorem declared (line : Nat) (name : Text) {d : Decl} (hd : d.isValued = false) :
    Orderly last A (Functor.discard (Binding.register line name d)) ns :=
  plain fun hplain => discard (register line name (hplain d hd))

mutual

theorem visitType (t : TypeExpr) (name : Text) : Orderly last A (visitType t name) t.nodes :=
  match t with
  | .ordinal .. | .real .. | .rawPointer .. | .rawString .. | .variant .. => node (pure _)
  | .named t => resolveType t
  | .string _ none => node (pure _)
  | .string _ (some e) => node (visitLength e)
  | .subrange info low high => node (visitSubrange info low high)
  | .enum info members => node (visitEnum info members name)
  | .pointer _ t => node (visitType t ∅)
  | .classRef _ t => node (visitType t ∅)
  | .set _ t => node (visitType t ∅)
  | .array _ _ index elem _ => node (bind (visitTypes index) fun _ => visitOptType elem)
  | .file _ elem => node (visitOptType elem)
  | .record _ _ members part => by
    have h := framed "record" none (bind (visitFields members) fun _ => visitVariant part)
    simp only [bind_assoc] at h
    exact node h
  | .proc _ params result _ => by
    have h := framed "proc" none (bind (visitOptParams params) fun _ => visitOptType result)
    simp only [bind_assoc] at h
    exact node h
  | .classType .. | .interface .. => (pure _).widen (List.nil_sublist _)

theorem visitTypes : (ts : List TypeExpr) → Orderly last A (visitTypes ts) (typesNodes ts)
  | [] => pure _
  | t :: ts => bind (visitType t ∅) fun _ => visitTypes ts

theorem visitOptType : (t : Option TypeExpr) → Orderly last A (visitOptType t) (optTypeNodes t)
  | none => pure _
  | some t => visitType t ∅

theorem visitParams : (params : List ParamDecl) →
    Orderly last A (visitParams params) (paramsNodes params)
  | [] => pure _
  | ⟨_, _, _, type, default⟩ :: params =>
    have h := bind (visitOptType type) fun _ => bind (visitOptExpr default) fun _ =>
      ahead (declared _ _ rfl) fun _ => visitParams params
    node (h.of_eq (by simp))

theorem visitOptParams : (params : Option (List ParamDecl)) →
    Orderly last A (visitOptParams params) (optParamsNodes params)
  | none => pure _
  | some params => visitParams params

theorem visitField : (d : VarDecl) → Orderly last A (visitField d) d.nodes
  | ⟨_, _, type, init, _, _, _⟩ =>
    have h := behind (visitOptType type) fun _ => declared _ _ rfl
    node (h.widen (List.sublist_append_left _ (optExprNodes init)))

theorem visitFields : (members : List Member) →
    Orderly last A (visitFields members) (membersNodes members)
  | [] => pure _
  | .var d :: members => bind (visitField d) fun _ => visitFields members
  | .callable _ :: members => (visitFields members).widen (List.sublist_append_right _ _)
  | .property _ :: members => (visitFields members).widen (List.sublist_append_right _ _)

theorem visitCaseFields : (ds : List VarDecl) →
    Orderly last A (visitCaseFields ds) (varsNodes ds)
  | [] => pure _
  | d :: ds => bind (visitField d) fun _ => visitCaseFields ds

theorem visitVariantCases : (cases : List VariantCase) →
    Orderly last A (visitVariantCases cases) (variantCasesNodes cases)
  | [] => pure _
  | ⟨i, labels, fields⟩ :: cases =>
    have h := bind (visitExprs labels) fun _ => bind (visitCaseFields fields) fun _ =>
      visitVariantCases cases
    node (h.of_eq (by simp))

theorem visitVariant : (part : Option VariantPart) →
    Orderly last A (visitVariant part) (optVariantNodes part)
  | none => pure _
  | some ⟨i, tag, tagType, cases⟩ => by
    -- the part pays for the variable of its tag
    have h := bind (visitType tagType ∅) fun _ =>
      bind (declareTag i tag tagType (x := .variantPart ⟨i, tag, tagType, cases⟩)) fun _ =>
        visitVariantCases cases
    exact h.subperm (List.perm_middle.subperm)

end

/-! Declarations. -/

/-- Nothing is met besides the walk. -/
theorem walked {m : Bind α} (h : Orderly last A m ns) : Orderly last A m (ns.flatMap visits) :=
  h.widen (sublist_visits ns)

theorem visitRest (d : CompositeDecl) :
    Orderly last A (visitRest d.type) (d.rest.flatMap Node.nodes) := by
  unfold Binding.visitRest CompositeDecl.rest
  cases d.type with
  | record i packed members part =>
    exact (visitVariant part).of_eq (optVariantNodes_eq part).symm
  | interface i heritage guid members dispatch forward =>
    exact (visitOptExpr guid).of_eq (optExprNodes_eq guid).symm
  | _ => exact pure _

theorem bindHeading (d : CallableDecl) (owner : Option Decl) :
    Orderly last A (bindHeading d owner) ns := by
  unfold Binding.bindHeading
  split
  · exact plain fun hplain => bindTo _ (hplain _ rfl)
  · exact pure _

theorem registerRoutine (d : CallableDecl) : Orderly last A (registerRoutine d) ns := by
  intro hns b hb hroom
  unfold Binding.registerRoutine
  rw [Ends.bind_iff, getScopes_iff]
  split
  · rename_i t ht
    rw [Ends.bind_iff, setScopes_iff]
    have hb := hb.rescoped (hb.sight.register (hns _ (.inl rfl)) ht)
    exact (ite (silent (Silent.addOverload d)) (pure _) : Orderly last A _ ns) hns _ hb hroom
  · exact silent (.complain _ _) hns b hb hroom

theorem declareRoutine (previous : Option Decl) (d : CallableDecl) :
    Orderly last A (declareRoutine previous d) ns := by
  unfold Binding.declareRoutine
  split
  · refine ite (silent (Silent.addOverload d)) (ite ?_ (registerRoutine d))
    intro hns b hb hroom
    rw [Ends.bind_iff, getScopes_iff]
    split
    · rename_i t ht
      exact ⟨hb.rescoped (hb.sight.redeclare (hns _ (.inl rfl)) ht), Nat.le_add_right _ _⟩
    · exact silent (.complain _ _) hns b hb hroom
  · exact registerRoutine d

theorem inRoutine (d : CallableDecl) {inside : Bind Unit} (h : Orderly last A inside ns) :
    Orderly last A (inRoutine d inside) ns := by
  have hframed (previous : Option Decl) :=
    framed d.name (some (.callable d)) (ahead (declareRoutine previous d) fun _ => h)
  simp only [bind_assoc] at hframed
  exact after .getScopes fun _ => hframed _

/-- A method pays for its object. -/
theorem declareSelf (d : CallableDecl) (x : Node) : Orderly last A (declareSelf d) [x] :=
  plain fun hplain => within (.declareSelf hplain d) (by simp)

theorem leaveMethod (context : Scopes.MethodContext) :
    Orderly last A (leaveMethod context) ns := by
  intro _ b hb _
  have hleft := hb.rescoped (hb.sight.leaveMethod context)
  unfold Binding.leaveMethod
  rw [Ends.bind_iff, getScopes_iff]
  dsimp only
  rw [Ends.bind_iff, setScopes_iff]
  split
  · exact ⟨hleft, Nat.le_add_right _ _⟩
  · trivial

theorem inMethod (d : CallableDecl) {inside : Bind Unit} (h : Orderly last A inside ns) :
    Orderly last A (inMethod d inside) (.decl (.callable d) :: ns) := by
  have hinside := bind (declareSelf d (.decl (.callable d))) fun _ => h
  refine plain fun hplain => ?_
  unfold Binding.inMethod
  intro hns b hb hroom
  rw [Ends.bind_iff, getScopes_iff, Ends.bind_iff]
  cases hx : b.scopes.enterMethod d.owner d.name with
  | none => trivial
  | some r =>
    rw [ended_some_iff]
    cases r with
    | error e =>
      have hframed := framed d.name (some (.callable d)) hinside
      simp only [bind_assoc] at hframed
      exact after (.lookupFailed _ _) (fun _ => ite hframed (pure _)) hns b hb hroom
    | ok r =>
      obtain ⟨s, context⟩ := r
      have hall := ahead (bindHeading d s.top.owner) fun _ =>
        behind hinside fun _ => leaveMethod context
      simp only [bind_assoc] at hall
      exact hall hns _ (hb.rescoped (hb.sight.enterMethod hplain hx)) hroom

/-- A block pays for the variable of a result. -/
theorem inBody (d : CallableDecl) (x : Node) {body : Bind Unit} (h : Orderly last A body ns) :
    Orderly last A (inBody d body) (x :: ns) := by
  have hresult : Orderly last A (declareResult d) [x] :=
    plain fun hplain => within (.declareResult hplain d) (by simp)
  unfold Binding.inBody
  have hbody (place : Nat) := ahead (within (.modifyRoutines (place :: ·)) (Nat.zero_le _))
    fun _ => behind h fun _ => within (.modifyRoutines (·.drop 1)) (Nat.zero_le _)
  exact bind hresult fun _ => after .getScopes fun s => hbody (s.depth - 1)

theorem declareConst (d : ConstDecl) : Orderly last A (declareConst d) [.decl (.const d)] :=
  fun hns => before (register d.info.line d.name (hns _ (.inr (List.mem_singleton_self _))))
    (fun free => .constantDeclared d free) hns

theorem declareVar (d : VarDecl) : Orderly last A (declareVar d) ns :=
  after (.checkAbsolute d) fun _ => declared _ _ rfl

theorem declareUnits (units : List UnitRef) : Orderly last A (declareUnits units) ns := by
  have hall : Orderly last A (Binding.declareUnits units) (units.flatMap fun _ => []) :=
    forM (fun u => declared _ _ rfl) units
  have hnone : units.flatMap (fun _ => ([] : List Node)) = [] := by simp
  exact (hnone ▸ hall).widen (List.nil_sublist ns)

mutual

theorem visitCallable (d : CallableDecl) :
    Orderly last A (visitCallable d) (d.nodes.flatMap visits) :=
  match d with
  | ⟨i, name, owner, kind, classMethod, params, result, directives, body, forward, external,
      visibility, builtin⟩ => by
    let d : CallableDecl := ⟨i, name, owner, kind, classMethod, params, result, directives, body,
      forward, external, visibility, builtin⟩
    have hinside : Orderly last A (insideOf d) ((boundOf d).flatMap visits) := by
      rw [boundOf, List.flatMap_append, List.flatMap_append]
      exact bind (walked (visitOptParams params)) fun _ =>
        bind (walked (visitOptType result)) fun _ => visitBody d body
    refine widen ?_ ((sublist_callable d).flatMap visits)
    rw [List.flatMap_cons, visitCallable_eq]
    exact ite (inMethod d hinside) (node (inRoutine d hinside))

theorem visitBody (d : CallableDecl) : (body : Option Block) →
    Orderly last A (visitBody d body) ((optBlockNodes body).flatMap visits)
  | none => pure _
  | some ⟨i, decls, body⟩ => by
    have h := inBody d (.block ⟨i, decls, body⟩) (bind (visitDecls false decls) fun _ =>
      walked (visitStmt body))
    exact h.of_eq (by simp [optBlockNodes, visits])

theorem visitMembers : (members : List Member) →
    Orderly last A (visitMembers members) ((membersNodes members).flatMap visits)
  | [] => pure _
  | .var d :: members => by
    have h := bind (walked (visitField d)) fun _ => visitMembers members
    exact h.of_eq (by simp [membersNodes])
  | .callable d :: members => by
    have h := bind (visitCallable d) fun _ => visitMembers members
    exact h.of_eq (by simp [membersNodes])
  | .property d :: members => by
    have h := bind (walked (visitProperty d)) fun _ => visitMembers members
    exact h.of_eq (by simp [membersNodes])

theorem visitProperty : (d : PropertyDecl) → Orderly last A (visitProperty d) d.nodes
  | ⟨_, name, params, type, _, _, index, default, stored, _, _, _, _⟩ => by
    have h (k : Bind Unit) (hk : Orderly last A k []) :=
      bind (framed name none (visitParams params)) fun _ => bind (visitOptType type) fun _ =>
        bind (visitOptExpr index) fun _ => bind (visitOptExpr default) fun _ =>
          bind (visitOptExpr stored) fun _ => hk
    simp only [bind_assoc] at h
    exact node ((h _ (declared _ _ rfl)).of_eq (by simp))

theorem visitDecls (isDeclared : Bool) : (ds : List Decl) →
    Orderly last A (visitDecls isDeclared ds) ((declsNodes ds).flatMap visits)
  | [] => pure _
  | .type ⟨i, name, t⟩ :: ds => by
    have h := bind (declareTypes isDeclared (.type ⟨i, name, t⟩ :: ds.takeWhile isTypeDecl)
      (List.forall_mem_cons.mpr ⟨rfl, fun _ => List.mem_takeWhile_imp⟩)) fun _ =>
        bind (walked (visitType t name)) fun _ => visitDecls true ds
    exact (node (x := .decl (.type ⟨i, name, t⟩)) h).of_eq (by simp [declsNodes, visits])
  | .composite ⟨i, name, kind, heritage, members, type⟩ :: ds => by
    have h (d : CompositeDecl) := bind (declareTypes isDeclared
      (.composite d :: ds.takeWhile isTypeDecl)
      (List.forall_mem_cons.mpr ⟨rfl, fun _ => List.mem_takeWhile_imp⟩)) fun _ =>
        bind (framed d.name (some (.composite d)) (bind (visitMembers members) fun _ =>
          visitRest d)) fun _ => after (.checkComposite d) fun _ => visitDecls true ds
    simp only [bind_assoc] at h
    refine (h ⟨i, name, kind, heritage, members, type⟩).mono ?_ fun x hx => ?_
    · simp only [declsNodes, List.cons_append, List.flatMap_cons, List.flatMap_append, visits,
        List.length_cons, List.length_append, List.length_nil]
      omega
    · simp only [declsNodes, List.cons_append, List.flatMap_cons, List.flatMap_append, visits,
        List.mem_cons, List.mem_append, List.nil_append] at hx ⊢
      tauto
  | .var ⟨i, name, type, init, absolute, kind, visibility⟩ :: ds => by
    have h (d : VarDecl) := node (x := .decl (.var d)) (bind (walked (visitOptType type)) fun _ =>
      bind (walked (visitOptExpr init)) fun _ => ahead (declareVar d) fun _ =>
        visitDecls false ds)
    exact (h ⟨i, name, type, init, absolute, kind, visibility⟩).of_eq
      (by simp [declsNodes, VarDecl.nodes, visits])
  | .const ⟨i, name, type, value, kind⟩ :: ds => by
    have h (d : ConstDecl) := bind (walked (visitOptType type)) fun _ =>
      bind (walked (visitOptExpr value)) fun _ => bind (declareConst d) fun _ =>
        visitDecls false ds
    refine (h ⟨i, name, type, value, kind⟩).subperm (List.Perm.subperm ?_)
    simp only [declsNodes, List.cons_append, List.flatMap_cons, List.flatMap_append, visits]
    rw [← List.append_assoc]
    exact (List.perm_middle.trans (by simp))
  | .callable d :: ds => by
    have h := bind (visitCallable d) fun _ => visitDecls false ds
    exact h.of_eq (by simp [declsNodes])
  | .label d :: ds => by
    have h := ahead (declared d.info.line d.name (d := .label d) rfl) fun _ =>
      visitDecls false ds
    exact (node (x := .decl (.label d)) h).of_eq (by simp [declsNodes, visits])
  | .exported d :: ds => by
    have h := bind (after (Silent.checkExported d) fun _ =>
      bind (walked (visitOptExpr d.exportName)) fun _ => walked (visitOptExpr d.index))
      fun _ => visitDecls false ds
    exact (node (x := .decl (.exported d)) h).of_eq (by simp [declsNodes, visits])
  | .param _ :: _ | .property _ :: _ | .unit _ :: _ | .enumMember _ :: _ => throw _

end

theorem visitBlock (b : Block) : Orderly last A (visitBlock b) (b.nodes.flatMap visits) := by
  have h : Orderly last A (Binding.visitBlock b) _ :=
    bind (visitDecls false b.decls) fun _ => walked (visitStmt b.body)
  exact (node (x := .block b) h).of_eq (by cases b; simp [Block.nodes, optBlockNodes, visits])

theorem visitGoal (g : Goal) : Orderly last A (visitGoal g) (g.nodes.flatMap visits) := by
  have hunits (units : List UnitRef) : Orderly last A (Binding.declareUnits units)
      ((units.map fun u => Node.decl (.unit u)).flatMap visits) := declareUnits units
  cases g with
  | program g =>
    have h := bind (hunits g.uses) fun _ => visitBlock g.block
    exact (node (x := .goal (.program g)) h).of_eq (by simp [Goal.nodes, visits])
  | library g =>
    have h := bind (hunits g.uses) fun _ => visitBlock g.block
    exact (node (x := .goal (.library g)) h).of_eq (by simp [Goal.nodes, visits])
  | unit g =>
    have h := bind (hunits g.publicUses) fun _ => bind (visitDecls false g.publicDecls) fun _ =>
      bind (hunits g.ownUses) fun _ => bind (visitDecls false g.ownDecls) fun _ =>
        bind (walked (visitStmts g.init)) fun _ => walked (visitStmts g.final)
    exact (node (x := .goal (.unit g)) h).of_eq (by simp [Goal.nodes, visits])
  | package g =>
    exact (node (x := .goal (.package g)) (hunits g.contains)).of_eq
      (by simp [Goal.nodes, visits])

end Orderly

/-- At the start nothing is recorded, and there is only what the language declares. -/
theorem inOrder_initial {config : Config} (path : Text)
    (hnext : last + 1 < Annotations.numberCount) (hnative : (Frame.runtime config).Holds A) :
    InOrder last A { scopes := .initial config, notes := .forTree last, path } where
  sight := by
    unfold Scopes.initial
    generalize Frame.runtime config = runtime at hnative
    intro f hf
    obtain rfl | hf := List.mem_cons.mp hf
    · exact Frame.holds_empty _ _
    · rw [List.mem_singleton.mp hf]
      exact hnative
  meant _ _ hd := by
    rw [Annotations.declOf, Annotations.get?] at hd
    cases hd
  next := by
    have hfirst : (Annotations.forTree last).next = last + 1 := Nat.mod_eq_of_lt hnext
    exact hfirst ▸ Nat.lt_succ_self last
  bare _ _ he := by cases he
  standIns _ _ he := by cases he
  apart _ _ _ _ he := by cases he
  implicit := List.forall_mem_nil _
  distinct := .nil

/-- Binding a source to its end keeps all in order, and it makes at most three nodes for each node of
the source. -/
theorem inOrder_of_ofGoal {config : Config} {path : Text} {g : Goal} {c : Binding}
    (h : ofGoal config path g last = (.ok (), c))
    (hroom : last + 1 + 3 * (g.nodes.flatMap visits).length < Annotations.numberCount)
    (hnative : (Frame.runtime config).Holds A)
    (hA : ∀ d : Decl, d.isValued = false ∨ .decl d ∈ g.nodes.flatMap visits → A d) :
    InOrder last A c ∧ c.notes.next ≤ last + 1 + 3 * (g.nodes.flatMap visits).length := by
  have hfirst : (Annotations.forTree last).next = last + 1 := Nat.mod_eq_of_lt (by omega)
  have hstart : InOrder last A { scopes := .initial config, notes := .forTree last, path } :=
    inOrder_initial path (by omega) hnative
  have hends := Orderly.visitGoal g hA _ hstart (by dsimp only; omega)
  unfold Ends at hends
  rw [show (visitGoal g).run.run { scopes := .initial config, notes := .forTree last, path } =
    (.ok (), c) from h] at hends
  dsimp only at hends
  rwa [hfirst] at hends

end ObjectPascal.Binding
