import ObjectPascal.Proofs.Binding.Inside
import ObjectPascal.Proofs.Syntax.Reach

/-!
Every step of binding touches the nodes of its part of the tree alone, and those that it makes.
-/

namespace ObjectPascal.Binding

namespace Marks

variable {n : Nat}

/-! Expressions. They leave the scopes as they are. -/

theorem update {x : Node} (hx : x ∈ ns ∨ n ≤ x.info.id) (f : Annotation → Annotation) :
    Marks R n (annotate (·.update x f)) ns := paid (.update hx f) (Nat.zero_le _)

theorem bindTo (x : Node) (d : Decl) : Marks R n (annotate (·.bind x d)) [x] :=
  update (.inl List.mem_cons_self) _

theorem recordType (e : Expr) (ns : List Node) (he : .expr e ∈ ns ∨ n ≤ e.info.id)
    (t : Option TypeExpr) : MarksWithin Eq n u 0 (recordType e t) ns := by
  cases t with
  | none =>
    exact (MarksWithin.of_silent (.pure _)).mono (Nat.le_refl 0) (List.nil_subset ns)
  | some t => exact .update he _

theorem bindField (e object : Expr) (field : Text) :
    Marks Eq n (bindField e object field) [.expr e] := by
  refine after Silent.getNotes fun a => after Silent.getScopes fun s => ?_
  split
  · split
    · exact bindTo _ _
    · exact (silent (.unresolved _ _)).node
  · refine after (Silent.compositeOf object) fun type => ?_
    split
    · exact (pure _).node
    · refine after (Silent.ended _) fun r => ?_
      split
      · exact (silent (.lookupFailed _ _)).node
      · have hboth (d : Decl) (t : Option TypeExpr) :=
          (MarksWithin.bindTo (R := Eq) (n := n) (u := n) (.expr e) d).bind fun _ =>
            recordType e [.expr e] (.inl List.mem_cons_self) t
        exact (hboth _ _).mono (Nat.zero_le _) (by simp)

theorem bindInherited (e : Expr) (method : Text) :
    Marks Eq n (bindInherited e method) [.expr e] := by
  refine after Silent.getScopes fun s => ?_
  split
  · exact (pure _).node
  · split
    · exact (pure _).node
    · refine after (Silent.ended _) fun r => ?_
      split
      · exact bindTo _ _
      · split
        · exact (pure _).node
        · exact (silent (.complain _ _)).node

theorem bindIdent (e : Expr) (name : Text) : Marks Eq n (bindIdent e name) [.expr e] := by
  refine after Silent.getNotes fun a => ?_
  split
  · refine after Silent.getScopes fun s => ?_
    split
    · exact bindTo _ _
    · exact (pure _).node
  · exact (pure _).node

/-- A name and what is made for it are marked. -/
theorem noteNonLocal (e ident : Expr) (hident : n ≤ ident.info.id) (d : Decl)
    (place : Nat) : MarksWithin Eq n u 0 (noteNonLocal e ident d place) [.expr e] := by
  refine .after .get fun b => ?_
  split
  · have hmark {x : Expr} (hx : .expr x ∈ [Node.expr e] ∨ n ≤ x.info.id) :
        MarksWithin Eq n u 0 (annotate (·.markNonLocal (.expr x))) [.expr e] := .update hx _
    have hident := hmark (.inr hident)
    have hself := hmark (.inl List.mem_cons_self)
    exact (hident.bind fun _ => hself).mono (Nat.le_refl 0)
      (List.append_subset.mpr ⟨List.Subset.refl _, List.Subset.refl _⟩)
  · exact (MarksWithin.of_silent (.pure _)).mono (Nat.le_refl 0)
      (List.nil_subset _)

/-- A name is replaced by its identifier, or by a call that is made for it. -/
theorem replaced (e ident : Expr) (hn : n ≤ ident.info.id) (s : Scopes) (d : Decl)
    (called : Bool) : MarksWithin Eq n (ident.info.id + 1) 1 (do
      let substitute ← standIn s ident d called
      annotate fun a => .ok (a.substitute e substitute)) [.expr e] := by
  unfold standIn
  split
  · simp only [bind_assoc, pure_bind]
    refine .made (r := 0) _ fun j hj => ?_
    have hj : n ≤ j.id := Nat.le_trans (Nat.le_succ_of_le hn) hj
    have hreplace : MarksWithin Eq n (j.id + 1) 0
        (annotate fun a => .ok (a.substitute e (.call j ident none))) [.expr e] :=
      .substitute e hj (Nat.lt_succ_self _)
    exact (recordType (.call j ident none) [] (.inr hj) _).bind fun _ => hreplace
  · simp only [pure_bind]
    exact (MarksWithin.substitute e hn (Nat.lt_succ_self _)).mono (Nat.zero_le 1)
      (List.Subset.refl _)

/-- A name that is found makes an identifier and perhaps a call. -/
theorem resolveName (i : NodeInfo) (name : Text) (called : Bool) :
    Marks Eq n (resolveName i name called) [.expr (.name i name)] := by
  refine after Silent.getScopes fun s => ?_
  split
  · exact (silent (.unresolved _ _)).node
  · rename_i d place hfound
    refine paid (r := 2) (.made i.line fun j hj => ?_) (by simp)
    have hident : MarksWithin Eq n (j.id + 1) 0
        (annotate (·.bind (.expr (.ident j name)) d)) [] := .update (.inr hj) _
    exact (hident.bind fun _ => (MarksWithin.bindTo (.expr (.name i name)) d).bind fun _ =>
      (recordType (.ident j name) [] (.inr hj) _).bind fun _ =>
        (noteNonLocal (.name i name) (.ident j name) hj d place).bind fun _ =>
          replaced (.name i name) (.ident j name) hj s d called).mono (Nat.le_refl _) (by simp)

/-- The type of a call is recorded. -/
theorem bindCall (e callee : Expr) : Marks Eq n (bindCall e callee) [.expr e] := by
  refine after Silent.getNotes fun a => ?_
  split
  · exact after Silent.getScopes fun s => update (.inl List.mem_cons_self) _
  · exact (pure _).node

mutual

theorem visitExpr : (e : Expr) → Marks Eq n (visitExpr e) e.nodes
  | .int .. | .real .. | .char .. | .string .. | .bool .. | .nil .. | .result .. =>
    node (pure _)
  | .name .. => resolveName _ _ _
  | .ident .. => bindIdent _ _
  | .call info callee args => by
    -- the type of the call is recorded last
    have hrest := bind (visitArgs args) fun _ => bindCall (.call info callee args) callee
    have hperm {ns : List Node} : (ns ++ (argsNodes args ++
        [Node.expr (.call info callee args)])).Perm
          (.expr (.call info callee args) :: (ns ++ argsNodes args)) := by
      rw [← List.append_assoc]
      exact List.perm_append_singleton _ _
    unfold Binding.visitExpr
    dsimp only
    split
    · exact subperm (bind (resolveName _ _ _) fun _ => hrest) hperm.subperm
    · exact subperm (bind (visitExpr callee) fun _ => hrest) hperm.subperm
  | .field info object name =>
    have h := bind (visitExpr object) fun _ => bindField (.field info object name) object name
    h.mono (by simp [Expr.nodes]) fun x hx => by
      simpa [Expr.nodes, or_comm] using hx
  | .index _ array indexes => node (.bind (visitExpr array) fun _ => visitExprs indexes)
  | .deref _ pointer => node (visitExpr pointer)
  | .unary _ _ operand => node (visitExpr operand)
  | .binary _ _ l r => node (.bind (visitExpr l) fun _ => visitExpr r)
  | .range _ l r => node (.bind (visitExpr l) fun _ => visitExpr r)
  | .set _ es => node (visitExprs es)
  | .array _ es => node (visitExprs es)
  | .record _ fields => node (visitFieldInits fields)
  | .inherited info method args =>
    have h := bind (visitArgs args) fun _ => bindInherited (.inherited info method args) method
    h.mono (by simp [Expr.nodes]) fun x hx => by
      simpa [Expr.nodes, or_comm] using hx

theorem visitExprs : (es : List Expr) → Marks Eq n (visitExprs es) (exprsNodes es)
  | [] => pure _
  | e :: es => bind (visitExpr e) fun _ => visitExprs es

theorem visitArgs : (args : Option (List Expr)) → Marks Eq n (visitArgs args) (argsNodes args)
  | none => pure _
  | some es => visitExprs es

theorem visitFieldInits : (fields : List FieldInit) →
    Marks Eq n (visitFieldInits fields) (fieldInitsNodes fields)
  | [] => pure _
  | ⟨_, _, value⟩ :: fields => node (.bind (visitExpr value) fun _ => visitFieldInits fields)

end

theorem visitOptExpr (e : Option Expr) : Marks Eq n (visitOptExpr e) (optExprNodes e) :=
  visitExprs e.toList

end Marks

/-! Statements. -/

/-- What replaces the target of an assignment: a new reference to what the innermost frame calls
the result. -/
theorem rewriteResult_eq {s : Scopes} {a a' : Annotations} {target ref : Expr}
    (h : s.rewriteResult a target = .ok (some (ref, a'))) :
    ∃ f, (Scopes.plainName? target).bind s.currentFunction? = some f ∧
      ref = .result (a.newInfo target.info.line).1 f.name ∧ a'.next = a.newId.2.next ∧
      (∀ k, a'.substitutes[k]? = if target.info.id = k then some ref else a.substitutes[k]?) ∧
      (∀ i : NodeInfo, i.id ≠ a.next → a.SameAt a' i) ∧
      ∀ d, s.top.find? "Result" = some d → a'.declOf ref.info = some d := by
  unfold Scopes.rewriteResult at h
  split at h
  · cases h
  · rename_i f hf
    obtain ⟨a₁, hbind, h⟩ := bind_eq_ok.mp h
    obtain ⟨a₂, htype, h⟩ := bind_eq_ok.mp h
    cases h
    let info := (a.newInfo target.info.line).1
    have htyped (i : NodeInfo) (hi : i.id ≠ a.next) : a₁.SameAt a₂ i :=
      .of_update (n := .expr (.result info f.name)) htype fun heq => hi heq.symm
    obtain ⟨hsub, hnext, hother, hfound⟩ : a₁.substitutes = a.substitutes ∧
        a₁.next = a.newId.2.next ∧ (∀ i : NodeInfo, i.id ≠ a.next → a.SameAt a₁ i) ∧
        ∀ d, s.top.find? "Result" = some d → a₁.declOf info = some d := by
      cases hd : s.top.find? "Result" with
      | none =>
        rw [hd] at hbind
        cases hbind
        exact ⟨rfl, rfl, fun _ _ => .of_get? rfl, fun _ h => nomatch h⟩
      | some d =>
        rw [hd] at hbind
        have hupdate : a.newId.2.update (.expr (.result info f.name))
            (fun an => { an with decl := some d }) = .ok a₁ := hbind
        refine ⟨(Annotations.get?_of_update hupdate).1, Annotations.next_of_update hupdate,
          fun i hi => ?_, fun e he => ?_⟩
        · have hnew : a.SameAt a.newId.2 i := .of_get? rfl
          exact hnew.trans (.of_update hupdate fun heq => hi heq.symm)
        · cases he
          exact Annotations.declOf_of_bind hupdate
    refine ⟨f, hf, rfl, (Annotations.next_of_update htype).trans hnext, fun k => ?_,
      fun i hi => ((hother i hi).trans (htyped i hi)).trans (.of_get? rfl), fun d hd => ?_⟩
    · rw [Annotations.getElem?_substitute, (Annotations.get?_of_update htype).1, hsub]
    · exact (Annotations.declOf_of_update_same htype (fun _ => rfl) info).trans (hfound d hd)

namespace Marks

variable {n : Nat} {m : Bind α} {ns ns' : List Node}

theorem visitTarget (e : Expr) : Marks Eq n (visitTarget e) e.nodes := by
  have hself : [Node.expr e] ⊆ e.nodes := by
    rw [Node.expr_nodes]
    exact List.cons_subset_cons _ (List.nil_subset _)
  have hlength : 1 ≤ e.nodes.length := by
    rw [Node.expr_nodes, List.length_cons]
    omega
  intro b _ hn hroom
  unfold Binding.visitTarget
  rw [Ends.bind_iff, getScopes_iff, Ends.bind_iff, getNotes_iff]
  split
  · trivial
  · rename_i ref notes hresult
    obtain ⟨f, -, rfl, hnext, hsub, hsame, -⟩ := rewriteResult_eq hresult
    have hnext : notes.next = b.notes.next + 1 := hnext.trans (Nat.mod_eq_of_lt (by omega))
    have htouch : Touches n 1 [.expr e] b { b with notes } := by
      refine .of_notes (by omega) (by omega) (fun k hk => ?_) (fun k r hr => ?_)
        fun i hi _ => hsame i (by omega)
      · have hne : e.info.id ≠ k := hk _ List.mem_cons_self
        rw [hsub, if_neg hne]
      · rw [hsub] at hr
        split at hr
        · cases hr
          exact .inr ⟨hn, by rw [hnext]; exact Nat.lt_succ_self _⟩
        · exact .inl hr
    exact ⟨rfl, htouch.mono (Nat.le_refl n) (by omega) hself⟩
  · exact visitExpr e b rfl hn hroom

theorem caseRange (label : Expr) : Marks Eq n (caseRange label) label.nodes := by
  unfold Binding.caseRange
  split
  · rename_i info low high
    refine node (bind (visitExpr low) fun _ => before (visitExpr high) fun _ => ?_)
    refine .bind (Silent.caseValue low) fun l => .bind (Silent.caseValue high) fun h => ?_
    split
    · split
      · exact .bind (Silent.complain _ _) fun _ => .pure _
      · exact .pure _
    · exact .pure _
  · exact before (visitExpr _) fun _ => .bind (Silent.caseValue _) fun _ => .pure _

theorem caseLabels (seen : List CaseRange) (labels : List Expr) :
    Marks Eq n (caseLabels seen labels) (exprsNodes labels) := by
  rw [exprsNodes_eq_flatMap]
  refine foldlM (fun seen label => before (caseRange label) fun r => ?_) labels seen
  split
  · exact .pure _
  · exact .bind (Silent.checkRepeated _ _ _) fun _ => .pure _

/-- The objects of a `with` statement push frames. -/
theorem openObjects (objects : List Expr) :
    Marks Pushes n (openObjects objects) (exprsNodes objects) := by
  rw [exprsNodes_eq_flatMap]
  refine forM (fun e => ?_) objects
  refine (bind (visitExpr e).lift fun _ => (?_ : Marks Pushes n _ [])).of_eq
    (List.append_nil _).symm
  refine after (Silent.compositeOf e) fun type => ?_
  split
  · exact pure _
  · intro b hR hn hroom
    rw [Ends.bind_iff, getScopes_iff]
    split
    · obtain ⟨pushed, rfl, -⟩ := Scopes.loadHeritage_eq ‹_›
      exact ⟨⟨pushed, rfl⟩, (Touches.refl n b).with_scopes _ _⟩
    · exact silent (.lookupFailed _ _) b hR hn hroom

/-- What is opened for a statement is closed after it. -/
theorem withObjects (objects : List Expr) {body : Bind Unit}
    (hbody : Marks Scopes.FirmTo n body ns) :
    Marks Scopes.FirmTo n (do
      let depth := (← getScopes).depth
      Binding.openObjects objects
      body
      setScopes ((← getScopes).unwindTo depth)) (exprsNodes objects ++ ns) := by
  intro b hR hn hroom
  rw [List.length_append] at hroom
  have hinner : b.scopes.inner ≠ [] := hR.growsTo.inner_ne_nil
  rw [Ends.bind_iff, getScopes_iff, Ends.bind_iff]
  refine (openObjects objects b (.refl _) hn (by omega)).mono (fun _ c hc => ?_) fun _ _ h => h
  obtain ⟨⟨pushed, hpushed⟩, hbc⟩ := hc
  have hmade := hbc.made
  have hnext := hbc.next
  have hlevel : c.scopes.FirmTo c.scopes := .refl (by simp [hpushed, hinner])
  rw [Ends.bind_iff]
  refine (hbody c hlevel (by omega) (by omega)).mono (fun _ d hd => ?_) fun _ _ h => h
  rw [Ends.bind_iff, getScopes_iff, setScopes_iff]
  have hback : (b.scopes.withInner (pushed ++ b.scopes.inner)).FirmTo d.scopes := hpushed ▸ hd.1
  refine ⟨hback.unwound hinner, ?_⟩
  have htouch := (hbc.trans hd.2).with_scopes b.scopes (d.scopes.unwindTo b.scopes.depth)
  exact htouch.mono (Nat.le_refl n) (by rw [List.length_append]; omega) (List.Subset.refl _)

end Marks

namespace Marks

variable {n : Nat} {ns : List Node}

theorem framed (name : Text) (owner : Option Decl) {m : Bind Unit}
    (h : Marks Scopes.FirmTo n m ns) :
    Marks Scopes.FirmTo n (do enter name owner; m; leave) ns := by
  intro b hR hn hroom
  have hinner := hR.growsTo.inner_ne_nil
  have hm := h { b with scopes := b.scopes.enter name owner } (.refl (by simp [Scopes.enter])) hn
    hroom
  refine (framed_ends _ name owner hm).mono (fun _ c hc => ?_) fun _ _ h => h
  obtain ⟨hscopes, s, htouch⟩ := hc
  rw [hscopes]
  exact ⟨.refl hinner, htouch.of_scopes⟩

theorem resolveType (t : NamedType) : Marks Eq n (resolveType t) [.type (.named t)] := by
  refine after Silent.getScopes fun s => ?_
  dsimp only
  split
  · exact (silent (.unresolved _ _)).node
  · exact bindTo _ _
  · exact bindTo _ _
  · exact (silent (.misused _ _)).node

/-- The variable of a handler is declared in a frame of its own. -/
theorem handled (h : Handler) {body : Bind Unit} (hbody : Marks Scopes.FirmTo n body ns) :
    Marks Scopes.FirmTo n (do
      enter ("on " ++ h.var)
      let i ← newInfo h.info.line
      Functor.discard (Binding.register h.info.line h.var
        (.var { info := i, name := h.var, type := some (.named h.type) }))
      body
      leave) (.handler h :: ns) := by
  have hinside : Marks Scopes.FirmTo n (do
      let i ← newInfo h.info.line
      Functor.discard (Binding.register h.info.line h.var
        (.var { info := i, name := h.var, type := some (.named h.type) }))
      body) (.handler h :: ns) := by
    refine MarksWithin.mono (.made _ fun i hi =>
      (bind (discard (register _ _ _)) fun _ => hbody).raise (Nat.le_succ_of_le hi))
      ?_ (List.subset_cons_self _ _)
    rw [List.nil_append, List.length_cons]
    omega
  have hframed := framed ("on " ++ h.var) none hinside
  simp only [bind_assoc] at hframed
  exact hframed

theorem inHandler (h : Handler) {body : Bind Unit} (hbody : Marks Scopes.FirmTo n body ns) :
    Marks Scopes.FirmTo n (inHandler h.info h.var h.type body)
      (.handler h :: .type (.named h.type) :: ns) :=
  (bind (resolveType h.type).lift fun _ => ite hbody.node (handled h hbody)).mono (by simp)
    fun x hx => by simpa [or_left_comm] using hx

mutual

theorem visitStmt : (s : Stmt) → Marks Scopes.FirmTo n (visitStmt s) s.nodes
  | .empty _ | .breakLoop _ | .continueLoop _ | .asm .. => node (pure _)
  | .compound _ ss => node (visitStmts ss)
  | .assign _ target value =>
    node (bind (visitTarget target).lift fun _ => (visitExpr value).lift)
  | .call _ e => node (visitExpr e).lift
  | .cond _ test yes no =>
    have h := bind (visitExpr test).lift fun _ => bind (visitStmt yes) fun _ => visitOptStmt no
    node (h.of_eq (by simp))
  | .caseOf _ selector arms rest =>
    have h := bind (visitExpr selector).lift fun _ => bind (visitArms [] arms) fun _ =>
      visitStmts rest
    node (h.of_eq (by simp))
  | .forTo info var low high _ body =>
    have h := after (.loopVariable info.line var) fun _ => bind (visitExpr low).lift fun _ =>
      bind (visitExpr high).lift fun _ => visitStmt body
    node (h.of_eq (by simp))
  | .forIn _ _ coll body =>
    node (after (.loopVariable _ _) fun _ => bind (visitExpr coll).lift fun _ => visitStmt body)
  | .whileDo _ test body => node (bind (visitExpr test).lift fun _ => visitStmt body)
  | .repeatUntil _ body test => node (bind (visitStmts body) fun _ => (visitExpr test).lift)
  | .withDo _ objects body => node (withObjects objects (visitStmt body))
  | .tryExcept _ body handlers rest plain =>
    have h := bind (visitStmts body) fun _ => bind (visitHandlers handlers) fun _ =>
      bind (visitStmts rest) fun _ => visitStmts plain
    node (h.of_eq (by simp))
  | .tryFinally _ body finish => node (bind (visitStmts body) fun _ => visitStmts finish)
  | .raise _ e place => node (bind (visitOptExpr e).lift fun _ => (visitOptExpr place).lift)
  | .goto _ _ => node (silent (.checkLabel _ _))
  | .labeled _ _ s => node (after (.checkLabel _ _) fun _ => visitStmt s)

theorem visitStmts : (ss : List Stmt) → Marks Scopes.FirmTo n (visitStmts ss) (stmtsNodes ss)
  | [] => pure _
  | s :: ss => bind (visitStmt s) fun _ => visitStmts ss

theorem visitOptStmt : (s : Option Stmt) →
    Marks Scopes.FirmTo n (visitOptStmt s) (optStmtNodes s)
  | none => pure _
  | some s => visitStmt s

theorem visitArms (seen : List CaseRange) : (arms : List CaseArm) →
    Marks Scopes.FirmTo n (visitArms seen arms) (armsNodes arms)
  | [] => pure _
  | ⟨i, labels, body⟩ :: arms =>
    have h := bind (caseLabels seen labels).lift fun seen => bind (visitStmt body) fun _ =>
      visitArms seen arms
    node (h.of_eq (by simp))

theorem visitHandlers : (handlers : List Handler) →
    Marks Scopes.FirmTo n (visitHandlers handlers) (handlersNodes handlers)
  | [] => pure _
  | ⟨i, var, type, body⟩ :: handlers =>
    have h := bind (inHandler ⟨i, var, type, body⟩ (visitStmt body)) fun _ => visitHandlers handlers
    h.of_eq (by simp [handlersNodes])

end

/-! Types. -/

theorem declareEnumMember (type : TypeExpr) (name : Text) (next : UInt64) (m : EnumMember) :
    Marks Scopes.FirmTo n (declareEnumMember type name next m)
      (.decl (.enumMember m) :: optExprNodes m.value) := by
  have hposition : Marks Scopes.FirmTo n (memberPosition next m.value) (optExprNodes m.value) := by
    cases m.value with
    | none => exact pure _
    | some e =>
      have h : Marks Scopes.FirmTo n (memberPosition next (some e)) e.nodes :=
        before (visitExpr e).lift fun _ => .bind (Silent.constant e) fun v => by
          split <;> exact .pure _
      exact h.of_eq (by simp [optExprNodes, exprsNodes])
  have hself (position : UInt64) (free : Bool) : Marks Scopes.FirmTo n (do
      if free then
        annotate (·.setConst (.decl (.enumMember m)) (some type)
          (.integral (.ofEnum name position)))
      return position + 1) [.decl (.enumMember m)] := by
    split
    · exact before (paid (.setConst (.decl (.enumMember m)) _ _) (Nat.zero_le _)) fun _ => .pure _
    · exact (pure _).node
  have h := bind hposition fun position => bind (register m.info.line m.name (.enumMember m))
    fun free => hself position free
  exact h.mono (by simp) fun x hx => by simpa [or_comm] using hx

theorem visitEnum (info : NodeInfo) (members : List EnumMember) (name : Text) :
    Marks Scopes.FirmTo n (visitEnum info members name) (enumMembersNodes members) :=
  discard (foldlM (declareEnumMember _ _) members 0)

theorem visitSubrange (info : NodeInfo) (low high : Expr) :
    Marks Scopes.FirmTo n (visitSubrange info low high) (low.nodes ++ high.nodes) := by
  refine bind (visitExpr low).lift fun _ => before (visitExpr high).lift fun _ => ?_
  refine .bind (Silent.folding fun _ => Folding.Spares.subrangeSize low high) fun r => ?_
  split
  · exact .pure _
  · exact Silent.complain _ _

theorem visitLength (e : Expr) :
    Marks Scopes.FirmTo n (visitLength e) (optExprNodes (some e)) :=
  of_eq (before (visitExpr e).lift fun _ => (Silent.constant e).discard)
    (by simp [optExprNodes, exprsNodes])

mutual

theorem visitType (t : TypeExpr) (name : Text) :
    Marks Scopes.FirmTo n (visitType t name) t.nodes :=
  match t with
  | .ordinal .. | .real .. | .rawPointer .. | .rawString .. | .variant .. => node (pure _)
  | .named t => (resolveType t).lift
  | .string _ none => node (pure _)
  | .string _ (some e) => node (visitLength e)
  | .subrange info low high => node (visitSubrange info low high)
  | .enum info members => node (visitEnum info members name)
  | .pointer _ t => node (visitType t ∅)
  | .classRef _ t => node (visitType t ∅)
  | .set _ t => node (visitType t ∅)
  | .array _ _ index elem _ => node (bind (visitTypes index) fun _ => visitOptType elem)
  | .file _ elem => node (visitOptType elem)
  | .record _ _ members part => by
    have h := framed "record" none (bind (visitFields members) fun _ => visitVariant part)
    simp only [bind_assoc] at h
    exact node h
  | .proc _ params result _ => by
    have h := framed "proc" none (bind (visitOptParams params) fun _ => visitOptType result)
    simp only [bind_assoc] at h
    exact node h
  | .classType .. | .interface .. => (pure _).widen (List.nil_sublist _)

theorem visitTypes : (ts : List TypeExpr) → Marks Scopes.FirmTo n (visitTypes ts) (typesNodes ts)
  | [] => pure _
  | t :: ts => bind (visitType t ∅) fun _ => visitTypes ts

theorem visitOptType : (t : Option TypeExpr) →
    Marks Scopes.FirmTo n (visitOptType t) (optTypeNodes t)
  | none => pure _
  | some t => visitType t ∅

theorem visitParams : (params : List ParamDecl) →
    Marks Scopes.FirmTo n (visitParams params) (paramsNodes params)
  | [] => pure _
  | ⟨_, _, _, type, default⟩ :: params =>
    have h := bind (visitOptType type) fun _ => bind (visitOptExpr default).lift fun _ =>
      bind (discard (register _ _ _)) fun _ => visitParams params
    node (h.of_eq (by simp))

theorem visitOptParams : (params : Option (List ParamDecl)) →
    Marks Scopes.FirmTo n (visitOptParams params) (optParamsNodes params)
  | none => pure _
  | some params => visitParams params

theorem visitField : (d : VarDecl) → Marks Scopes.FirmTo n (visitField d) d.nodes
  | ⟨_, _, type, init, _, _, _⟩ =>
    have h := bind (visitOptType type) fun _ => discard (register _ _ _)
    node (h.widen ((List.Sublist.refl _).append (List.nil_sublist (optExprNodes init))))

theorem visitFields : (members : List Member) →
    Marks Scopes.FirmTo n (visitFields members) (membersNodes members)
  | [] => pure _
  | .var d :: members => bind (visitField d) fun _ => visitFields members
  | .callable _ :: members => (visitFields members).widen (List.sublist_append_right _ _)
  | .property _ :: members => (visitFields members).widen (List.sublist_append_right _ _)

theorem visitCaseFields : (ds : List VarDecl) →
    Marks Scopes.FirmTo n (visitCaseFields ds) (varsNodes ds)
  | [] => pure _
  | d :: ds => bind (visitField d) fun _ => visitCaseFields ds

theorem visitVariantCases : (cases : List VariantCase) →
    Marks Scopes.FirmTo n (visitVariantCases cases) (variantCasesNodes cases)
  | [] => pure _
  | ⟨i, labels, fields⟩ :: cases =>
    have h := bind (visitExprs labels).lift fun _ => bind (visitCaseFields fields) fun _ =>
      visitVariantCases cases
    node (h.of_eq (by simp))

theorem visitVariant : (part : Option VariantPart) →
    Marks Scopes.FirmTo n (visitVariant part) (optVariantNodes part)
  | none => pure _
  | some ⟨_, _, tagType, cases⟩ => by
    -- the part pays for the variable of its tag
    refine MarksWithin.mono (.bind (visitType tagType ∅) fun _ =>
      .bind (declareTag _ _ _) fun _ => visitVariantCases cases) ?_ (List.subset_cons_self _ _)
    simp only [optVariantNodes, List.cons_append, List.length_cons, List.length_append]
    omega

end

end Marks

/-! Declarations. What the type of a composite holds besides its members is bound with it, though no
walk meets it there. -/

/-- A node with what binding meets besides the walk. -/
def visits : Node → List Node
  | .decl (.composite d) => .decl (.composite d) :: d.rest.flatMap Node.nodes
  | x => [x]

theorem sublist_visits (ns : List Node) : ns.Sublist (ns.flatMap visits) := by
  induction ns with
  | nil => exact .slnil
  | cons x ns ih =>
    have hself : [x].Sublist (visits x) := by
      unfold visits
      split
      · exact List.singleton_sublist.mpr List.mem_cons_self
      · exact .refl _
    exact hself.append ih

/-- Binds what stands inside a routine. -/
def insideOf (d : CallableDecl) : Bind Unit := do
  visitOptParams d.params
  visitOptType d.result
  visitBody d d.body

theorem visitCallable_eq (d : CallableDecl) : visitCallable d =
    if !d.owner.isEmpty && d.body.isSome then inMethod d (insideOf d)
    else inRoutine d (insideOf d) := by
  cases d
  rw [visitCallable]
  rfl

/-- The nodes inside a routine that are bound. -/
def boundOf (d : CallableDecl) : List Node :=
  optParamsNodes d.params ++ (optTypeNodes d.result ++ optBlockNodes d.body)

theorem sublist_callable (d : CallableDecl) :
    (.decl (.callable d) :: boundOf d).Sublist d.nodes := by
  cases d
  simp only [boundOf, CallableDecl.nodes, List.cons_append, List.append_assoc]
  refine .cons_cons _ (.append (.refl _) (.append (.refl _) ?_))
  exact List.sublist_append_right _ _

namespace Marks

variable {n : Nat} {ns : List Node}

/-- Nothing is met besides the walk. -/
theorem walked {α : Type} {m : Bind α} (h : Marks Scopes.FirmTo n m ns) :
    Marks Scopes.FirmTo n m (ns.flatMap visits) := h.widen (sublist_visits ns)

theorem visitRest (d : CompositeDecl) :
    Marks Scopes.FirmTo n (visitRest d.type) (d.rest.flatMap Node.nodes) := by
  unfold Binding.visitRest CompositeDecl.rest
  cases d.type with
  | record i packed members part =>
    exact (visitVariant part).of_eq (optVariantNodes_eq part).symm
  | interface i heritage guid members dispatch forward =>
    exact (visitOptExpr guid).lift.of_eq (optExprNodes_eq guid).symm
  | _ => exact pure _

theorem bindHeading (d : CallableDecl) (owner : Option Decl) :
    MarksWithin Scopes.FirmTo n n 0 (bindHeading d owner) [.decl (.callable d)] := by
  unfold Binding.bindHeading
  split
  · exact .bindTo _ _
  · exact (pure _).mono (Nat.zero_le 0) (List.nil_subset _)

theorem inRoutine (d : CallableDecl) {inside : Bind Unit} (h : Marks Scopes.FirmTo n inside ns) :
    Marks Scopes.FirmTo n (inRoutine d inside) ns := by
  intro b hR hn hroom
  have hends := inRoutine_ends (Touches n (3 * ns.length) ns b) n (d := d) (m := inside)
    hR.growsTo.inner_ne_nil fun c hc => ?_
  · exact hends.mono (fun _ c hc => ⟨hc.1, hc.2.elim fun _ htouch => htouch.of_scopes⟩)
      fun _ _ h => h
  · obtain ⟨⟨u, -, hscopes⟩, htouch⟩ := hc
    have hmade := htouch.made
    have hnext := htouch.next
    have hc : c.scopes.FirmTo c.scopes := .refl (by simp [hscopes, Scopes.enter])
    refine (h c hc (by omega) (by omega)).mono (fun _ e he => ⟨he.1, ?_⟩) fun _ _ h => h
    exact (htouch.trans he.2).mono (Nat.le_refl n) (by omega) (List.Subset.refl _)

/-- A method pays for its object. -/
theorem selfDeclared (d : CallableDecl) :
    Marks Scopes.FirmTo n (Binding.declareSelf d) [.decl (.callable d)] :=
  (declareSelf d).mono (Nat.le_succ 2) (List.nil_subset _)

theorem headingBound (d : CallableDecl) (owner : Option Decl) :
    Marks Scopes.FirmTo n (do Binding.bindHeading d owner; Binding.declareSelf d)
      [.decl (.callable d)] :=
  (MarksWithin.bind (bindHeading d owner) fun _ => declareSelf d).mono (Nat.le_succ 2)
    (List.Subset.refl _)

theorem inMethod (d : CallableDecl) {inside : Bind Unit} (h : Marks Scopes.FirmTo n inside ns) :
    Marks Scopes.FirmTo n (inMethod d inside) (.decl (.callable d) :: ns) := by
  intro b hR hn hroom
  have hends := inMethod_ends (d := d) (m := inside)
    (Touches n (3 * (ns.length + 1)) (.decl (.callable d) :: ns) b) n hR.growsTo.inner_ne_nil
    ?_ ?_ ?_
  · exact hends.mono (fun _ c hc => ⟨hc.1, hc.2.elim fun _ htouch => htouch.of_scopes⟩)
      fun _ _ h => h
  · intro e _ _
    have hquiet : Quiet b { b with errors := b.errors.push ⟨b.path, d.info.line, .scope e⟩ } :=
      ⟨rfl, rfl, .refl _, rfl, rfl, fun _ h => Array.mem_push_of_mem _ h, fun _ h => h⟩
    exact (hquiet.touches n).mono (Nat.le_refl n) (Nat.zero_le _) (List.nil_subset _)
  · rintro c ⟨⟨u, -, hscopes⟩, htouch⟩
    have hmade := htouch.made
    have hnext := htouch.next
    have hc : c.scopes.FirmTo c.scopes := .refl (by simp [hscopes, Scopes.enter])
    have hbare := (selfDeclared d).bind fun _ => h
    refine (hbare c hc (by omega) (Nat.lt_of_le_of_lt (Nat.add_le_add_right hmade _) hroom)).mono
      (fun _ e he => ⟨he.1, ?_⟩) fun _ _ h => h
    exact (htouch.trans he.2).mono (Nat.le_refl n) (by simp) (List.Subset.refl _)
  · intro s context hs
    obtain ⟨f, pushed, rfl, -⟩ := Scopes.enterMethod_eq hs
    let inner : Binding :=
      { b with scopes := b.scopes.withInner (f :: (pushed ++ b.scopes.inner)) }
    have hinner : inner.scopes.FirmTo inner.scopes := .refl (by simp [inner])
    have hamong := (headingBound d inner.scopes.top.owner).bind fun _ => h
    rw [bind_assoc] at hamong
    refine (hamong inner hinner hn hroom).mono (fun _ e he => ⟨he.1, ?_⟩) fun _ _ h => h
    exact he.2.with_scopes b.scopes e.scopes

/-- A block pays for the variable of a result. -/
theorem inBody (d : CallableDecl) (x : Node) {body : Bind Unit}
    (h : Marks Scopes.FirmTo n body ns) : Marks Scopes.FirmTo n (inBody d body) (x :: ns) := by
  have hbody : Marks Scopes.FirmTo n (do
      let place := (← getScopes).depth - 1
      modify fun b => { b with routines := place :: b.routines }
      body
      modify fun b => { b with routines := b.routines.drop 1 }) ns := by
    refine after .getScopes fun s => fun b hR hn hroom => ?_
    rw [Ends.bind_iff, Ends.modify_iff, Ends.bind_iff]
    refine (h { b with routines := (s.depth - 1) :: b.routines } hR hn hroom).mono
      (fun _ c hc => ⟨hc.1, ?_⟩) fun _ _ h => h
    have hback := hc.2.with_routines
    rw [← show c.routines.drop 1 = b.routines by rw [hc.2.routines]; rfl] at hback
    exact hback
  refine MarksWithin.mono (.bind (declareResult d) fun _ => hbody) ?_ (List.subset_cons_self _ _)
  rw [List.length_cons]
  omega

mutual

theorem visitCallable (d : CallableDecl) :
    Marks Scopes.FirmTo n (visitCallable d) (d.nodes.flatMap visits) :=
  match d with
  | ⟨i, name, owner, kind, classMethod, params, result, directives, body, forward, external,
      visibility, builtin⟩ => by
    let d : CallableDecl := ⟨i, name, owner, kind, classMethod, params, result, directives, body,
      forward, external, visibility, builtin⟩
    have hinside : Marks Scopes.FirmTo n (insideOf d) ((boundOf d).flatMap visits) := by
      rw [boundOf, List.flatMap_append, List.flatMap_append]
      exact bind (walked (visitOptParams params)) fun _ =>
        bind (walked (visitOptType result)) fun _ => visitBody d body
    refine widen ?_ ((sublist_callable d).flatMap visits)
    rw [List.flatMap_cons, visitCallable_eq]
    exact ite (inMethod d hinside) (node (inRoutine d hinside))

theorem visitBody (d : CallableDecl) : (body : Option Block) →
    Marks Scopes.FirmTo n (visitBody d body) ((optBlockNodes body).flatMap visits)
  | none => pure _
  | some ⟨i, decls, body⟩ => by
    have h := inBody d (.block ⟨i, decls, body⟩) (bind (visitDecls false decls) fun _ =>
      walked (visitStmt body))
    exact h.of_eq (by simp [optBlockNodes, visits])

theorem visitMembers : (members : List Member) →
    Marks Scopes.FirmTo n (visitMembers members) ((membersNodes members).flatMap visits)
  | [] => pure _
  | .var d :: members => by
    have h := bind (walked (visitField d)) fun _ => visitMembers members
    exact h.of_eq (by simp [membersNodes])
  | .callable d :: members => by
    have h := bind (visitCallable d) fun _ => visitMembers members
    exact h.of_eq (by simp [membersNodes])
  | .property d :: members => by
    have h := bind (walked (visitProperty d)) fun _ => visitMembers members
    exact h.of_eq (by simp [membersNodes])

theorem visitProperty : (d : PropertyDecl) → Marks Scopes.FirmTo n (visitProperty d) d.nodes
  | ⟨_, name, params, type, _, _, index, default, stored, _, _, _, _⟩ => by
    have h (k : Bind Unit) (hk : Marks Scopes.FirmTo n k []) :=
      bind (framed name none (visitParams params)) fun _ => bind (visitOptType type) fun _ =>
        bind (visitOptExpr index).lift fun _ => bind (visitOptExpr default).lift fun _ =>
          bind (visitOptExpr stored).lift fun _ => hk
    simp only [bind_assoc] at h
    exact node ((h _ (discard (register _ _ _))).of_eq (by simp))

theorem visitDecls (declared : Bool) : (ds : List Decl) →
    Marks Scopes.FirmTo n (visitDecls declared ds) ((declsNodes ds).flatMap visits)
  | [] => pure _
  | .type ⟨i, name, t⟩ :: ds => by
    have h := bind (declareTypes declared (.type ⟨i, name, t⟩ :: ds.takeWhile isTypeDecl)) fun _ =>
      bind (walked (visitType t name)) fun _ => visitDecls true ds
    exact (node (x := .decl (.type ⟨i, name, t⟩)) h).of_eq (by simp [declsNodes, visits])
  | .composite ⟨i, name, kind, heritage, members, type⟩ :: ds => by
    have h (d : CompositeDecl) :=
      bind (declareTypes declared (.composite d :: ds.takeWhile isTypeDecl)) fun _ =>
        bind (framed d.name (some (.composite d)) (bind (visitMembers members) fun _ =>
          visitRest d)) fun _ => after (.checkComposite d) fun _ => visitDecls true ds
    simp only [bind_assoc] at h
    refine (h ⟨i, name, kind, heritage, members, type⟩).mono ?_ fun x hx => ?_
    · simp only [declsNodes, List.cons_append, List.flatMap_cons, List.flatMap_append, visits,
        List.length_cons, List.length_append, List.length_nil]
      omega
    · simp only [declsNodes, List.cons_append, List.flatMap_cons, List.flatMap_append, visits,
        List.mem_cons, List.mem_append, List.nil_append] at hx ⊢
      tauto
  | .var ⟨i, name, type, init, absolute, kind, visibility⟩ :: ds => by
    have h (d : VarDecl) := node (x := .decl (.var d)) (bind (walked (visitOptType type)) fun _ =>
      bind (walked (visitOptExpr init).lift) fun _ => bind (declareVar d) fun _ =>
        visitDecls false ds)
    exact (h ⟨i, name, type, init, absolute, kind, visibility⟩).of_eq
      (by simp [declsNodes, VarDecl.nodes, visits])
  | .const ⟨i, name, type, value, kind⟩ :: ds => by
    have h (d : ConstDecl) := node (x := .decl (.const d)) (bind (walked (visitOptType type))
      fun _ => bind (walked (visitOptExpr value).lift) fun _ => bind (declareConst d) fun _ =>
        visitDecls false ds)
    exact (h ⟨i, name, type, value, kind⟩).of_eq (by simp [declsNodes, visits])
  | .callable d :: ds => by
    have h := bind (visitCallable d) fun _ => visitDecls false ds
    exact h.of_eq (by simp [declsNodes])
  | .label d :: ds => by
    have h := bind (discard (register d.info.line d.name (.label d))) fun _ => visitDecls false ds
    exact (node (x := .decl (.label d)) h).of_eq (by simp [declsNodes, visits])
  | .exported d :: ds => by
    have h := bind (after (Silent.checkExported d) fun _ =>
      bind (walked (visitOptExpr d.exportName).lift) fun _ => walked (visitOptExpr d.index).lift)
      fun _ => visitDecls false ds
    exact (node (x := .decl (.exported d)) h).of_eq (by simp [declsNodes, visits])
  | .param _ :: _ | .property _ :: _ | .unit _ :: _ | .enumMember _ :: _ => throw _

end

theorem visitBlock (b : Block) :
    Marks Scopes.FirmTo n (visitBlock b) (b.nodes.flatMap visits) := by
  have h : Marks Scopes.FirmTo n (Binding.visitBlock b) _ :=
    bind (visitDecls false b.decls) fun _ => walked (visitStmt b.body)
  exact (node (x := .block b) h).of_eq (by cases b; simp [Block.nodes, optBlockNodes, visits])

theorem visitGoal (g : Goal) : Marks Scopes.FirmTo n (visitGoal g) (g.nodes.flatMap visits) := by
  have hunits (units : List UnitRef) : Marks Scopes.FirmTo n (Binding.declareUnits units)
      ((units.map fun u => Node.decl (.unit u)).flatMap visits) :=
    (declareUnits units).widen (List.nil_sublist _)
  cases g with
  | program g =>
    have h := bind (hunits g.uses) fun _ => visitBlock g.block
    exact (node (x := .goal (.program g)) h).of_eq (by simp [Goal.nodes, visits])
  | library g =>
    have h := bind (hunits g.uses) fun _ => visitBlock g.block
    exact (node (x := .goal (.library g)) h).of_eq (by simp [Goal.nodes, visits])
  | unit g =>
    have h := bind (hunits g.publicUses) fun _ => bind (visitDecls false g.publicDecls) fun _ =>
      bind (hunits g.ownUses) fun _ => bind (visitDecls false g.ownDecls) fun _ =>
        bind (walked (visitStmts g.init)) fun _ => walked (visitStmts g.final)
    exact (node (x := .goal (.unit g)) h).of_eq (by simp [Goal.nodes, visits])
  | package g =>
    exact (node (x := .goal (.package g)) (hunits g.contains)).of_eq
      (by simp [Goal.nodes, visits])

end Marks

end ObjectPascal.Binding
