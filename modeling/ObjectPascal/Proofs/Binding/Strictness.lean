import ObjectPascal.Proofs.Binding.Level
import ObjectPascal.Proofs.Binding.Report

/-!
Whether names are resolved strictly only moves reports. Two runs of binding that differ in nothing
else go through the same steps and report the same in the same order; what differs is whether an
unknown name weighs as an error or as a warning.
-/

namespace ObjectPascal.Binding

variable {α β : Type}

/-- A step for names that are resolved strictly and one for names that are not lead from the same
state with the same reports to the same result, the same state and the same reports. -/
def Impartial (m : Bool → Bind α) : Prop :=
  ∀ (b : Binding) (log : List Report), ∃ (r : Except Breach α) (c : Binding) (log' : List Report),
    ∀ k, (m k).run.run (b.under log k) = (r, c.under log' k)

/-- A computation ends in what it runs to. -/
theorem ends_run {ε σ : Type} (m : ExceptT ε (StateM σ) α) (s : σ) :
    Ends m s (fun a t => m.run.run s = (.ok a, t)) fun e t => m.run.run s = (.error e, t) := by
  unfold Ends
  split <;> assumption

namespace Impartial

/-! Ways to combine steps. -/

theorem pure (a : α) : Impartial fun _ => (Pure.pure a : Bind α) :=
  fun b log => ⟨.ok a, b, log, fun _ => rfl⟩

theorem throw (e : Breach) : Impartial fun _ => (throw e : Bind α) :=
  fun b log => ⟨.error e, b, log, fun _ => rfl⟩

theorem bind {m : Bool → Bind α} {f : Bool → α → Bind β} (hm : Impartial m)
    (hf : ∀ a, Impartial fun k => f k a) : Impartial fun k => m k >>= f k := by
  intro b log
  obtain ⟨r, c, log', h⟩ := hm b log
  cases r with
  | error e =>
    refine ⟨.error e, c, log', fun k => ?_⟩
    rw [ExceptT.run_bind, StateT.run_bind, h]
    rfl
  | ok a =>
    obtain ⟨r, d, log'', h'⟩ := hf a c log'
    refine ⟨r, d, log'', fun k => ?_⟩
    rw [ExceptT.run_bind, StateT.run_bind, h]
    exact h' k

theorem discard {m : Bool → Bind α} (hm : Impartial m) :
    Impartial fun k => Functor.discard (m k) := by
  have hmap (m : Bind α) : Functor.discard m = m >>= fun _ => Pure.pure PUnit.unit := by
    rw [Functor.discard, Functor.mapConst, bind_pure_comp]
    rfl
  simp only [hmap]
  exact hm.bind fun _ => pure _

theorem forM {f : Bool → α → Bind PUnit} (hf : ∀ a, Impartial fun k => f k a) (l : List α) :
    Impartial fun k => l.forM (f k) := by
  induction l with
  | nil => exact pure _
  | cons a l ih => exact (hf a).bind fun _ => ih

theorem foldlM {f : Bool → β → α → Bind β} (hf : ∀ b a, Impartial fun k => f k b a) (l : List α)
    (b : β) : Impartial fun k => l.foldlM (f k) b := by
  induction l generalizing b with
  | nil => exact pure _
  | cons a l ih =>
    simp only [List.foldlM_cons]
    exact (hf b a).bind ih

theorem ite {c : Prop} [Decidable c] {m n : Bool → Bind α} (hm : Impartial m)
    (hn : Impartial n) : Impartial fun k => if c then m k else n k := by
  split
  · exact hm
  · exact hn

/-! Steps that read or change the state. -/

/-- A step that goes on with the scopes does not look at how names are resolved. -/
theorem scopes {f : Bool → Scopes → Bind α} (hf : ∀ s : Scopes, Impartial fun k => f k (s.strictly k)) :
    Impartial fun k => getScopes >>= f k := fun b log => hf b.scopes b log

theorem getNotes : Impartial fun _ => getNotes := fun b log => ⟨.ok b.notes, b, log, fun _ => rfl⟩

theorem modify {f : Binding → Binding} (hf : ∀ (b : Binding) log k, f (b.under log k) = (f b).under log k) :
    Impartial fun _ => (modify f : Bind PUnit) :=
  fun b log => ⟨.ok ⟨⟩, f b, log, fun k => congrArg (Prod.mk _) (hf b log k)⟩

theorem setScopes (s : Scopes) : Impartial fun k => setScopes (s.strictly k) :=
  fun b log => ⟨.ok ⟨⟩, { b with scopes := s }, log, fun _ => rfl⟩

theorem ended (x : Option α) : Impartial fun _ => ended x := by
  cases x with
  | none => exact throw _
  | some r => exact pure r

/-- A search that ends may find scopes. -/
theorem ended_some (r : Bool → α) {f : Bool → α → Bind β} (hf : Impartial fun k => f k (r k)) :
    Impartial fun k => Binding.ended (some (r k)) >>= f k := hf

theorem annotate (f : Annotations → Except Breach Annotations) :
    Impartial fun _ => annotate f := by
  refine .bind getNotes fun a => ?_
  split
  · exact modify fun _ _ _ => rfl
  · exact throw _

theorem newInfo (line : Nat) : Impartial fun _ => newInfo line :=
  .bind getNotes fun _ => .bind (modify fun _ _ _ => rfl) fun _ => pure _

theorem addOverload (d : CallableDecl) : Impartial fun _ => addOverload d :=
  modify fun _ _ _ => rfl

/-! Reports. -/

/-- A step that adds one report. -/
theorem reports {m : Bool → Bind Unit} (line : Nat) {c : Complaint} (weight : Weight)
    (hname : weight = .unknown →
      ∃ e, c = .scope e ∧ (e.fault = .notFound ∨ e.fault = .compositeNotFound))
    (htype : ∀ e, c = .scope e → e.fault = .compositeNotFound → weight = .unknown)
    (hm : ∀ k, m k = if weight.isError k then complain line c else warn line c) :
    Impartial m := by
  intro b log
  let r : Report := ⟨⟨b.path, line, c⟩, weight, hname, htype⟩
  refine ⟨.ok (), b, log ++ [r], fun k => ?_⟩
  have hweight : r.isError k = weight.isError k := rfl
  unfold under
  rw [hm, errorsOf_append, warningsOf_append, hweight]
  cases weight.isError k <;> rfl

/-- A complaint that is not about an unknown type is an error in any case. -/
theorem complain (line : Nat) {c : Complaint}
    (hc : ∀ e, c = .scope e → e.fault ≠ .compositeNotFound) :
    Impartial fun _ => complain line c :=
  reports line .error nofun (fun e he hf => absurd hf (hc e he)) fun _ => rfl

theorem warn (line : Nat) {c : Complaint}
    (hc : ∀ e, c = .scope e → e.fault ≠ .compositeNotFound) : Impartial fun _ => warn line c :=
  reports line .warning nofun (fun e he hf => absurd hf (hc e he)) fun _ => rfl

theorem unresolved (line : Nat) (name : Text) : Impartial fun _ => unresolved line name := by
  refine .scopes fun s => ?_
  have hname : ∃ e, Complaint.scope (s.error .notFound name) = .scope e ∧
      (e.fault = .notFound ∨ e.fault = .compositeNotFound) := ⟨_, rfl, Or.inl rfl⟩
  refine reports line .unknown (fun _ => hname) (fun _ _ _ => rfl) fun k => ?_
  cases k <;> rfl

theorem lookupFailed (line : Nat) (e : ScopeError) : Impartial fun _ => lookupFailed line e := by
  unfold Binding.lookupFailed
  refine .scopes fun s => ?_
  by_cases he : e.fault = .compositeNotFound
  · have htype : ∃ e', Complaint.scope e = .scope e' ∧
        (e'.fault = .notFound ∨ e'.fault = .compositeNotFound) := ⟨e, rfl, Or.inr he⟩
    refine reports line .unknown (fun _ => htype) (fun _ _ _ => rfl) fun k => ?_
    rw [he]
    cases k <;> rfl
  · have hfault : decide (e.fault = .compositeNotFound) = false := decide_eq_false he
    simp only [hfault, Bool.false_and, Bool.false_eq_true, ↓reduceIte]
    refine complain line fun e' he' => ?_
    cases he'
    exact he

theorem complain_scope (line : Nat) {e : ScopeError} (he : e.fault ≠ .compositeNotFound) :
    Impartial fun _ => Binding.complain line (.scope e) :=
  complain line fun _ h => Complaint.scope.inj h ▸ he

theorem misused (line : Nat) (name : Text) : Impartial fun _ => misused line name :=
  .scopes fun s => complain_scope line (e := s.error .invalidIdentifier name) nofun

/-- What a fold gives does not depend on how names are resolved, and its complaints are not about
scopes. -/
theorem folding {f : Scopes → Folding.Fold α} {g : Bool → Except Complaint α → Bind β}
    (hf : ∀ s k, f (s.strictly k) = f s) (hu : ∀ s, Folding.Unscoped (f s))
    (hg : ∀ r, (∀ c, r = .error c → ∀ e, c ≠ .scope e) → Impartial fun k => g k r) :
    Impartial fun k => folding f >>= g k := by
  intro b log
  have hends := hu b.scopes b.notes trivial
  have hrun (k : Bool) := folding_iff.mp (ends_run (Binding.folding f) (b.under log k))
  have hfold (k : Bool) : f (b.under log k).scopes = f b.scopes := hf b.scopes k
  simp only [hfold] at hrun
  change ∀ k, Ends (f b.scopes) b.notes _ _ at hrun
  unfold Ends at hends hrun
  generalize (f b.scopes).run.run b.notes = r at hends hrun
  -- The fold goes on with a value or a complaint, or it breaks off.
  obtain ⟨(c | e) | v, notes⟩ := r
  · have hc : ∀ c', (.error c : Except Complaint α) = .error c' → ∀ e, c' ≠ .scope e := by
      rintro c' hc' e rfl
      obtain rfl := Except.error.inj hc'
      exact hends e rfl
    obtain ⟨r, d, log', h⟩ := hg (.error c) hc { b with notes } log
    refine ⟨r, d, log', fun k => ?_⟩
    rw [ExceptT.run_bind, StateT.run_bind, hrun]
    exact h k
  · refine ⟨.error e, { b with notes }, log, fun k => ?_⟩
    rw [ExceptT.run_bind, StateT.run_bind, hrun]
    rfl
  · obtain ⟨r, d, log', h⟩ := hg (.ok v) nofun { b with notes } log
    refine ⟨r, d, log', fun k => ?_⟩
    rw [ExceptT.run_bind, StateT.run_bind, hrun]
    exact h k

theorem constant (e : Expr) : Impartial fun _ => constant e := by
  refine folding (fun s k => Folding.fold_strictly s k e) (fun s => .fold e) fun r hr => ?_
  split
  · exact pure _
  · exact .bind (complain _ fun _ he => nomatch he) fun _ => pure _
  · exact .bind (complain _ fun e he => absurd he (hr _ rfl e)) fun _ => pure _

/-! Frames and declarations. -/

theorem enter (name : Text) (owner : Option Decl) : Impartial fun _ => enter name owner :=
  .scopes fun s => setScopes (s.enter name owner)

theorem leave : Impartial fun _ => leave := by
  refine .scopes fun s => ?_
  simp only [Scopes.leave?_strictly]
  cases s.leave? with
  | none => exact throw _
  | some r => exact setScopes r.2

theorem fault_of_register {s : Scopes} {name : Text} {d : Decl} {e : ScopeError}
    (h : s.register name d = .error e) : e.fault ≠ .compositeNotFound := by
  unfold Scopes.register at h
  dsimp only at h
  split at h
  · cases h
    nofun
  · split at h
    · cases h
      nofun
    · cases h

theorem fault_of_redeclare {s : Scopes} {name : Text} {d : Decl} {e : ScopeError}
    (h : s.redeclare name d = .error e) : e.fault ≠ .compositeNotFound := by
  unfold Scopes.redeclare at h
  split at h
  · cases h
    nofun
  · cases h

theorem register (line : Nat) (name : Text) (d : Decl) :
    Impartial fun _ => register line name d := by
  refine .scopes fun s => ?_
  have hinside (k : Bool) : (if Scopes.createsFrame d then (s.strictly k).enter name (some d)
      else s.strictly k) =
        (if Scopes.createsFrame d then s.enter name (some d) else s).strictly k := by
    split <;> rfl
  simp only [hinside, Scopes.register_strictly]
  cases h : (if Scopes.createsFrame d then s.enter name (some d) else s).register name d with
  | error e => exact .bind (complain_scope line (fault_of_register h)) fun _ => pure _
  | ok t =>
    refine .bind (m := fun k => Binding.setScopes _) ?_ fun _ => pure _
    cases Scopes.createsFrame d with
    | false => exact setScopes t
    | true => exact setScopes (t.unwindTo s.depth)

theorem declareType (d : Decl) : Impartial fun _ => declareType d := by
  refine .scopes fun s => ?_
  simp only [Scopes.findLocal?_strictly, Scopes.redeclare_strictly]
  split
  · rename_i c _
    cases h : s.redeclare c.name (.composite c) with
    | error e => exact complain_scope _ (fault_of_redeclare h)
    | ok t => exact setScopes t
  · exact (register _ _ _).discard

theorem declareTypes (declared : Bool) (ds : List Decl) :
    Impartial fun _ => declareTypes declared ds := .ite (pure _) (.forM declareType ds)

theorem declareImplicit (d : CallableDecl) (v : VarDecl) :
    Impartial fun _ => declareImplicit d v :=
  .bind (register _ _ _).discard fun _ => modify fun _ _ _ => rfl

theorem declareSelf (d : CallableDecl) : Impartial fun _ => declareSelf d :=
  .bind (newInfo _) fun _ => .bind (newInfo _) fun _ => declareImplicit _ _

theorem declareTag (info : NodeInfo) (tag : Text) (type : TypeExpr) :
    Impartial fun _ => declareTag info tag type := by
  unfold Binding.declareTag
  split
  · exact pure _
  · exact .bind (newInfo _) fun _ => (register _ _ _).discard

theorem declareConst (d : ConstDecl) : Impartial fun _ => declareConst d := by
  refine .bind (register _ _ _) fun free => ?_
  split
  · split
    · exact pure _
    · refine folding (fun s k => Folding.fold_strictly s k _) (fun s => .fold _) fun r _ => ?_
      split
      · exact complain _ fun _ he => nomatch he
      · exact warn _ fun _ he => nomatch he
      · exact pure _
  · exact pure _

theorem checkAbsolute (d : VarDecl) : Impartial fun _ => checkAbsolute d := by
  refine .scopes fun s => ?_
  change Impartial fun _ => if !d.absolute.isEmpty && (s.find? d.absolute).isNone then _ else _
  exact .ite (unresolved _ _) (pure _)

theorem declareVar (d : VarDecl) : Impartial fun _ => declareVar d :=
  .bind (checkAbsolute d) fun _ => (register _ _ _).discard

/-! Names. -/

theorem recordType (e : Expr) (t : Option TypeExpr) : Impartial fun _ => recordType e t := by
  cases t with
  | none => exact pure _
  | some t => exact annotate _

theorem noteNonLocal (e ident : Expr) (d : Decl) (place : Nat) :
    Impartial fun _ => noteNonLocal e ident d place := by
  have hmark : Impartial fun _ => (do
      Binding.annotate (·.markNonLocal (.expr ident))
      Binding.annotate (·.markNonLocal (.expr e))) := .bind (annotate _) fun _ => annotate _
  -- where a declaration stands does not depend on how names are resolved
  intro b log
  exact (Impartial.ite (c := b.isNonLocal d place = true) hmark (pure _)) b log

theorem typeOfDecl_strictly (s : Scopes) (k : Bool) (d : Decl) :
    typeOfDecl (s.strictly k) d = typeOfDecl s d := by
  unfold typeOfDecl
  simp only [Scopes.resolve_strictly]

theorem standIn (s : Scopes) (ident : Expr) (d : Decl) (called : Bool) :
    Impartial fun k => standIn (s.strictly k) ident d called := by
  unfold Binding.standIn
  split
  · simp only [Scopes.resolve_strictly]
    exact .bind (newInfo _) fun _ => .bind (recordType _ _) fun _ => pure _
  · exact pure _

theorem resolveName (info : NodeInfo) (name : Text) (called : Bool) :
    Impartial fun _ => resolveName info name called := by
  refine .scopes fun s => ?_
  simp only [Scopes.lookup?_strictly, typeOfDecl_strictly]
  split
  · exact unresolved _ _
  · refine .bind (newInfo _) fun i => .bind (annotate _) fun _ => .bind (annotate _) fun _ => ?_
    refine .bind (recordType _ _) fun _ => .bind (noteNonLocal _ _ _ _) fun _ => ?_
    exact .bind (standIn _ _ _ _) fun _ => annotate _

theorem compositeOf (e : Expr) : Impartial fun _ => compositeOf e := by
  refine .bind getNotes fun a => .scopes fun s => ?_
  simp only [Scopes.fetchComposite_strictly]
  exact pure _

theorem bindField (e object : Expr) (field : Text) :
    Impartial fun _ => bindField e object field := by
  refine .bind getNotes fun a => .scopes fun s => ?_
  simp only [Scopes.find?_strictly, Scopes.fetchMember_strictly, typeOfDecl_strictly]
  split
  · split
    · exact annotate _
    · exact unresolved _ _
  · refine .bind (compositeOf object) fun type => ?_
    split
    · exact pure _
    · refine .bind (ended _) fun r => ?_
      split
      · exact lookupFailed _ _
      · exact .bind (annotate _) fun _ => recordType _ _

theorem bindInherited (e : Expr) (method : Text) : Impartial fun _ => bindInherited e method := by
  refine .scopes fun s => ?_
  have hmethod (k : Bool) : currentMethod? (s.strictly k) = currentMethod? s := rfl
  simp only [hmethod, Scopes.fetchComposite_strictly, Scopes.fetchMember_strictly,
    Scopes.error_strictly]
  split
  · exact pure _
  · split
    · exact pure _
    · refine .bind (ended _) fun r => ?_
      split
      · exact annotate _
      · refine .ite (pure _) (complain_scope _ ?_)
        nofun

theorem bindCall (e callee : Expr) : Impartial fun _ => bindCall e callee := by
  refine .bind getNotes fun a => ?_
  split
  · refine .scopes fun s => ?_
    simp only [Scopes.resolve_strictly]
    exact annotate _
  · exact pure _

theorem bindIdent (e : Expr) (name : Text) : Impartial fun _ => bindIdent e name := by
  refine .bind getNotes fun a => ?_
  split
  · refine .scopes fun s => ?_
    simp only [Scopes.find?_strictly]
    split
    · exact annotate _
    · exact pure _
  · exact pure _

mutual

theorem visitExpr : (e : Expr) → Impartial fun _ => visitExpr e
  | .int .. | .real .. | .char .. | .string .. | .bool .. | .nil .. | .result .. => pure _
  | .name .. => resolveName _ _ _
  | .ident .. => bindIdent _ _
  | .call info callee args => by
    have hrest : Impartial fun _ => (do
        Binding.visitArgs args
        Binding.bindCall (.call info callee args) callee) :=
      .bind (visitArgs args) fun _ => bindCall _ callee
    unfold Binding.visitExpr
    dsimp only
    split
    · exact .bind (resolveName _ _ _) fun _ => hrest
    · exact .bind (visitExpr callee) fun _ => hrest
  | .field _ object _ => .bind (visitExpr object) fun _ => bindField _ _ _
  | .index _ array indexes => .bind (visitExpr array) fun _ => visitExprs indexes
  | .deref _ pointer => visitExpr pointer
  | .unary _ _ operand => visitExpr operand
  | .binary _ _ l r => .bind (visitExpr l) fun _ => visitExpr r
  | .range _ l r => .bind (visitExpr l) fun _ => visitExpr r
  | .set _ es => visitExprs es
  | .array _ es => visitExprs es
  | .record _ fields => visitFieldInits fields
  | .inherited _ _ args => .bind (visitArgs args) fun _ => bindInherited _ _

theorem visitExprs : (es : List Expr) → Impartial fun _ => visitExprs es
  | [] => pure _
  | e :: es => .bind (visitExpr e) fun _ => visitExprs es

theorem visitArgs : (args : Option (List Expr)) → Impartial fun _ => visitArgs args
  | none => pure _
  | some es => visitExprs es

theorem visitFieldInits : (fields : List FieldInit) → Impartial fun _ => visitFieldInits fields
  | [] => pure _
  | ⟨_, _, value⟩ :: fields => .bind (visitExpr value) fun _ => visitFieldInits fields

end

theorem visitOptExpr (e : Option Expr) : Impartial fun _ => visitOptExpr e := visitExprs e.toList

/-! Statements. -/

theorem resolveType (t : NamedType) : Impartial fun _ => resolveType t := by
  refine .scopes fun s => ?_
  simp only [Scopes.find?_strictly]
  split
  · exact unresolved _ _
  · exact annotate _
  · exact annotate _
  · exact misused _ _

theorem loopVariable (line : Nat) (name : Text) : Impartial fun _ => loopVariable line name := by
  refine .scopes fun s => ?_
  simp only [Scopes.find?_strictly]
  split
  · exact pure _
  · exact pure _
  · exact unresolved _ _
  · exact misused _ _

theorem checkLabel (line : Nat) (name : Text) : Impartial fun _ => checkLabel line name := by
  refine .scopes fun s => ?_
  simp only [Scopes.find?_strictly, Scopes.error_strictly]
  split
  · exact pure _
  · exact complain_scope _ (e := s.error .notFound name) nofun

theorem visitTarget (e : Expr) : Impartial fun _ => visitTarget e := by
  refine .scopes fun s => .bind getNotes fun a => ?_
  have hresult (k : Bool) : (s.strictly k).rewriteResult a e = s.rewriteResult a e := rfl
  simp only [hresult]
  split
  · exact throw _
  · exact modify fun _ _ _ => rfl
  · exact visitExpr e

theorem caseValue (e : Expr) : Impartial fun _ => caseValue e := by
  refine .bind (constant e) fun v => ?_
  split
  · exact pure _
  · refine .bind getNotes fun a => ?_
    split
    · split
      · exact pure _
      · exact throw _
    · exact .bind (complain _ fun _ he => nomatch he) fun _ => pure _

theorem caseRange (label : Expr) : Impartial fun _ => caseRange label := by
  unfold Binding.caseRange
  split
  · refine .bind (visitExpr _) fun _ => .bind (visitExpr _) fun _ => ?_
    refine .bind (caseValue _) fun l => .bind (caseValue _) fun h => ?_
    split
    · split
      · exact .bind (complain _ fun _ he => nomatch he) fun _ => pure _
      · exact pure _
    · exact pure _
  · exact .bind (visitExpr _) fun _ => .bind (caseValue _) fun _ => pure _

theorem checkRepeated (line : Nat) (seen : List CaseRange) (r : CaseRange) :
    Impartial fun _ => checkRepeated line seen r :=
  .bind getNotes fun _ => .ite (complain _ fun _ he => nomatch he) (pure _)

theorem caseLabels (seen : List CaseRange) (labels : List Expr) :
    Impartial fun _ => caseLabels seen labels := by
  refine .foldlM (fun seen label => ?_) labels seen
  refine .bind (caseRange label) fun r => ?_
  split
  · exact pure _
  · exact .bind (checkRepeated _ _ _) fun _ => pure _

theorem openObjects (objects : List Expr) : Impartial fun _ => openObjects objects := by
  refine .forM (fun e => ?_) objects
  refine .bind (visitExpr e) fun _ => .bind (compositeOf e) fun type => ?_
  split
  · exact pure _
  · refine .scopes fun s => ?_
    simp only [Scopes.loadHeritage_strictly]
    cases s.loadHeritage _ with
    | error e => exact lookupFailed _ _
    | ok r => exact setScopes r.1

theorem unwindTo (depth : Nat) : Impartial fun _ => (do
    Binding.setScopes ((← getScopes).unwindTo depth)) :=
  .scopes fun s => setScopes (s.unwindTo depth)

theorem inHandler (info : NodeInfo) (var : Text) (type : NamedType) {body : Bind Unit}
    (hbody : Impartial fun _ => body) : Impartial fun _ => inHandler info var type body := by
  refine .bind (resolveType type) fun _ => .ite hbody ?_
  refine .bind (enter _ _) fun _ => .bind (newInfo _) fun i => ?_
  exact .bind (register _ _ _).discard fun _ => .bind hbody fun _ => leave

mutual

theorem visitStmt : (s : Stmt) → Impartial fun _ => visitStmt s
  | .empty _ | .breakLoop _ | .continueLoop _ | .asm .. => pure _
  | .compound _ ss => visitStmts ss
  | .assign _ target value => .bind (visitTarget target) fun _ => visitExpr value
  | .call _ e => visitExpr e
  | .cond _ test yes no =>
    .bind (visitExpr test) fun _ => .bind (visitStmt yes) fun _ => visitOptStmt no
  | .caseOf _ selector arms rest =>
    .bind (visitExpr selector) fun _ => .bind (visitArms [] arms) fun _ => visitStmts rest
  | .forTo _ _ low high _ body =>
    .bind (loopVariable _ _) fun _ => .bind (visitExpr low) fun _ => .bind (visitExpr high) fun _ =>
      visitStmt body
  | .forIn _ _ coll body =>
    .bind (loopVariable _ _) fun _ => .bind (visitExpr coll) fun _ => visitStmt body
  | .whileDo _ test body => .bind (visitExpr test) fun _ => visitStmt body
  | .repeatUntil _ body test => .bind (visitStmts body) fun _ => visitExpr test
  | .withDo _ objects body =>
    .scopes fun s => .bind (openObjects objects) fun _ => .bind (visitStmt body) fun _ =>
      unwindTo s.depth
  | .tryExcept _ body handlers rest plain =>
    .bind (visitStmts body) fun _ => .bind (visitHandlers handlers) fun _ =>
      .bind (visitStmts rest) fun _ => visitStmts plain
  | .tryFinally _ body finish => .bind (visitStmts body) fun _ => visitStmts finish
  | .raise _ e place => .bind (visitOptExpr e) fun _ => visitOptExpr place
  | .goto _ _ => checkLabel _ _
  | .labeled _ _ s => .bind (checkLabel _ _) fun _ => visitStmt s

theorem visitStmts : (ss : List Stmt) → Impartial fun _ => visitStmts ss
  | [] => pure _
  | s :: ss => .bind (visitStmt s) fun _ => visitStmts ss

theorem visitOptStmt : (s : Option Stmt) → Impartial fun _ => visitOptStmt s
  | none => pure _
  | some s => visitStmt s

theorem visitArms (seen : List CaseRange) :
    (arms : List CaseArm) → Impartial fun _ => visitArms seen arms
  | [] => pure _
  | ⟨_, labels, body⟩ :: arms =>
    .bind (caseLabels seen labels) fun seen => .bind (visitStmt body) fun _ => visitArms seen arms

theorem visitHandlers : (handlers : List Handler) → Impartial fun _ => visitHandlers handlers
  | [] => pure _
  | ⟨_, _, _, body⟩ :: handlers =>
    .bind (inHandler _ _ _ (visitStmt body)) fun _ => visitHandlers handlers

end

/-! Types. -/

theorem memberPosition (next : UInt64) (value : Option Expr) :
    Impartial fun _ => memberPosition next value := by
  cases value with
  | none => exact pure _
  | some e =>
    refine .bind (visitExpr e) fun _ => .bind (constant e) fun v => ?_
    split <;> exact pure _

theorem declareEnumMember (type : TypeExpr) (name : Text) (next : UInt64) (m : EnumMember) :
    Impartial fun _ => declareEnumMember type name next m := by
  refine .bind (memberPosition next m.value) fun position => .bind (register _ _ _) fun free => ?_
  split
  · exact .bind (annotate _) fun _ => pure _
  · exact pure _

theorem visitEnum (info : NodeInfo) (members : List EnumMember) (name : Text) :
    Impartial fun _ => visitEnum info members name :=
  discard (foldlM (declareEnumMember _ _) members 0)

theorem visitSubrange (info : NodeInfo) (low high : Expr) :
    Impartial fun _ => visitSubrange info low high := by
  refine .bind (visitExpr low) fun _ => .bind (visitExpr high) fun _ => ?_
  refine folding (fun s k => Folding.subrangeSize_strictly s k low high)
    (fun s => .subrangeSize low high) fun r hr => ?_
  split
  · exact pure _
  · exact complain _ fun e he => absurd he (hr _ rfl e)

theorem visitLength (e : Expr) : Impartial fun _ => visitLength e :=
  .bind (visitExpr e) fun _ => (constant e).discard

/-! Routines. -/

theorem registerRoutine (d : CallableDecl) : Impartial fun _ => registerRoutine d := by
  refine .scopes fun s => ?_
  simp only [Scopes.register_strictly]
  cases h : s.register d.name (.callable d) with
  | error e => exact complain_scope _ (fault_of_register h)
  | ok t => exact .bind (setScopes t) fun _ => .ite (addOverload d) (pure _)

theorem declareRoutine (previous : Option Decl) (d : CallableDecl) :
    Impartial fun _ => declareRoutine previous d := by
  unfold Binding.declareRoutine
  split
  · refine .ite (addOverload d) (.ite (.scopes fun s => ?_) (registerRoutine d))
    simp only [Scopes.redeclare_strictly]
    cases h : s.redeclare d.name (.callable d) with
    | error e => exact complain_scope _ (fault_of_redeclare h)
    | ok t => exact setScopes t
  · exact registerRoutine d

theorem inRoutine (d : CallableDecl) {inside : Bind Unit} (hinside : Impartial fun _ => inside) :
    Impartial fun _ => inRoutine d inside :=
  .scopes fun s => .bind (enter _ _) fun _ => .bind (declareRoutine (s.findLocal? d.name) d)
    fun _ => .bind hinside fun _ => leave

theorem bindHeading (d : CallableDecl) (owner : Option Decl) :
    Impartial fun _ => bindHeading d owner := by
  unfold Binding.bindHeading
  split
  · exact annotate _
  · exact pure _

theorem leaveMethod (context : Scopes.MethodContext) : Impartial fun _ => leaveMethod context := by
  refine .scopes fun s => ?_
  simp only [Scopes.leaveMethod_strictly]
  refine .bind (setScopes _) fun _ => ?_
  split
  · exact pure _
  · exact throw _

theorem inMethod (d : CallableDecl) {inside : Bind Unit} (hinside : Impartial fun _ => inside) :
    Impartial fun _ => inMethod d inside := by
  refine .scopes fun s => ?_
  simp only [Scopes.enterMethod_strictly]
  obtain _ | e | ⟨t, context⟩ := s.enterMethod d.owner d.name
  · exact throw _
  · apply ended_some (α := Except ScopeError (Scopes × Scopes.MethodContext)) fun _ => .error e
    refine .bind (lookupFailed _ _) fun _ => .ite ?_ (pure _)
    exact .bind (enter _ _) fun _ => .bind (declareSelf d) fun _ => .bind hinside fun _ => leave
  · apply ended_some (α := Except ScopeError (Scopes × Scopes.MethodContext))
      fun k => .ok (t.strictly k, context)
    refine .bind (setScopes t) fun _ => .bind (bindHeading d t.top.owner) fun _ => ?_
    exact .bind (declareSelf d) fun _ => .bind hinside fun _ => leaveMethod context

theorem declareResult (d : CallableDecl) : Impartial fun _ => declareResult d :=
  .ite (.bind (newInfo _) fun _ => declareImplicit _ _) (pure _)

theorem inBody (d : CallableDecl) {body : Bind Unit} (hbody : Impartial fun _ => body) :
    Impartial fun _ => inBody d body :=
  .bind (declareResult d) fun _ => .scopes fun s =>
    .bind (modify (f := fun b => { b with routines := (s.depth - 1) :: b.routines })
      fun _ _ _ => rfl) fun _ => .bind hbody fun _ => modify fun _ _ _ => rfl

/-! Declarations. -/

theorem checkAccessor (s : Scopes) (type : Text) (line : Nat) (accessor : Text) :
    Impartial fun k => checkAccessor (s.strictly k) type line accessor := by
  unfold Binding.checkAccessor
  simp only [Scopes.fetchMember_strictly]
  split
  · exact pure _
  · refine .bind (ended _) fun r => ?_
    split
    · exact lookupFailed _ _
    · exact pure _

theorem checkMember (s : Scopes) (type : Text) (m : Member) :
    Impartial fun k => checkMember (s.strictly k) type m := by
  cases m with
  | property p => exact .bind (checkAccessor s _ _ _) fun _ => checkAccessor s _ _ _
  | var d => exact pure _
  | callable d => exact pure _

theorem checkComposite (c : CompositeDecl) : Impartial fun _ => checkComposite c := by
  refine .scopes fun s => .bind (.forM (checkMember s _) _) fun _ => ?_
  simp only [Scopes.loadHeritage_strictly]
  cases s.loadHeritage c.name with
  | error e => exact lookupFailed _ _
  | ok r => exact pure _

theorem fault_of_fetchCallable {s : Scopes} {name : Text} {e : ScopeError}
    (h : s.fetchCallable name = .error e) : e.fault ≠ .compositeNotFound := by
  unfold Scopes.fetchCallable Scopes.fetch at h
  split at h
  · cases h
    nofun
  · split at h
    · cases h
    · cases h
      nofun

theorem visitExport (d : ExportDecl) : Impartial fun _ => visitExport d := by
  have hexported : Impartial fun _ => checkExported d := by
    refine .scopes fun s => ?_
    simp only [Scopes.fetchCallable_strictly]
    cases h : s.fetchCallable d.name with
    | error e => exact complain_scope _ (fault_of_fetchCallable h)
    | ok c => exact pure _
  exact .bind hexported fun _ => .bind (visitOptExpr _) fun _ => visitOptExpr _

mutual

theorem visitType (t : TypeExpr) (name : Text) : Impartial fun _ => visitType t name :=
  match t with
  | .ordinal .. | .real .. | .rawPointer .. | .rawString .. | .variant .. => pure _
  | .named t => resolveType t
  | .string _ none => pure _
  | .string _ (some e) => visitLength e
  | .subrange .. => visitSubrange _ _ _
  | .enum .. => visitEnum _ _ _
  | .pointer _ t => visitType t ∅
  | .classRef _ t => visitType t ∅
  | .set _ t => visitType t ∅
  | .array _ _ index elem _ => .bind (visitTypes index) fun _ => visitOptType elem
  | .file _ elem => visitOptType elem
  | .record _ _ members part =>
    .bind (enter _ _) fun _ => .bind (visitFields members) fun _ => .bind (visitVariant part)
      fun _ => leave
  | .proc _ params result _ =>
    .bind (enter _ _) fun _ => .bind (visitOptParams params) fun _ => .bind (visitOptType result)
      fun _ => leave
  | .classType .. | .interface .. => pure _

theorem visitTypes : (ts : List TypeExpr) → Impartial fun _ => visitTypes ts
  | [] => pure _
  | t :: ts => .bind (visitType t ∅) fun _ => visitTypes ts

theorem visitOptType : (t : Option TypeExpr) → Impartial fun _ => visitOptType t
  | none => pure _
  | some t => visitType t ∅

theorem visitParams : (params : List ParamDecl) → Impartial fun _ => visitParams params
  | [] => pure _
  | ⟨_, _, _, type, default⟩ :: params =>
    .bind (visitOptType type) fun _ => .bind (visitOptExpr default) fun _ =>
      .bind (register _ _ _).discard fun _ => visitParams params

theorem visitOptParams :
    (params : Option (List ParamDecl)) → Impartial fun _ => visitOptParams params
  | none => pure _
  | some params => visitParams params

theorem visitField : (d : VarDecl) → Impartial fun _ => visitField d
  | ⟨_, _, type, _, _, _, _⟩ => .bind (visitOptType type) fun _ => (register _ _ _).discard

theorem visitFields : (members : List Member) → Impartial fun _ => visitFields members
  | [] => pure _
  | .var d :: members => .bind (visitField d) fun _ => visitFields members
  | .callable _ :: members => visitFields members
  | .property _ :: members => visitFields members

theorem visitCaseFields : (ds : List VarDecl) → Impartial fun _ => visitCaseFields ds
  | [] => pure _
  | d :: ds => .bind (visitField d) fun _ => visitCaseFields ds

theorem visitVariantCases : (cases : List VariantCase) → Impartial fun _ => visitVariantCases cases
  | [] => pure _
  | ⟨_, labels, fields⟩ :: cases =>
    .bind (visitExprs labels) fun _ => .bind (visitCaseFields fields) fun _ =>
      visitVariantCases cases

theorem visitVariant : (part : Option VariantPart) → Impartial fun _ => visitVariant part
  | none => pure _
  | some ⟨_, _, tagType, cases⟩ =>
    .bind (visitType tagType ∅) fun _ => .bind (declareTag _ _ _) fun _ => visitVariantCases cases

theorem visitCallable (d : CallableDecl) : Impartial fun _ => visitCallable d :=
  match d with
  | ⟨_, _, _, _, _, params, result, _, body, _, _, _, _⟩ =>
    have hinside : Impartial fun _ => _ := .bind (visitOptParams params) fun _ =>
      .bind (visitOptType result) fun _ => visitBody _ body
    .ite (inMethod _ hinside) (inRoutine _ hinside)

theorem visitBody (d : CallableDecl) :
    (body : Option Block) → Impartial fun _ => visitBody d body
  | none => pure _
  | some ⟨_, decls, body⟩ => inBody d (.bind (visitDecls false decls) fun _ => visitStmt body)

theorem visitMembers : (members : List Member) → Impartial fun _ => visitMembers members
  | [] => pure _
  | .var d :: members => .bind (visitField d) fun _ => visitMembers members
  | .callable d :: members => .bind (visitCallable d) fun _ => visitMembers members
  | .property d :: members => .bind (visitProperty d) fun _ => visitMembers members

theorem visitProperty : (d : PropertyDecl) → Impartial fun _ => visitProperty d
  | ⟨_, _, params, type, _, _, index, default, stored, _, _, _, _⟩ =>
    .bind (enter _ _) fun _ => .bind (visitParams params) fun _ => .bind leave fun _ =>
      .bind (visitOptType type) fun _ => .bind (visitOptExpr index) fun _ =>
        .bind (visitOptExpr default) fun _ => .bind (visitOptExpr stored) fun _ =>
          (register _ _ _).discard

theorem visitRest (t : TypeExpr) : Impartial fun _ => visitRest t := by
  cases t with
  | record _ _ _ part => exact visitVariant part
  | interface _ _ guid _ _ _ => exact visitOptExpr guid
  | _ => exact pure _

theorem visitDecls (declared : Bool) : (ds : List Decl) → Impartial fun _ => visitDecls declared ds
  | [] => pure _
  | .type ⟨_, name, t⟩ :: ds =>
    .bind (declareTypes _ _) fun _ => .bind (visitType t name) fun _ => visitDecls true ds
  | .composite ⟨_, _, _, _, members, type⟩ :: ds =>
    .bind (declareTypes _ _) fun _ => .bind (enter _ _) fun _ => .bind (visitMembers members)
      fun _ => .bind (visitRest type) fun _ => .bind leave fun _ => .bind (checkComposite _)
        fun _ => visitDecls true ds
  | .var ⟨_, _, type, init, _, _, _⟩ :: ds =>
    .bind (visitOptType type) fun _ => .bind (visitOptExpr init) fun _ =>
      .bind (declareVar _) fun _ => visitDecls false ds
  | .const ⟨_, _, type, value, _⟩ :: ds =>
    .bind (visitOptType type) fun _ => .bind (visitOptExpr value) fun _ =>
      .bind (declareConst _) fun _ => visitDecls false ds
  | .callable d :: ds => .bind (visitCallable d) fun _ => visitDecls false ds
  | .label _ :: ds => .bind (register _ _ _).discard fun _ => visitDecls false ds
  | .exported d :: ds => .bind (visitExport d) fun _ => visitDecls false ds
  | .param _ :: _ | .property _ :: _ | .unit _ :: _ | .enumMember _ :: _ => throw _

end

theorem visitBlock (b : Block) : Impartial fun _ => visitBlock b :=
  .bind (visitDecls false b.decls) fun _ => visitStmt b.body

theorem declareUnits (units : List UnitRef) : Impartial fun _ => declareUnits units :=
  .forM (fun _ => (register _ _ _).discard) units

theorem visitGoal (g : Goal) : Impartial fun _ => visitGoal g := by
  cases g with
  | program g => exact .bind (declareUnits _) fun _ => visitBlock _
  | library g => exact .bind (declareUnits _) fun _ => visitBlock _
  | unit g =>
    refine .bind (declareUnits _) fun _ => .bind (visitDecls _ _) fun _ => ?_
    refine .bind (declareUnits _) fun _ => .bind (visitDecls _ _) fun _ => ?_
    exact .bind (visitStmts _) fun _ => visitStmts _
  | package g => exact declareUnits _

end Impartial

/-- Binding a source from the start gives the same result, the same state and the same reports
whether names are resolved strictly or not. -/
theorem ofGoal_under (config : Config) (path : Text) (g : Goal) (last : Nat) :
    ∃ (r : Except Breach Unit) (c : Binding) (log : List Report),
      ∀ k, ofGoal { config with strict := k } path g last = (r, c.under log k) := by
  let b : Binding := { scopes := .initial config, notes := .forTree last, path }
  obtain ⟨r, c, log, h⟩ := Impartial.visitGoal g b []
  refine ⟨r, c, log, fun k => ?_⟩
  have hstart : { b with scopes := .initial { config with strict := k } } = b.under [] k := by
    rw [Scopes.initial_strictly]
    rfl
  change (visitGoal g).run.run { b with scopes := .initial { config with strict := k } } = _
  rw [hstart]
  exact h k

end ObjectPascal.Binding
