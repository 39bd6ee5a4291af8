import ObjectPascal.Proofs.Binding.Level
import ObjectPascal.Proofs.Binding.Neutral
import ObjectPascal.Proofs.Binding.Touches
import ObjectPascal.Proofs.Scope.Variables

/-!
Binding an expression declares nothing, and it finds no errors but faults of scopes: names that are
unknown, or members that a type does not have.
-/

namespace ObjectPascal.Binding

variable {α β : Type}

/-- From `b` to `c` the errors in `new` are found, which are faults of scopes, and nothing is
declared. -/
structure Faults (b c : Binding) (new : List Finding) : Prop where
  still : c.scopes = b.scopes
  path : c.path = b.path
  errors : c.errors.toList = b.errors.toList ++ new
  scopes : ∀ f ∈ new, ∃ e, f.complaint = .scope e

/-- A step that declares nothing and finds no errors but faults of scopes. -/
abbrev Scoped (m : Bind α) : Prop :=
  Keeps (fun b c => ∃ new, Faults b c new) (fun (_ : Breach) _ _ => True) m

theorem Faults.none {b c : Binding} (hstill : c.scopes = b.scopes) (hpath : c.path = b.path)
    (h : c.errors = b.errors) : Faults b c [] :=
  ⟨hstill, hpath, by rw [h, List.append_nil], fun _ hf => nomatch hf⟩

theorem Faults.refl (b : Binding) : Faults b b [] := .none rfl rfl rfl

theorem Faults.trans {b c d : Binding} {new new' : List Finding} (h : Faults b c new)
    (k : Faults c d new') : Faults b d (new ++ new') where
  still := k.still.trans h.still
  path := k.path.trans h.path
  errors := by rw [k.errors, h.errors, List.append_assoc]
  scopes f hf := (List.mem_append.mp hf).elim (h.scopes f) (k.scopes f)

instance : Composes (fun b c => ∃ new, Faults b c new)
    (fun (_ : Breach) (_ _ : Binding) => True) where
  trans := fun ⟨_, h⟩ ⟨_, k⟩ => ⟨_, h.trans k⟩
  reached _ := ⟨_, .refl _⟩
  broken _ h := h

namespace Scoped

theorem complain (line : Nat) (e : ScopeError) : Scoped (complain line (.scope e)) := by
  refine fun b _ => ⟨[⟨b.path, line, .scope e⟩], rfl, rfl, Array.toList_push, fun f hf => ?_⟩
  rw [List.mem_singleton.mp hf]
  exact ⟨e, rfl⟩

theorem warn (line : Nat) (c : Complaint) : Scoped (warn line c) := fun _ _ => ⟨[], .none rfl rfl rfl⟩

theorem getScopes : Scoped getScopes := .bind .get fun _ => .pure _

theorem getNotes : Scoped getNotes := .bind .get fun _ => .pure _

theorem ended (x : Option α) : Scoped (ended x) := by
  cases x with
  | none => exact .throw fun _ _ => trivial
  | some r => exact .pure r

theorem annotate (f : Annotations → Except Breach Annotations) : Scoped (annotate f) := by
  intro b _
  unfold Binding.annotate
  rw [Ends.bind_iff, getNotes_iff]
  split
  · exact ⟨[], .none rfl rfl rfl⟩
  · trivial

theorem newInfo (line : Nat) : Scoped (newInfo line) := fun _ _ => ⟨[], .none rfl rfl rfl⟩

theorem unresolved (line : Nat) (name : Text) : Scoped (unresolved line name) :=
  .bind getScopes fun _ => .ite (complain _ _) (warn _ _)

theorem lookupFailed (line : Nat) (e : ScopeError) : Scoped (lookupFailed line e) := by
  unfold Binding.lookupFailed
  exact .bind getScopes fun _ => .ite (warn _ _) (complain _ _)

theorem recordType (e : Expr) (t : Option TypeExpr) : Scoped (recordType e t) := by
  cases t with
  | none => exact .pure _
  | some t => exact annotate _

theorem noteNonLocal (e ident : Expr) (d : Decl) (place : Nat) :
    Scoped (noteNonLocal e ident d place) :=
  .bind .get fun _ => .ite (.bind (annotate _) fun _ => annotate _) (.pure _)

theorem standIn (s : Scopes) (ident : Expr) (d : Decl) (called : Bool) :
    Scoped (standIn s ident d called) := by
  unfold Binding.standIn
  split
  · exact .bind (newInfo _) fun _ => .bind (recordType _ _) fun _ => .pure _
  · exact .pure _

theorem resolveName (info : NodeInfo) (name : Text) (called : Bool) :
    Scoped (resolveName info name called) := by
  refine .bind getScopes fun s => ?_
  split
  · exact unresolved _ _
  · exact .bind (newInfo _) fun _ => .bind (annotate _) fun _ => .bind (annotate _) fun _ =>
      .bind (recordType _ _) fun _ => .bind (noteNonLocal _ _ _ _) fun _ =>
        .bind (standIn _ _ _ _) fun _ => annotate _

theorem compositeOf (e : Expr) : Scoped (compositeOf e) :=
  .bind getNotes fun _ => .bind getScopes fun _ => .pure _

theorem bindField (e object : Expr) (field : Text) : Scoped (bindField e object field) := by
  refine .bind getNotes fun a => .bind getScopes fun s => ?_
  split
  · split
    · exact annotate _
    · exact unresolved _ _
  · refine .bind (compositeOf object) fun type => ?_
    split
    · exact .pure _
    · refine .bind (ended _) fun r => ?_
      split
      · exact lookupFailed _ _
      · exact .bind (annotate _) fun _ => recordType _ _

theorem bindInherited (e : Expr) (method : Text) : Scoped (bindInherited e method) := by
  refine .bind getScopes fun s => ?_
  split
  · exact .pure _
  · split
    · exact .pure _
    · refine .bind (ended _) fun r => ?_
      split
      · exact annotate _
      · split
        · exact .pure _
        · exact complain _ _

theorem bindCall (e callee : Expr) : Scoped (bindCall e callee) := by
  refine .bind getNotes fun a => ?_
  split
  · exact .bind getScopes fun _ => annotate _
  · exact .pure _

theorem bindIdent (e : Expr) (name : Text) : Scoped (bindIdent e name) := by
  refine .bind getNotes fun a => ?_
  split
  · refine .bind getScopes fun s => ?_
    split
    · exact annotate _
    · exact .pure _
  · exact .pure _

mutual

theorem visitExpr : (e : Expr) → Scoped (visitExpr e)
  | .int .. | .real .. | .char .. | .string .. | .bool .. | .nil .. | .result .. => .pure _
  | .name .. => resolveName _ _ _
  | .ident .. => bindIdent _ _
  | .call _ callee args => by
    unfold Binding.visitExpr
    dsimp only
    split
    · exact .bind (resolveName _ _ _) fun _ => .bind (visitArgs args) fun _ => bindCall _ _
    · exact .bind (visitExpr callee) fun _ => .bind (visitArgs args) fun _ => bindCall _ _
  | .field _ object name => .bind (visitExpr object) fun _ => bindField _ object name
  | .index _ array indexes => .bind (visitExpr array) fun _ => visitExprs indexes
  | .deref _ pointer => visitExpr pointer
  | .unary _ _ operand => visitExpr operand
  | .binary _ _ l r => .bind (visitExpr l) fun _ => visitExpr r
  | .range _ l r => .bind (visitExpr l) fun _ => visitExpr r
  | .set _ es => visitExprs es
  | .array _ es => visitExprs es
  | .record _ fields => visitFieldInits fields
  | .inherited _ method args => .bind (visitArgs args) fun _ => bindInherited _ method

theorem visitExprs : (es : List Expr) → Scoped (visitExprs es)
  | [] => .pure _
  | e :: es => .bind (visitExpr e) fun _ => visitExprs es

theorem visitArgs : (args : Option (List Expr)) → Scoped (visitArgs args)
  | none => .pure _
  | some es => visitExprs es

theorem visitFieldInits : (fields : List FieldInit) → Scoped (visitFieldInits fields)
  | [] => .pure _
  | ⟨_, _, value⟩ :: fields => .bind (visitExpr value) fun _ => visitFieldInits fields

end

end Scoped
end ObjectPascal.Binding

/-!
What declares nothing. Expressions and statements leave all scopes as they are: the frames of
handlers and `with` statements are left again with all that they hold. A type declares the members
of its enumerations around it and nothing else.
-/

namespace ObjectPascal.Binding

variable {α β : Type}

/-- A step that leaves the scopes as they are. -/
abbrev Still (m : Bind α) : Prop :=
  Keeps (fun b c => c.scopes = b.scopes) (fun (_ : Breach) _ _ => True) m

instance : Composes (fun b c : Binding => c.scopes = b.scopes)
    (fun (_ : Breach) (_ _ : Binding) => True) where
  trans h k := k.trans h
  reached _ := rfl
  broken _ h := h

/-- A declaration is registered in the innermost frame, or it is not. -/
theorem register_ends {b : Binding} (hs : b.scopes.inner ≠ []) (line : Nat) (name : Text)
    (d : Decl) : Ends (register line name d) b (fun added c =>
      if added then b.scopes.OnTop (fun f g => f.add? name d = some g) c.scopes
      else c.scopes = b.scopes) fun _ _ => True := by
  unfold register
  rw [Ends.bind_iff, getScopes_iff]
  dsimp only
  cases hd : Scopes.createsFrame d with
  | false =>
    simp only [Bool.false_eq_true, if_false]
    split
    · exact Scopes.onTop_of_register ‹_› hs hd
    · rfl
  | true =>
    simp only [if_true]
    split
    · rename_i t ht
      obtain ⟨u, hu, rfl⟩ := Scopes.onTop_of_register_inside ht hs hd
      have hdepth : b.scopes.depth = u.depth := by
        obtain ⟨f, g, rest, hinner, rfl, -⟩ := hu
        simp [Scopes.depth, hinner]
      rw [Ends.bind_iff, setScopes_iff, Ends.pure_iff, if_pos rfl]
      change Scopes.OnTop _ _ (Scopes.unwindTo _ _)
      rw [hdepth, show (u.enter name (some d)).unwindTo u.depth = u from u.unwindTo_append [_]]
      exact hu
    · rfl

namespace Still

theorem of_scoped {m : Bind α} (h : Scoped m) : Still m := by
  intro b _
  refine (h b ⟨[], .refl b⟩).mono (fun _ _ hfaults => ?_) fun _ _ _ => trivial
  obtain ⟨_, hc⟩ := hfaults
  exact hc.still

theorem of_silent {m : Bind α} (h : Silent m) : Still m := fun b _ =>
  (h b (.refl b)).mono (fun _ _ hc => hc.scopes) fun _ _ _ => trivial

theorem visitExpr (e : Expr) : Still (visitExpr e) := of_scoped (.visitExpr e)

theorem visitExprs (es : List Expr) : Still (visitExprs es) := of_scoped (.visitExprs es)

theorem visitOptExpr (e : Option Expr) : Still (visitOptExpr e) := visitExprs e.toList

theorem visitTarget (e : Expr) : Still (visitTarget e) := by
  intro b _
  unfold Binding.visitTarget
  rw [Ends.bind_iff, getScopes_iff, Ends.bind_iff, getNotes_iff]
  split
  · trivial
  · rfl
  · exact visitExpr e b rfl

theorem resolveType (t : NamedType) : Still (resolveType t) := by
  refine .bind (of_silent .getScopes) fun s => ?_
  dsimp only
  split
  · exact of_silent (.unresolved _ _)
  · exact of_scoped (.annotate _)
  · exact of_scoped (.annotate _)
  · exact of_silent (.misused _ _)

theorem caseRange (label : Expr) : Still (caseRange label) := by
  unfold Binding.caseRange
  split
  · refine .bind (visitExpr _) fun _ => .bind (visitExpr _) fun _ => ?_
    refine .bind (of_silent (.caseValue _)) fun l => .bind (of_silent (.caseValue _)) fun h => ?_
    split
    · split
      · exact .bind (of_silent (.complain _ _)) fun _ => .pure _
      · exact .pure _
    · exact .pure _
  · exact .bind (visitExpr _) fun _ => .bind (of_silent (.caseValue _)) fun _ => .pure _

theorem caseLabels (seen : List CaseRange) (labels : List Expr) :
    Still (caseLabels seen labels) := by
  refine .foldlM (fun seen label => ?_) labels seen
  refine .bind (caseRange label) fun r => ?_
  split
  · exact .pure _
  · exact .bind (of_silent (.checkRepeated _ _ _)) fun _ => .pure _

/-- What stands on top of the frames of `b` is left again, whatever it holds. -/
theorem left {b c : Binding} {f : Frame} (h : c.scopes = b.scopes.withInner (f :: b.scopes.inner)) :
    Ends leave c (fun _ d => d.scopes = b.scopes) fun _ _ => True := by
  unfold leave
  rw [Ends.bind_iff, getScopes_iff, h]
  rfl

/-- A frame is entered and left again, and it may grow in between. -/
theorem framed (name : Text) (owner : Option Decl) {m : Bind Unit} (hm : Lawful m) :
    Still (do enter name owner; m; leave) := by
  intro b _
  rw [Ends.bind_iff]
  change Ends _ { b with scopes := b.scopes.enter name owner } _ _
  rw [Ends.bind_iff]
  refine (hm _ (.refl (by simp [Scopes.enter]))).mono (fun _ c hc => ?_) fun _ _ _ => trivial
  obtain ⟨⟨_, g, _, hinner, hscopes, -⟩, -⟩ := hc
  obtain ⟨rfl, rfl⟩ := List.cons.inj hinner
  exact left hscopes

/-- The variable of a handler is declared in a frame of its own. -/
theorem handled (info : NodeInfo) (var : Text) (type : NamedType) {body : Bind Unit}
    (hbody : Lawful body) : Still (do
      enter ("on " ++ var)
      let i ← newInfo info.line
      discard (register info.line var (.var { info := i, name := var, type := some (.named type) }))
      body
      leave) := by
  have hframed := framed ("on " ++ var) none (m := do
    let i ← newInfo info.line
    discard (register info.line var (.var { info := i, name := var, type := some (.named type) }))
    body) (.bind (Lawful.newInfo _) fun _ => .bind (Lawful.register _ _ _).discard fun _ => hbody)
  simpa only [bind_assoc] using hframed

theorem inHandler (info : NodeInfo) (var : Text) (type : NamedType) {body : Bind Unit}
    (hbody : Lawful body) (hstill : Still body) : Still (inHandler info var type body) :=
  .bind (resolveType type) fun _ => .ite hstill (handled info var type hbody)

instance : Composes (fun b c : Binding => Pushes b.scopes c.scopes)
    (fun (_ : Breach) (_ _ : Binding) => True) where
  trans h k := Chained.trans h k
  reached _ := .refl _
  broken _ h := h

/-- A method is bound among the members of its type, and all that was pushed for it is popped. -/
theorem inMethod (d : CallableDecl) {inside : Bind Unit} (hinside : Lawful inside) :
    Still (inMethod d inside) := by
  intro b _
  unfold Binding.inMethod
  rw [Ends.bind_iff, getScopes_iff, Ends.bind_iff]
  cases hx : b.scopes.enterMethod d.owner d.name with
  | none => trivial
  | some r =>
    rw [ended_some_iff]
    cases r with
    | error e =>
      have hframed := framed d.name (some (.callable d))
        (.bind (Lawful.declareSelf d) fun _ => hinside)
      simp only [bind_assoc] at hframed
      exact Keeps.bind (of_silent (.lookupFailed _ _)) (fun _ => .ite hframed (.pure _)) b rfl
    | ok r =>
      obtain ⟨s, context⟩ := r
      obtain ⟨f, pushed, rfl, hf, hmethod, hdepth, hpushed⟩ := Scopes.enterMethod_eq hx
      have hbody : Lawful (do
          bindHeading d f.owner
          declareSelf d
          inside) :=
        .bind (Lawful.bindHeading d f.owner) fun _ => .bind (Lawful.declareSelf d) fun _ => hinside
      have hends := hbody { b with scopes := b.scopes.withInner (f :: (pushed ++ b.scopes.inner)) }
        (.refl (by simp))
      dsimp only
      rw [Ends.bind_iff, setScopes_iff]
      rw [show (do
          bindHeading d (b.scopes.withInner (f :: (pushed ++ b.scopes.inner))).top.owner
          declareSelf d
          inside
          leaveMethod context : Bind Unit) = (do
            bindHeading d f.owner
            declareSelf d
            inside) >>= fun _ => leaveMethod context by simp only [bind_assoc]; rfl, Ends.bind_iff]
      refine hends.mono (fun _ c hc => ?_) fun _ _ _ => trivial
      obtain ⟨⟨_, g, _, hinner, hscopes, hgrows⟩, -⟩ := hc
      obtain ⟨rfl, rfl⟩ := List.cons.inj hinner
      have hleave : c.scopes.leaveMethod context = (.ok (), b.scopes) := by
        rw [hscopes]
        exact Scopes.leaveMethod_eq (hgrows.name.trans (hf.trans hmethod.symm)) hdepth hpushed
      unfold leaveMethod
      rw [Ends.bind_iff, getScopes_iff, hleave]
      rfl

/-- What becomes of the frame around a routine is what its declaration does to it. -/
theorem inRoutine_onTop {R : Frame → Frame → Prop} {b : Binding} {d : CallableDecl}
    {inside : Bind Unit} (hinside : Lawful inside)
    (h : Ends (declareRoutine (b.scopes.findLocal? d.name) d)
      { b with scopes := b.scopes.enter d.name (some (.callable d)) }
      (fun _ c => ∃ u, b.scopes.OnTop R u ∧ c.scopes = u.enter d.name (some (.callable d)))
      fun _ _ => True) :
    Ends (inRoutine d inside) b (fun _ c => b.scopes.OnTop R c.scopes) fun _ _ => True := by
  unfold inRoutine
  rw [Ends.bind_iff, getScopes_iff, Ends.bind_iff]
  change Ends _ { b with scopes := b.scopes.enter d.name (some (.callable d)) } _ _
  rw [Ends.bind_iff]
  refine h.mono (fun _ c hc => ?_) fun _ _ h => h
  obtain ⟨u, hu, hscopes⟩ := hc
  rw [Ends.bind_iff]
  refine (hinside c (.refl (by simp [hscopes, Scopes.enter]))).mono (fun _ e he => ?_)
    fun _ _ _ => trivial
  obtain ⟨⟨f, g, rest, hinner, he, -⟩, -⟩ := he
  rw [hscopes] at hinner he
  obtain ⟨rfl, rfl⟩ := List.cons.inj hinner
  refine (left (b := { b with scopes := u }) he).mono (fun _ x hx => ?_) fun _ _ h => h
  exact hx ▸ hu

/-- The objects of a `with` statement push frames. -/
theorem openObjects (objects : List Expr) :
    Keeps (fun b c : Binding => Pushes b.scopes c.scopes) (fun (_ : Breach) _ _ => True)
      (openObjects objects) := by
  have hlift {α : Type} {m : Bind α} (hm : Still m) :
      Keeps (fun b c : Binding => Pushes b.scopes c.scopes) (fun (_ : Breach) _ _ => True) m :=
    by
    refine fun b _ => (hm b rfl).mono (fun _ c hc => ?_) fun _ _ h => h
    exact ⟨[], hc⟩
  refine .forM (fun e => ?_) objects
  refine .bind (hlift (visitExpr e)) fun _ =>
    .bind (hlift (of_silent (.compositeOf e))) fun type => ?_
  split
  · exact .pure _
  · intro b _
    rw [Ends.bind_iff, getScopes_iff]
    split
    · obtain ⟨pushed, rfl, -⟩ := Scopes.loadHeritage_eq ‹_›
      exact ⟨pushed, rfl⟩
    · exact hlift (of_silent (.lookupFailed _ _)) b (.refl _)

/-- What is opened for a statement is closed after it. -/
theorem withObjects (objects : List Expr) {body : Bind Unit} (hbody : Still body) :
    Still (do
      let depth := (← getScopes).depth
      Binding.openObjects objects
      body
      setScopes ((← getScopes).unwindTo depth)) := by
  intro b _
  rw [Ends.bind_iff, getScopes_iff, Ends.bind_iff]
  refine (openObjects objects b (.refl _)).mono (fun _ c hc => ?_) fun _ _ h => h
  obtain ⟨pushed, hpushed⟩ := hc
  rw [Ends.bind_iff]
  refine (hbody c rfl).mono (fun _ d hd => ?_) fun _ _ h => h
  rw [Ends.bind_iff, getScopes_iff, hd, hpushed]
  exact b.scopes.unwindTo_append pushed

mutual

theorem visitStmt : (s : Stmt) → Still (visitStmt s)
  | .empty _ | .breakLoop _ | .continueLoop _ | .asm .. => .pure _
  | .compound _ ss => visitStmts ss
  | .assign _ target value => .bind (visitTarget target) fun _ => visitExpr value
  | .call _ e => visitExpr e
  | .cond _ test yes no =>
    .bind (visitExpr test) fun _ => .bind (visitStmt yes) fun _ => visitOptStmt no
  | .caseOf _ selector arms rest =>
    .bind (visitExpr selector) fun _ => .bind (visitArms [] arms) fun _ => visitStmts rest
  | .forTo _ _ low high _ body =>
    .bind (of_silent (.loopVariable _ _)) fun _ => .bind (visitExpr low) fun _ =>
      .bind (visitExpr high) fun _ => visitStmt body
  | .forIn _ _ coll body =>
    .bind (of_silent (.loopVariable _ _)) fun _ => .bind (visitExpr coll) fun _ => visitStmt body
  | .whileDo _ test body => .bind (visitExpr test) fun _ => visitStmt body
  | .repeatUntil _ body test => .bind (visitStmts body) fun _ => visitExpr test
  | .withDo _ objects body => withObjects objects (visitStmt body)
  | .tryExcept _ body handlers rest plain =>
    .bind (visitStmts body) fun _ => .bind (visitHandlers handlers) fun _ =>
      .bind (visitStmts rest) fun _ => visitStmts plain
  | .tryFinally _ body finish => .bind (visitStmts body) fun _ => visitStmts finish
  | .raise _ e place => .bind (visitOptExpr e) fun _ => visitOptExpr place
  | .goto _ _ => of_silent (.checkLabel _ _)
  | .labeled _ _ s => .bind (of_silent (.checkLabel _ _)) fun _ => visitStmt s

theorem visitStmts : (ss : List Stmt) → Still (visitStmts ss)
  | [] => .pure _
  | s :: ss => .bind (visitStmt s) fun _ => visitStmts ss

theorem visitOptStmt : (s : Option Stmt) → Still (visitOptStmt s)
  | none => .pure _
  | some s => visitStmt s

theorem visitArms (seen : List CaseRange) : (arms : List CaseArm) → Still (visitArms seen arms)
  | [] => .pure _
  | ⟨_, labels, body⟩ :: arms =>
    .bind (caseLabels seen labels) fun seen => .bind (visitStmt body) fun _ => visitArms seen arms

theorem visitHandlers : (handlers : List Handler) → Still (visitHandlers handlers)
  | [] => .pure _
  | ⟨_, _, _, body⟩ :: handlers =>
    .bind (inHandler _ _ _ (Lawful.visitStmt body) (visitStmt body)) fun _ => visitHandlers handlers

end

theorem memberPosition (next : UInt64) (value : Option Expr) :
    Still (memberPosition next value) := by
  cases value with
  | none => exact .pure _
  | some e =>
    refine .bind (visitExpr e) fun _ => .bind (of_silent (.constant e)) fun v => ?_
    split <;> exact .pure _

theorem visitSubrange (info : NodeInfo) (low high : Expr) :
    Still (visitSubrange info low high) := by
  refine .bind (visitExpr low) fun _ => .bind (visitExpr high) fun _ => ?_
  refine .bind (of_silent (.folding fun _ => Folding.Spares.subrangeSize low high)) fun r => ?_
  split
  · exact .pure _
  · exact of_silent (.complain _ _)

theorem visitLength (e : Expr) : Still (visitLength e) :=
  .bind (visitExpr e) fun _ => (of_silent (Silent.constant e)).discard

theorem visitExport (d : ExportDecl) : Still (visitExport d) :=
  .bind (of_silent (.checkExported d)) fun _ => .bind (visitOptExpr _) fun _ => visitOptExpr _

end Still

/-! Types. -/

end ObjectPascal.Binding

namespace ObjectPascal

/-- A frame to which only members of enumerations were added. -/
def Frame.MembersTo (f g : Frame) : Prop :=
  ∀ name, g.find? name = f.find? name ∨
    f.find? name = none ∧ ∃ m, g.find? name = some (.enumMember m)

namespace Frame.MembersTo

variable {f g h : Frame}

theorem refl (f : Frame) : f.MembersTo f := fun _ => .inl rfl

theorem trans (hfg : f.MembersTo g) (hgh : g.MembersTo h) : f.MembersTo h := by
  intro name
  obtain hsame | ⟨hfree, m, hm⟩ := hgh name
  · rw [hsame]
    exact hfg name
  · obtain hsame | ⟨-, m', hm'⟩ := hfg name
    · exact .inr ⟨hsame ▸ hfree, m, hm⟩
    · rw [hfree] at hm'
      cases hm'

theorem of_add? {name : Text} {m : EnumMember} (h : f.add? name (.enumMember m) = some g) :
    f.MembersTo g := by
  intro other
  rw [find?_of_add? h]
  cases hf : f.find? other with
  | some d => exact .inl rfl
  | none =>
    split
    · exact .inr ⟨rfl, m, rfl⟩
    · exact .inl rfl

end Frame.MembersTo

namespace Binding

/-- Only members of enumerations are added to the innermost frame. -/
def Enumerates (b c : Binding) : Prop := b.scopes.OnTop Frame.MembersTo c.scopes

theorem Enumerates.of_eq {b c : Binding} (hs : b.scopes.inner ≠ []) (h : c.scopes = b.scopes) :
    Enumerates b c := by
  unfold Enumerates
  rw [h]
  exact Scopes.onTop_self hs .refl

instance : Composes Enumerates (fun (_ : Breach) (_ _ : Binding) => True) where
  trans h k := Scopes.OnTop.trans h k fun _ _ _ => .trans
  reached h := .of_eq (Scopes.OnTop.inner_ne_nil h) rfl
  broken _ _ := trivial

/-- A step that adds only members of enumerations to the innermost frame. -/
abbrev Enumerating {α : Type} (m : Bind α) : Prop :=
  Keeps Enumerates (fun (_ : Breach) _ _ => True) m

namespace Enumerating

theorem of_still {α : Type} {m : Bind α} (h : Still m) : Enumerating m := fun b hb =>
  (h b rfl).mono (fun _ _ hc => .of_eq (Scopes.OnTop.inner_ne_nil hb) hc) fun _ _ h => h

theorem declareEnumMember (type : TypeExpr) (name : Text) (next : UInt64) (m : EnumMember) :
    Enumerating (declareEnumMember type name next m) := by
  refine .bind (of_still (.memberPosition next m.value)) fun position => .bind ?_ fun free => ?_
  · intro b hb
    have hs : b.scopes.inner ≠ [] := Scopes.OnTop.inner_ne_nil hb
    refine (register_ends hs _ _ _).mono (fun added c hc => ?_) fun _ _ h => h
    split at hc
    · exact hc.mono fun _ _ => .of_add?
    · exact .of_eq hs hc
  · split
    · exact .bind (of_still (.of_scoped (.annotate _))) fun _ => .pure _
    · exact .pure _

theorem visitEnum (info : NodeInfo) (members : List EnumMember) (name : Text) :
    Enumerating (visitEnum info members name) :=
  (Keeps.foldlM (declareEnumMember _ _) members 0).discard

mutual

theorem visitType (t : TypeExpr) (name : Text) : Enumerating (visitType t name) :=
  match t with
  | .ordinal .. | .real .. | .rawPointer .. | .rawString .. | .variant .. => .pure _
  | .named t => of_still (.resolveType t)
  | .string _ none => .pure _
  | .string _ (some e) => of_still (.visitLength e)
  | .subrange .. => of_still (.visitSubrange _ _ _)
  | .enum .. => visitEnum _ _ _
  | .pointer _ t => visitType t ∅
  | .classRef _ t => visitType t ∅
  | .set _ t => visitType t ∅
  | .array _ _ index elem _ => .bind (visitTypes index) fun _ => visitOptType elem
  | .file _ elem => visitOptType elem
  | .record _ _ members part => by
    have h := of_still (.framed "record" none
      (.bind (Lawful.visitFields members) fun _ => Lawful.visitVariant part))
    simp only [bind_assoc] at h
    exact h
  | .proc _ params result _ => by
    have h := of_still (.framed "proc" none
      (.bind (Lawful.visitOptParams params) fun _ => Lawful.visitOptType result))
    simp only [bind_assoc] at h
    exact h
  | .classType .. | .interface .. => .pure _

theorem visitTypes : (ts : List TypeExpr) → Enumerating (visitTypes ts)
  | [] => .pure _
  | t :: ts => .bind (visitType t ∅) fun _ => visitTypes ts

theorem visitOptType : (t : Option TypeExpr) → Enumerating (visitOptType t)
  | none => .pure _
  | some t => visitType t ∅

end

end Enumerating
end Binding
end ObjectPascal
