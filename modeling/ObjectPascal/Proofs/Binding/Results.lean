import ObjectPascal.Proofs.Binding.Promise
import ObjectPascal.Proofs.Scope.Heritage
import ObjectPascal.Proofs.Text

/-!
Assignments to the name of a function. The target is replaced by a reference to the result of the
function wherever the frame of the function is on top: in its own statements, but not in a `with`
statement or in a handler with a variable.
-/

namespace ObjectPascal

mutual

/-- The targets of the assignments in a statement that stand in no frame of their own. The body of a
`with` statement and that of a handler with a variable do. -/
def Stmt.targets : Stmt → List Expr
  | .assign _ target _ => [target]
  | .compound _ ss => stmtsTargets ss
  | .cond _ _ yes no => yes.targets ++ optStmtTargets no
  | .caseOf _ _ arms rest => armsTargets arms ++ stmtsTargets rest
  | .forTo _ _ _ _ _ body | .forIn _ _ _ body | .whileDo _ _ body | .labeled _ _ body =>
    body.targets
  | .repeatUntil _ body _ => stmtsTargets body
  | .tryExcept _ body handlers rest plain =>
    stmtsTargets body ++ (handlersTargets handlers ++ (stmtsTargets rest ++ stmtsTargets plain))
  | .tryFinally _ body finish => stmtsTargets body ++ stmtsTargets finish
  | .withDo .. | .call .. | .raise .. | .empty .. | .goto .. | .asm .. | .breakLoop ..
  | .continueLoop .. => []

/-- The targets in statements. -/
def stmtsTargets : List Stmt → List Expr
  | [] => []
  | s :: ss => s.targets ++ stmtsTargets ss

/-- The targets in a statement that may be absent. -/
def optStmtTargets : Option Stmt → List Expr
  | none => []
  | some s => s.targets

/-- The targets in the arms of a case statement. -/
def armsTargets : List CaseArm → List Expr
  | [] => []
  | ⟨_, _, body⟩ :: arms => body.targets ++ armsTargets arms

/-- The targets in handlers. -/
def handlersTargets : List Handler → List Expr
  | [] => []
  | ⟨_, var, _, body⟩ :: handlers =>
    (if var.isEmpty then body.targets else []) ++ handlersTargets handlers

end

/-- The targets in the body of a routine. -/
def CallableDecl.targets (d : CallableDecl) : List Expr :=
  match d.body with
  | none => []
  | some b => b.body.targets

end ObjectPascal

namespace ObjectPascal.Binding

/-- An expression is the bare name of a routine, perhaps called without arguments. -/
def Names (f : CallableDecl) (t : Expr) : Prop :=
  ∃ name, Scopes.plainName? t = some name ∧ name.sameFold f.name = true

/-- The routine declares something else under the name of its result, which is an error. -/
def Taken (c : Binding) (f : CallableDecl) : Prop :=
  ⟨c.path, f.info.line, .scope ⟨.redeclared, "Result", f.name⟩⟩ ∈ c.errors

/-- A reference with number `r` refers to the result of a function. -/
def RefersTo (c : Binding) (f : CallableDecl) (r : NodeInfo) : Prop :=
  Taken c f ∨ ∃ v, c.notes.declOf r = some (.var v) ∧ v.kind = .result ∧ (v, f) ∈ c.implicit

/-- A reference to the result of a function stands in for an expression. -/
def Redirected (c : Binding) (f : CallableDecl) (t : Expr) : Prop :=
  ∃ r name, c.notes.effective t = .result r name ∧ name.sameFold f.name = true ∧ RefersTo c f r

/-- A function is not bound: it stands in a method that is skipped with an error, or the first
member of its name that its type has is no function. -/
def Hindered (fs : List CallableDecl) (c : Binding) (f : CallableDecl) : Prop :=
  (∃ m ∈ fs, f ∈ m.routines ∧ Skipped c m) ∨
    f.owner.isEmpty = false ∧ ∀ h, c.notes.declOf f.info = some (.callable h) → h.isFunction = false

/-! The statements of a function. -/

/-- The target of an assignment is replaced by a new reference to the result of a function. -/
def Assigned (last : Nat) (c : Binding) (f : CallableDecl) (t : Expr) : Prop :=
  ∃ r name, c.notes.substitutes[t.info.id]? = some (.result r name) ∧
    c.notes.substitutes[r.id]? = none ∧ last < r.id ∧ r.id < c.notes.next ∧
    name.sameFold f.name = true ∧ RefersTo c f r

section Assigned

variable {last : Nat} {keys : List Nat} {b c : Binding} {f : CallableDecl} {t : Expr}

theorem Taken.passes (h : Taken b f) (hbc : Passes last keys b c) : Taken c f := by
  unfold Taken
  rw [hbc.path]
  exact hbc.errors _ h

theorem Assigned.redirected (h : Assigned last c f t) : Redirected c f t := by
  obtain ⟨r, name, ht, hr, -, -, hname, hrefers⟩ := h
  refine ⟨r, name, ?_, hname, hrefers⟩
  have hstop : c.notes.effectiveWithin 7 (.result r name) = .result r name := by
    have hinfo : (Expr.result r name).info = r := rfl
    rw [Annotations.effectiveWithin, hinfo, hr]
  rw [Annotations.effective, Annotations.effectiveWithin, ht]
  exact hstop

theorem Assigned.passes (h : Assigned last b f t) (hbc : Passes last keys b c)
    (ht : t.info.id ∈ keys) : Assigned last c f t := by
  obtain ⟨r, name, hsub, hr, hlast, hnext, hname, hrefers⟩ := h
  refine ⟨r, name, ?_, ?_, hlast, Nat.lt_of_lt_of_le hnext hbc.next, hname, ?_⟩
  · rw [hbc.substitutes _ (.inl ht), hsub]
  · rw [hbc.substitutes _ (.inr hlast), hr]
  · refine hrefers.imp (·.passes hbc) fun ⟨v, hv, hkind, himplicit⟩ => ⟨v, ?_, hkind, ?_⟩
    · rw [(hbc.same r (.inr ⟨hlast, hnext⟩)).declOf, hv]
    · exact hbc.implicit himplicit

/-- What is promised for a target that names the function. -/
def assigned (last : Nat) (f : CallableDecl) (t : Expr) : Promise last where
  keys := [t.info.id]
  needs _ := Names f t
  holds c := Assigned last c f t
  needs_later _ h := h
  holds_later hbc h := h.passes hbc List.mem_cons_self

end Assigned

/-- The frame on top is that of a function, or of an earlier heading of it. -/
def Fronts (f : CallableDecl) (b : Binding) : Prop :=
  b.scopes.top.name = f.name ∧ 2 ≤ b.scopes.inner.length ∧
    ∃ h : CallableDecl, b.scopes.top.owner = some (.callable h) ∧ h.isFunction = true ∧
      h.name.sameFold f.name = true

/-- It declares the result of the function. -/
def InBody (f : CallableDecl) (b : Binding) : Prop :=
  Fronts f b ∧ (Taken b f ∨ ∃ v, b.scopes.top.find? "Result" = some (.var v) ∧ v.kind = .result ∧
    (v, f) ∈ b.implicit)

theorem Fronts.firmTo {f : CallableDecl} {b c : Binding} (h : Fronts f b)
    (hbc : b.scopes.FirmTo c.scopes) : Fronts f c := by
  obtain ⟨hname, hlength, g, hg, hrest⟩ := h
  refine ⟨hbc.top.1.name.trans hname, ?_, g, hbc.top.1.owner.trans hg, hrest⟩
  rw [hbc.growsTo.length_eq]
  exact hlength

instance (f : CallableDecl) : Lasting (Fronts f) := ⟨fun hbc _ h => h.firmTo hbc⟩

instance (f : CallableDecl) : Lasting (InBody f) where
  lasts hbc htouch := by
    rintro ⟨hfronts, hresult⟩
    refine ⟨hfronts.firmTo hbc, hresult.imp (fun htaken => ?_) fun ⟨v, hv, hkind, himplicit⟩ => ?_⟩
    · unfold Taken
      rw [htouch.path]
      exact htouch.errors _ htaken
    · exact ⟨v, hbc.top.2 _ v hv, hkind, htouch.implicit himplicit⟩

section Statements

variable {last : Nat} {f : CallableDecl} {t : Expr} {b : Binding}

/-- The name of the function whose frame is on top stands for its result. -/
theorem Fronts.currentFunction? (h : Fronts f b) (ht : Names f t) :
    ∃ g, (Scopes.plainName? t).bind b.scopes.currentFunction? = some g ∧
      g.name.sameFold f.name = true := by
  obtain ⟨hname, hlength, g, howner, hfunction, hg⟩ := h
  obtain ⟨name, hplain, hsame⟩ := ht
  refine ⟨g, ?_, hg⟩
  match hinner : b.scopes.inner with
  | [] | [_] => simp [hinner] at hlength
  | top :: outer :: rest =>
    have htop : b.scopes.top = top := by simp [Scopes.top, hinner]
    rw [htop] at hname howner
    have hown : g.name.sameFold name = true := Text.sameFold_trans hg (Text.sameFold_symm hsame)
    have hfront : top.name.sameFold name = true := hname ▸ Text.sameFold_symm hsame
    rw [hplain, Option.bind_some, Scopes.currentFunction?, hinner]
    simp [howner, hown, hfront, hfunction]

theorem rewriteResult_of_none {s : Scopes} {a : Annotations}
    (h : s.rewriteResult a t = .ok none) :
    (Scopes.plainName? t).bind s.currentFunction? = none := by
  unfold Scopes.rewriteResult at h
  split at h
  · assumption
  · obtain ⟨_, -, h⟩ := bind_eq_ok.mp h
    obtain ⟨_, -, h⟩ := bind_eq_ok.mp h
    cases h

namespace Honours

theorem visitTarget : Honours (InBody f) (assigned last f t) (visitTarget t) t.nodes where
  marks n := (Marks.visitTarget t).lift
  held k hk := by
    rw [List.mem_singleton.mp hk, Node.expr_nodes]
    exact ⟨_, List.mem_cons_self, rfl⟩
  ends b _ hready _ hbody hnames := by
    obtain ⟨g, hg, hsame⟩ := hbody.1.currentFunction? hnames
    have hroom := hready.room
    have hlast := hready.next
    rw [Node.expr_nodes, List.length_cons] at hroom
    unfold Binding.visitTarget
    rw [Ends.bind_iff, getScopes_iff, Ends.bind_iff, getNotes_iff]
    split
    · trivial
    · rename_i ref notes hresult
      obtain ⟨g', hg', rfl, hnext, hsub, hdecl, hfound⟩ := rewriteResult_eq hresult
      obtain rfl : g = g' := Option.some.inj (hg.symm.trans hg')
      have hnext : notes.next = b.notes.next + 1 := hnext.trans (Nat.mod_eq_of_lt (by omega))
      have hself : t.info.id ≤ last := hready.numbers (.expr t) (by simp [Node.expr_nodes])
      have hne : t.info.id ≠ b.notes.next := by omega
      refine ⟨(b.notes.newInfo t.info.line).1, g.name, ?_, ?_, hlast, ?_, hsame, ?_⟩
      · rw [hsub, if_pos rfl]
      · rw [hsub]
        exact (if_neg hne).trans (hready.fresh _ hlast)
      · change b.notes.next < notes.next
        omega
      · refine hbody.2.imp id fun ⟨v, hv, hkind, himplicit⟩ => ⟨v, hfound _ hv, hkind, himplicit⟩
    · rename_i hnone
      rw [rewriteResult_of_none hnone] at hg
      cases hg

mutual

theorem visitStmt : (s : Stmt) → t ∈ s.targets →
    Honours (InBody f) (assigned last f t) (visitStmt s) s.nodes
  | .assign _ target value, h => by
    obtain rfl := List.mem_singleton.mp h
    exact node (left visitTarget fun _ => (Marks.visitExpr value).lift)
  | .compound _ ss, h => node (visitStmts ss h)
  | .cond _ test yes no, h => by
    have hboth := either (List.mem_append.mp h) (visitStmt yes) (visitOptStmt no)
      (fun _ => Marks.visitStmt yes) fun _ => Marks.visitOptStmt no
    exact node ((right (fun _ => (Marks.visitExpr test).lift) fun _ => hboth).of_eq (by simp))
  | .caseOf _ selector arms rest, h => by
    have hboth := either (List.mem_append.mp h) (visitArms [] arms) (visitStmts rest)
      (fun _ => Marks.visitArms [] arms) fun _ => Marks.visitStmts rest
    exact node ((right (fun _ => (Marks.visitExpr selector).lift) fun _ => hboth).of_eq (by simp))
  | .forTo info var low high _ body, h => by
    have hbody := right (fun _ => .silent (.loopVariable info.line var)) fun _ =>
      right (fun _ => (Marks.visitExpr low).lift) fun _ =>
        right (fun _ => (Marks.visitExpr high).lift) fun _ => visitStmt body h
    exact node (hbody.of_eq (by simp))
  | .forIn info var coll body, h => by
    have hbody := right (fun _ => .silent (.loopVariable info.line var)) fun _ =>
      right (fun _ => (Marks.visitExpr coll).lift) fun _ => visitStmt body h
    exact node (hbody.of_eq (by simp))
  | .whileDo _ test body, h =>
    node (right (fun _ => (Marks.visitExpr test).lift) fun _ => visitStmt body h)
  | .repeatUntil _ body test, h =>
    node (left (visitStmts body h) fun _ => (Marks.visitExpr test).lift)
  | .tryExcept _ body handlers rest plain, h => by
    have hlast (h : t ∈ stmtsTargets rest ++ stmtsTargets plain) :=
      either (List.mem_append.mp h) (visitStmts rest) (visitStmts plain)
        (fun _ => Marks.visitStmts rest) fun _ => Marks.visitStmts plain
    have hlater (h : t ∈ handlersTargets handlers ++ (stmtsTargets rest ++ stmtsTargets plain)) :=
      either (List.mem_append.mp h) (visitHandlers handlers) hlast
        (fun _ => Marks.visitHandlers handlers)
        fun _ => Marks.bind (Marks.visitStmts rest) fun _ => Marks.visitStmts plain
    have hall := either (List.mem_append.mp h) (visitStmts body) hlater
      (fun _ => Marks.visitStmts body) fun _ => Marks.bind (Marks.visitHandlers handlers) fun _ =>
        Marks.bind (Marks.visitStmts rest) fun _ => Marks.visitStmts plain
    exact node (hall.of_eq (by simp))
  | .tryFinally _ body finish, h =>
    node (either (List.mem_append.mp h) (visitStmts body) (visitStmts finish)
      (fun _ => Marks.visitStmts body) fun _ => Marks.visitStmts finish)
  | .labeled info label body, h => by
    have hbody := right (fun _ => .silent (.checkLabel info.line label)) fun _ => visitStmt body h
    exact node (hbody.of_eq (by simp))
  | .withDo .., h | .call .., h | .raise .., h | .empty .., h | .goto .., h | .asm .., h
  | .breakLoop .., h | .continueLoop .., h => nomatch h

theorem visitStmts : (ss : List Stmt) → t ∈ stmtsTargets ss →
    Honours (InBody f) (assigned last f t) (visitStmts ss) (stmtsNodes ss)
  | s :: ss, h => either (List.mem_append.mp h) (visitStmt s) (visitStmts ss)
      (fun _ => Marks.visitStmt s) fun _ => Marks.visitStmts ss

theorem visitOptStmt : (s : Option Stmt) → t ∈ optStmtTargets s →
    Honours (InBody f) (assigned last f t) (visitOptStmt s) (optStmtNodes s)
  | some s, h => visitStmt s h

theorem visitArms (seen : List CaseRange) : (arms : List CaseArm) → t ∈ armsTargets arms →
    Honours (InBody f) (assigned last f t) (visitArms seen arms) (armsNodes arms)
  | ⟨i, labels, body⟩ :: arms, h => by
    have hboth (seen : List CaseRange) := either (List.mem_append.mp h) (visitStmt body)
      (visitArms seen arms) (fun _ => Marks.visitStmt body) fun _ => Marks.visitArms seen arms
    exact node ((right (fun _ => (Marks.caseLabels seen labels).lift) hboth).of_eq (by simp))

theorem visitHandlers : (handlers : List Handler) → t ∈ handlersTargets handlers →
    Honours (InBody f) (assigned last f t) (visitHandlers handlers) (handlersNodes handlers)
  | ⟨i, var, type, body⟩ :: handlers, h => by
    have hbody (h : t ∈ if var.isEmpty then body.targets else []) :
        Honours (InBody f) (assigned last f t)
          (Binding.inHandler i var type (Binding.visitStmt body))
          (.handler ⟨i, var, type, body⟩ :: .type (.named type) :: body.nodes) := by
      split at h
      · exact inHandler ⟨i, var, type, body⟩ ‹_› (visitStmt body h)
      · cases h
    have hboth := either (List.mem_append.mp h) hbody (visitHandlers handlers)
      (fun _ => Marks.inHandler ⟨i, var, type, body⟩ (Marks.visitStmt body))
      fun _ => Marks.visitHandlers handlers
    exact hboth.of_eq (by simp [handlersNodes])

end

end Honours

end Statements

/-! Routines. -/

/-- In the frame of a function its result is declared, or its name is taken. -/
theorem declareResult_ends {f : CallableDecl} {b : Binding} (hfunction : f.isFunction = true)
    (h : Fronts f b) : Ends (declareResult f) b (fun _ c => InBody f c) fun _ _ => True := by
  have hinner : b.scopes.inner ≠ [] := fun hnil => by
    have hlength := h.2.1
    simp [hnil] at hlength
  unfold declareResult
  rw [if_pos hfunction, Ends.bind_iff]
  change Ends _ { b with notes := (b.notes.newInfo f.info.line).2 } _ _
  unfold declareImplicit register
  rw [Ends.bind_iff, Ends.discard_iff, Ends.bind_iff, getScopes_iff]
  dsimp only [Scopes.createsFrame]
  rw [if_neg Bool.false_ne_true]
  split
  · rename_i t ht
    obtain ⟨hfirm, hfound⟩ := Scopes.firmTo_of_register ht hinner rfl
    exact ⟨h.firmTo hfirm, .inr ⟨_, hfound, rfl, List.mem_append_right _ List.mem_cons_self⟩⟩
  · rename_i e he
    obtain rfl := Scopes.register_error he hinner rfl rfl
    refine ⟨h, .inl ?_⟩
    unfold Taken
    rw [← h.1]
    exact Array.mem_push_self

section Routines

variable {last : Nat} {fs : List CallableDecl} {f d : CallableDecl} {t : Expr} {b c : Binding}

theorem Hindered.passes {keys : List Nat} (h : Hindered fs b f) (hbc : Passes last keys b c)
    (hf : f.info.id ∈ keys) : Hindered fs c f := by
  obtain ⟨m, hm, hfm, hskipped⟩ | ⟨howner, hheading⟩ := h
  · exact .inl ⟨m, hm, hfm, hskipped.passes hbc⟩
  · refine .inr ⟨howner, fun h hh => hheading h ?_⟩
    rw [← (hbc.same f.info (.inl hf)).declOf, hh]

/-- What is promised for a target in the body of a function wherever the function stands. -/
def promised (last : Nat) (fs : List CallableDecl) (f : CallableDecl) (t : Expr) :
    Promise last where
  keys := [f.info.id, t.info.id]
  needs b := b.notes.declOf f.info = none ∧ Names f t
  holds c := Assigned last c f t ∨ Hindered fs c f
  needs_later hbc := And.imp_left (hbc.same f.info (.inl List.mem_cons_self)).declOf.trans
  holds_later hbc := Or.imp (fun h => h.passes hbc (List.mem_cons_of_mem _ List.mem_cons_self))
    fun h => h.passes hbc List.mem_cons_self

/-- In its own frame a function is on top. -/
theorem Inside.fronts {n : Nat} (hfunction : d.isFunction = true) (h : Inside n b d c) :
    Fronts d c := by
  obtain ⟨⟨u, hu, hscopes⟩, -⟩ := h
  have hlength : 1 ≤ u.inner.length :=
    List.length_pos_iff.mpr hu.inner_ne_nil
  refine ⟨?_, ?_, d, ?_, hfunction, Text.sameFold_refl _⟩
  · rw [hscopes]
    rfl
  · rw [hscopes]
    exact Nat.succ_le_succ hlength
  · rw [hscopes]
    rfl

/-- A method that is not bound as a function is bound to another heading, or to none. -/
theorem heading_ends {s : Scopes} {context : Scopes.MethodContext}
    (hs : (b.scopes.enterMethod f.owner f.name).run = some (.ok (s, context)))
    (hnone : b.notes.declOf f.info = none) (hfront : ¬Fronts f { b with scopes := s }) :
    Ends (bindHeading f s.top.owner) { b with scopes := s } (fun _ c => ∀ h,
      c.notes.declOf f.info = some (.callable h) → h.isFunction = false) fun _ _ => True := by
  obtain ⟨hlength, hname, m, howner, hm⟩ := Scopes.enterMethod_top hs
  unfold bindHeading
  split
  · rename_i heading hheading
    unfold annotate
    rw [Ends.bind_iff, getNotes_iff]
    split
    · rename_i notes hnotes
      intro h hh
      cases (Annotations.declOf_of_bind hnotes).symm.trans hh
      by_contra hfunction
      have hdecl : m.decl = .callable heading := Option.some.inj (howner.symm.trans hheading)
      cases m with
      | var d => cases hdecl
      | property d => cases hdecl
      | callable d =>
        cases hdecl
        exact hfront ⟨hname, hlength, heading, hheading, by simpa using hfunction, hm⟩
    · trivial
  · intro h hh
    cases hnone.symm.trans hh

namespace Honours

variable {C : Binding → Prop} {ns : List Node} {m inside : Bind Unit}

/-- What is promised in the frame of a function is promised for it anywhere. -/
theorem promised (h : Honours C (assigned last f t) m ns) (hself : .decl (.callable f) ∈ ns) :
    Honours C (promised last fs f t) m ns where
  marks := h.marks
  held k hk := by
    obtain rfl | hk := List.mem_cons.mp hk
    · exact ⟨_, hself, rfl⟩
    · exact h.held k hk
  ends b hR hready honce hC hneeds :=
    (h.ends b hR hready (fun k hk => honce k (List.mem_cons_of_mem _ hk)) hC hneeds.2).mono
      (fun _ _ => .inl) fun _ _ h => h

/-- Among the members of its type a method is bound as a function, or it is hindered. -/
theorem amongMembers (howner : f.owner.isEmpty = false)
    (h : Honours (Fronts f) (assigned last f t) inside ns) {s : Scopes}
    {context : Scopes.MethodContext}
    (hs : (b.scopes.enterMethod f.owner f.name).run = some (.ok (s, context)))
    (hready : Ready last (.decl (.callable f) :: ns) b.notes)
    (honce : ∀ k ∈ (Binding.promised last fs f t).keys, Once k (.decl (.callable f) :: ns))
    (hneeds : (Binding.promised last fs f t).needs b) :
    Ends (do bindHeading f s.top.owner; declareSelf f; inside) { b with scopes := s }
      (fun _ c => (Binding.promised last fs f t).holds c) fun _ _ => True := by
  have hfirm : s.FirmTo s := .refl fun hnil => by
    have hlength := (Scopes.enterMethod_top hs).1
    simp [hnil] at hlength
  by_cases hfront : Fronts f { b with scopes := s }
  · have hown := right (fun _ => Marks.headingBound f s.top.owner) fun _ => h
    rw [bind_assoc] at hown
    exact (hown.promised List.mem_cons_self).ends { b with scopes := s } hfirm
      hready honce hfront hneeds
  · have hroom := hready.room
    rw [List.length_cons] at hroom
    have hheading := heading_ends hs hneeds.1 hfront
    have hmarked := Marks.bindHeading f s.top.owner { b with scopes := s } hfirm (Nat.le_refl _)
      (Nat.lt_of_le_of_lt (Nat.le_add_right _ _) hready.room)
    rw [Ends.bind_iff]
    refine (hheading.and hmarked).mono (fun _ c hc => ?_) fun _ _ _ => trivial
    obtain ⟨hnot, hfirm, htouch⟩ := hc
    have hmade : c.notes.next ≤ b.notes.next + 0 := htouch.made
    have hlast : last < c.notes.next := Nat.lt_of_lt_of_le hready.next htouch.next
    have hrest := (MarksWithin.bind (Marks.declareSelf f) fun _ => h.marks c.notes.next) c
      hfirm.reached (Nat.le_refl _) (by omega)
    refine hrest.mono (fun _ e he => .inr (.inr ⟨howner, fun g hg => hnot g ?_⟩)) fun _ _ h => h
    have hself : Once f.info.id ([.decl (.callable f)] ++ ns) := honce _ List.mem_cons_self
    have hfree : ¬Held f.info.id ns := hself.not_held ⟨_, List.mem_cons_self, rfl⟩
    have hpass : Passes last [f.info.id] c e := he.2.passes
      (List.forall_mem_singleton.mpr (hready.numbers _ List.mem_cons_self)) hlast
      (fun x hx => hready.numbers x (List.mem_cons_of_mem _ hx))
      (List.forall_mem_singleton.mpr hfree)
    rw [← (hpass.same f.info (.inl List.mem_cons_self)).declOf, hg]

/-- The body of a function sets its result. -/
theorem ownBody (hfunction : f.isFunction = true) (h : t ∈ f.targets) :
    Honours (Fronts f) (assigned last f t) (Binding.visitBody f f.body)
      ((optBlockNodes f.body).flatMap visits) := by
  unfold CallableDecl.targets at h
  cases hbody : f.body with
  | none =>
    rw [hbody] at h
    cases h
  | some b =>
    rw [hbody] at h
    obtain ⟨i, decls, body⟩ := b
    have hstmt : Honours (InBody f) (assigned last f t) (Binding.visitStmt body) body.nodes :=
      visitStmt body h
    have hinside := right (fun _ => Marks.visitDecls false decls) fun _ => hstmt.walked
    have hall := inBody (.block ⟨i, decls, body⟩) (fun _ => declareResult_ends hfunction) hinside
    exact hall.of_eq (by simp [optBlockNodes, visits])

/-- A function sets its own result. -/
theorem ownCallable (hfunction : f.isFunction = true) (h : t ∈ f.targets) (hfs : f ∈ fs) :
    Honours (fun _ => True) (Binding.promised last fs f t) (Binding.visitCallable f)
      (f.nodes.flatMap visits) := by
  have hinside : Honours (Fronts f) (assigned last f t) (Binding.insideOf f) _ :=
    (ownBody hfunction h).insideOf
  have hfronts (b c : Binding) (hc : Inside b.notes.next b f c) : Fronts f c :=
    hc.fronts hfunction
  refine subperm ?_ ((sublist_callable f).flatMap visits).subperm
  rw [List.flatMap_cons, visitCallable_eq]
  split
  · rename_i hmethod
    obtain ⟨howner, hbody⟩ := Bool.and_eq_true_iff.mp hmethod
    have howner : f.owner.isEmpty = false := by simpa using howner
    refine inMethod howner hbody (fun c hskipped => ?_) hfronts hinside.marks ?_
      fun b s context hs hready honce hneeds => amongMembers howner hinside hs hready honce hneeds
    · exact .inr (.inl ⟨f, hfs, f.mem_routines, hskipped⟩)
    · exact (right (fun _ => Marks.selfDeclared f) fun _ => hinside).promised List.mem_cons_self
  · exact inRoutine hfronts (hinside.node.promised List.mem_cons_self)

end Honours

end Routines

/-- The numbers in a source go up to `last` and leave room for the nodes that are made. No two nodes
have the number of a routine or of a target in it. -/
structure Numbered (g : Goal) (last : Nat) : Prop where
  range : ∀ x ∈ g.nodes.flatMap visits, x.info.id ≤ last
  routines : ∀ f ∈ g.routines, Once f.info.id (g.nodes.flatMap visits)
  targets : ∀ f ∈ g.routines, ∀ t ∈ f.targets, Once t.info.id (g.nodes.flatMap visits)
  room : last + 1 + 3 * (g.nodes.flatMap visits).length < Annotations.numberCount

/-- Where a source is bound to its end, the target of every assignment to the name of a function is
replaced by a reference to the result of the function, if the assignment stands in the body of the
function itself, and neither in a `with` statement nor in a handler with a variable. The only
functions of which this is not true stand in methods that are skipped with an error, or the first
member of their name is no function; and the reference can only be to something else if that has
taken the name of the result, which is an error. -/
theorem assignments_redirected {config : Config} {path : Text} {g : Goal} {last : Nat} {c : Binding}
    (hg : Numbered g last) (h : ofGoal config path g last = (.ok (), c)) :
    ∀ f ∈ g.routines, f.isFunction = true → ∀ t ∈ f.targets, Names f t →
      Redirected c f t ∨ Hindered g.routines c f := by
  intro f hf hfunction t ht hnames
  let b : Binding := { scopes := .initial config, notes := .forTree last, path }
  have hroom := hg.room
  have hnext : b.notes.next = last + 1 := Nat.mod_eq_of_lt (by omega)
  have hready : Ready last (g.nodes.flatMap visits) b.notes := by
    refine ⟨by omega, by omega, hg.range, fun k _ => ?_⟩
    exact Std.TreeMap.getElem?_emptyc
  have hown : Honours (fun _ => True) (promised last g.routines f t) (visitCallable f) _ :=
    Honours.ownCallable hfunction ht hf
  have hall := Honours.visitGoal hown
    (fun d hd hfd c hskipped => .inr (.inl ⟨d, hd, hfd, hskipped⟩)) g (List.Subset.refl _) hf
  have hfirm : b.scopes.FirmTo b.scopes := .refl (by simp [b, Scopes.initial])
  have hends := hall.ends b hfirm hready (fun k hk => ?_) trivial ⟨?_, hnames⟩
  · unfold Ends at hends
    rw [show (visitGoal g).run.run b = (.ok (), c) from h] at hends
    exact hends.imp_left Assigned.redirected
  · obtain rfl | hk := List.mem_cons.mp hk
    · exact hg.routines f hf
    · obtain rfl := List.mem_singleton.mp hk
      exact hg.targets f hf t ht
  · rfl

/-- The target of an assignment to `F`. -/
def handledTarget : Expr := .name { id := 3, line := 1 } "F"

/-- A function that sets its result in a handler, with the given variable or without one. -/
def handledFunction (var : Text) : CallableDecl :=
  let node (id : Nat) : NodeInfo := { id, line := 1 }
  let assignment : Stmt := .assign (node 5) handledTarget (.int (node 4) 1 "1")
  let handler : Handler := ⟨node 6, var, { info := node 7, name := "Exception" }, assignment⟩
  let body : Stmt := .compound (node 10)
    [.tryExcept (node 8) [.empty (node 2)] [handler] [] [], .empty (node 9)]
  { info := node 12, name := "F", kind := .function,
    result := some (.named { info := node 1, name := "Integer" })
    body := some ⟨node 11, [], body⟩ }

/-- A program with this function. -/
def handledProgram (var : Text) : Goal :=
  let node (id : Nat) : NodeInfo := { id, line := 1 }
  .program { info := node 16, name := "P",
             block := ⟨node 15, [.callable (handledFunction var)],
               .compound (node 14) [.empty (node 13)]⟩ }

/-- What the program holds. -/
example : (handledProgram "E").nodes.length = 16 := by decide +kernel

theorem numbered_handledProgram (var : Text) (hvar : var = ∅ ∨ var = "E") :
    Numbered (handledProgram var) 16 := by
  obtain rfl | rfl := hvar
  · exact ⟨by decide +kernel, by decide +kernel, by decide +kernel, by decide +kernel⟩
  · exact ⟨by decide +kernel, by decide +kernel, by decide +kernel, by decide +kernel⟩

theorem names_handledTarget (var : Text) : Names (handledFunction var) handledTarget :=
  ⟨"F", rfl, Text.sameFold_refl _⟩

theorem assignments_redirected_handled : Numbered (handledProgram ∅) 16 ∧
    ∃ c, ofGoal {} ∅ (handledProgram ∅) 16 = (.ok (), c) ∧
      handledFunction ∅ ∈ (handledProgram ∅).routines ∧ (handledFunction ∅).isFunction = true ∧
      handledTarget ∈ (handledFunction ∅).targets ∧ Names (handledFunction ∅) handledTarget ∧
      Redirected c (handledFunction ∅) handledTarget := by
  have hnumbered := numbered_handledProgram ∅ (.inl rfl)
  have hnames := names_handledTarget ∅
  have hroutine : handledFunction ∅ ∈ (handledProgram ∅).routines := List.mem_cons_self
  have htarget : handledTarget ∈ (handledFunction ∅).targets := List.mem_cons_self
  have hends : (ofGoal {} ∅ (handledProgram ∅) 16).1.isOk = true := by decide +kernel
  generalize hrun : ofGoal {} ∅ (handledProgram ∅) 16 = r at hends
  obtain ⟨_ | _, c⟩ := r
  · cases hends
  · refine ⟨hnumbered, c, rfl, hroutine, rfl, htarget, hnames, ?_⟩
    refine (assignments_redirected hnumbered hrun _ hroutine rfl _ htarget hnames).resolve_right ?_
    rintro (⟨m, hm, -, howner, -⟩ | ⟨howner, -⟩)
    · obtain rfl := List.mem_singleton.mp hm
      cases howner
    · cases howner

/-- Whether an expression is a call. -/
def isCall : Expr → Bool
  | .call .. => true
  | _ => false

/-- In a handler with a variable the function is called instead, though nothing else has its name,
and no error is reported. -/
theorem handled_not_redirected : Numbered (handledProgram "E") 16 ∧
    ∃ c, ofGoal {} ∅ (handledProgram "E") 16 = (.ok (), c) ∧ c.isClean = true ∧
      handledFunction "E" ∈ (handledProgram "E").routines ∧
      (handledFunction "E").isFunction = true ∧
      (∃ b ∈ (handledFunction "E").body, ∃ i value,
        .stmt (.assign i handledTarget value) ∈ b.body.nodes) ∧
      Names (handledFunction "E") handledTarget ∧
      ¬Redirected c (handledFunction "E") handledTarget := by
  have hends : endsWith (ofGoal {} ∅ (handledProgram "E") 16) (fun c =>
      c.isClean && isCall (c.notes.effective handledTarget)) = true := by decide +kernel
  obtain ⟨c, hc, hends⟩ := exists_of_endsWith hends
  obtain ⟨hclean, hcall⟩ := Bool.and_eq_true_iff.mp hends
  refine ⟨numbered_handledProgram "E" (.inr rfl), c, hc, hclean, List.mem_cons_self, rfl, ?_,
    names_handledTarget "E", ?_⟩
  · exact ⟨_, rfl, _, _, List.mem_of_getElem? (i := 5) rfl⟩
  · rintro ⟨r, name, heffective, -, -⟩
    rw [heffective] at hcall
    cases hcall

end ObjectPascal.Binding