import ObjectPascal.Proofs.Binding.Level
import ObjectPascal.Proofs.Folding

/-!
Steps of binding that declare nothing and record nothing but values of expressions that had none:
they look at what is there and report what is wrong. Folding is such a step, wherever it ends.
-/

namespace ObjectPascal

namespace Binding

variable {α β : Type}

/-- Nothing about scopes, declarations and stand-ins has changed, and the same routines are being
bound. -/
structure Quiet (b c : Binding) : Prop where
  scopes : c.scopes = b.scopes
  routines : c.routines = b.routines
  notes : Folding.Spared b.notes c.notes
  implicit : c.implicit = b.implicit
  path : c.path = b.path
  errors : ∀ f ∈ b.errors, f ∈ c.errors
  warnings : ∀ f ∈ b.warnings, f ∈ c.warnings

theorem Quiet.refl (b : Binding) : Quiet b b :=
  ⟨rfl, rfl, .refl _, rfl, rfl, fun _ h => h, fun _ h => h⟩

theorem Quiet.of_notes {b : Binding} {notes : Annotations} (h : Folding.Spared b.notes notes) :
    Quiet b { b with notes } := ⟨rfl, rfl, h, rfl, rfl, fun _ h => h, fun _ h => h⟩

/-- A step that declares nothing and refers to no declaration. -/
abbrev Silent (m : Bind α) : Prop := Keeps Quiet (fun (_ : Breach) _ _ => True) m

instance : Composes Quiet (fun (_ : Breach) (_ _ : Binding) => True) where
  trans h k := ⟨k.scopes.trans h.scopes, k.routines.trans h.routines, h.notes.trans k.notes,
    k.implicit.trans h.implicit, k.path.trans h.path, fun f hf => k.errors f (h.errors f hf),
    fun f hf => k.warnings f (h.warnings f hf)⟩
  reached _ := .refl _
  broken _ h := h

namespace Silent

theorem throw (e : Breach) : Silent (throw e : Bind α) := Keeps.throw fun _ _ => trivial

theorem complain (line : Nat) (c : Complaint) : Silent (complain line c) :=
  fun _ _ => ⟨rfl, rfl, .refl _, rfl, rfl, fun _ h => Array.mem_push_of_mem _ h, fun _ h => h⟩

theorem warn (line : Nat) (c : Complaint) : Silent (warn line c) :=
  fun _ _ => ⟨rfl, rfl, .refl _, rfl, rfl, fun _ h => h, fun _ h => Array.mem_push_of_mem _ h⟩

theorem getScopes : Silent getScopes := .bind .get fun _ => .pure _

theorem getNotes : Silent getNotes := .bind .get fun _ => .pure _

theorem unresolved (line : Nat) (name : Text) : Silent (unresolved line name) :=
  .bind getScopes fun _ => .ite (complain _ _) (warn _ _)

theorem lookupFailed (line : Nat) (e : ScopeError) : Silent (lookupFailed line e) := by
  unfold Binding.lookupFailed
  exact .bind getScopes fun _ => .ite (warn _ _) (complain _ _)

theorem misused (line : Nat) (name : Text) : Silent (misused line name) :=
  .bind getScopes fun _ => complain _ _

theorem ended (x : Option α) : Silent (ended x) := by
  cases x with
  | none => exact throw _
  | some r => exact .pure r

theorem folding {f : Scopes → Folding.Fold α} (hf : ∀ s, Folding.Spares (f s)) :
    Silent (folding f) := by
  intro b _
  rw [folding_iff]
  refine (hf b.scopes b.notes (.refl _)).mono (fun _ _ => .of_notes) fun stop _ h => ?_
  cases stop with
  | complaint c => exact .of_notes h
  | breach e => trivial

theorem constant (e : Expr) : Silent (constant e) := by
  refine .bind (folding fun _ => Folding.Spares.fold e) fun r => ?_
  split
  · exact .pure _
  · exact .bind (complain _ _) fun _ => .pure _
  · exact .bind (complain _ _) fun _ => .pure _

/-- What becomes of a constant after it was registered. -/
theorem constantDeclared (d : ConstDecl) (free : Bool) : Silent (do
    if free && d.kind != .typed then
      match d.value with
      | none => pure ()
      | some e =>
        match ← Binding.folding (Folding.fold · e) with
        | .error c => Binding.complain d.info.line (.inConstant d.name c)
        | .ok none => Binding.warn d.info.line (.inConstant d.name .notConstant)
        | .ok (some _) => pure ()) := by
  split
  · split
    · exact .pure _
    · refine .bind (folding fun _ => Folding.Spares.fold _) fun r => ?_
      split
      · exact complain _ _
      · exact warn _ _
      · exact .pure _
  · exact .pure _

theorem addOverload (d : CallableDecl) : Silent (addOverload d) :=
  fun _ _ => ⟨rfl, rfl, .refl _, rfl, rfl, fun _ h => h, fun _ h => h⟩

theorem compositeOf (e : Expr) : Silent (compositeOf e) :=
  .bind getNotes fun _ => .bind getScopes fun _ => .pure _

theorem loopVariable (line : Nat) (name : Text) : Silent (loopVariable line name) := by
  refine .bind getScopes fun s => ?_
  split
  · exact .pure _
  · exact .pure _
  · exact unresolved _ _
  · exact misused _ _

theorem checkLabel (line : Nat) (name : Text) : Silent (checkLabel line name) := by
  refine .bind getScopes fun s => ?_
  split
  · exact .pure _
  · exact complain _ _

theorem caseValue (e : Expr) : Silent (caseValue e) := by
  refine .bind (constant e) fun v => ?_
  split
  · exact .pure _
  · refine .bind getNotes fun a => ?_
    split
    · split
      · exact .pure _
      · exact throw _
    · exact .bind (complain _ _) fun _ => .pure _

theorem checkRepeated (line : Nat) (seen : List CaseRange) (r : CaseRange) :
    Silent (checkRepeated line seen r) := .bind getNotes fun _ => .ite (complain _ _) (.pure _)

theorem checkAbsolute (d : VarDecl) : Silent (checkAbsolute d) := by
  refine .bind getScopes fun s => ?_
  split
  · exact unresolved _ _
  · exact .pure _

theorem checkAccessor (s : Scopes) (type : Text) (line : Nat) (accessor : Text) :
    Silent (checkAccessor s type line accessor) := by
  unfold Binding.checkAccessor
  split
  · exact .pure _
  · refine .bind (ended _) fun r => ?_
    split
    · exact lookupFailed _ _
    · exact .pure _

theorem checkMember (s : Scopes) (type : Text) (m : Member) : Silent (checkMember s type m) := by
  cases m with
  | property p => exact .bind (checkAccessor _ _ _ _) fun _ => checkAccessor _ _ _ _
  | var d => exact .pure _
  | callable d => exact .pure _

theorem checkComposite (c : CompositeDecl) : Silent (checkComposite c) := by
  refine .bind getScopes fun s => .bind (.forM (checkMember _ _) _) fun _ => ?_
  split
  · exact lookupFailed _ _
  · exact .pure _

theorem checkExported (d : ExportDecl) : Silent (checkExported d) := by
  refine .bind getScopes fun s => ?_
  split
  · exact complain _ _
  · exact .pure _

end Silent

end Binding
end ObjectPascal

/-!
Binding loses nothing that it has found: a finding stays, and an expression that something stands in
for keeps a stand-in. Folding does not touch stand-ins at all, not even where it ends with a
complaint. This holds of every step, also between frames that are entered and left, so it is stated
without regard to the level of scopes.
-/

namespace ObjectPascal

/-- The forms of what can stand in for an expression. -/
def Expr.isStandIn : Expr → Bool
  | .ident .. | .call .. | .result .. => true
  | _ => false

namespace Annotations

variable {a b c : Annotations}

/-- Whatever stands in for an expression is an identifier, a call or a reference to a result. -/
def StandsIn (a : Annotations) : Prop :=
  ∀ (k : Nat) (e : Expr), a.substitutes[k]? = some e → e.isStandIn = true

theorem standsIn_forTree (last origin : Nat) : (forTree last origin).StandsIn := by
  intro k e he
  simp [forTree] at he

/-- What stands in for a stand-in is one too. -/
theorem isStandIn_effectiveWithin (h : a.StandsIn) (n : Nat) {e : Expr} (he : e.isStandIn = true) :
    (a.effectiveWithin n e).isStandIn = true := by
  induction n generalizing e with
  | zero => exact he
  | succ n ih =>
    rw [effectiveWithin]
    split
    · exact he
    · exact ih (h _ _ ‹_›)

/-- A name is replaced if and only if its number has a stand-in. -/
theorem isStandIn_effective_name (h : a.StandsIn) {i : NodeInfo} {n : Text} :
    (a.effective (.name i n)).isStandIn = true ↔ ∃ e, a.substitutes[i.id]? = some e := by
  unfold effective effectiveWithin
  split
  · rename_i hnone
    constructor
    · intro hname
      cases hname
    · rintro ⟨e, he⟩
      rw [show (Expr.name i n).info = i from rfl, he] at hnone
      cases hnone
  · rename_i e he
    exact ⟨fun _ => ⟨e, he⟩, fun _ => isStandIn_effectiveWithin h 7 (h _ _ he)⟩

/-- Nothing that stands in for another expression is lost. -/
structure Retains (a b : Annotations) : Prop where
  keys : ∀ (k : Nat) (e : Expr), a.substitutes[k]? = some e → ∃ e', b.substitutes[k]? = some e'
  standsIn : a.StandsIn → b.StandsIn

theorem Retains.of_eq (h : b.substitutes = a.substitutes) : a.Retains b := by
  refine ⟨fun k e he => ⟨e, by rw [h, he]⟩, fun ha k e he => ha k e ?_⟩
  rw [← h, he]

theorem Retains.trans (h : a.Retains b) (k : b.Retains c) : a.Retains c := by
  refine ⟨fun n e he => ?_, fun ha => k.standsIn (h.standsIn ha)⟩
  obtain ⟨e', he'⟩ := h.keys n e he
  exact k.keys n e' he'

/-- A new stand-in takes the place of an old one at most. -/
theorem retains_substitute (a : Annotations) (e : Expr) {r : Expr} (hr : r.isStandIn = true) :
    a.Retains (a.substitute e r) ∧ (a.substitute e r).substitutes[e.info.id]? = some r := by
  refine ⟨⟨fun k x hx => ?_, fun ha k x hx => ?_⟩, by rw [getElem?_substitute, if_pos rfl]⟩
  · rw [getElem?_substitute]
    split
    · exact ⟨r, rfl⟩
    · exact ⟨x, hx⟩
  · rw [getElem?_substitute] at hx
    split at hx
    · cases hx
      exact hr
    · exact ha k x hx

end Annotations

/-! Scopes keep their settings. -/

namespace Scopes

variable {s t : Scopes}

theorem modifyFrame_config (s : Scopes) (i : Nat) (f : Frame → Frame) :
    (s.modifyFrame i f).config = s.config := by
  cases i <;> rfl

theorem config_of_register {name : Text} {d : Decl} (h : s.register name d = .ok t) :
    t.config = s.config := by
  unfold register at h
  dsimp only at h
  split at h
  · cases h
  · split at h
    · cases h
    · cases h
      exact s.modifyFrame_config _ _

theorem config_of_redeclare {name : Text} {d : Decl} (h : s.redeclare name d = .ok t) :
    t.config = s.config := by
  unfold redeclare at h
  split at h
  · cases h
  · cases h
    exact s.modifyFrame_config _ _

theorem config_of_leave? {f : Frame} (h : s.leave? = some (f, t)) : t.config = s.config := by
  unfold leave? at h
  split at h <;> cases h
  rfl

theorem leaveMethod_config (s : Scopes) (context : MethodContext) :
    (s.leaveMethod context).2.config = s.config := by
  unfold leaveMethod
  split
  · rfl
  · split
    · rfl
    · have hconfig := config_of_leave? ‹_›
      split <;> exact hconfig

end Scopes

namespace Binding

variable {α β : Type} {b c d : Binding}

/-- Nothing that was found in `b` is lost in `c`. -/
structure Later (b c : Binding) : Prop where
  notes : b.notes.Retains c.notes
  path : c.path = b.path
  config : c.scopes.config = b.scopes.config
  errors : ∀ f ∈ b.errors, f ∈ c.errors
  warnings : ∀ f ∈ b.warnings, f ∈ c.warnings

theorem Later.refl (b : Binding) : Later b b :=
  ⟨.of_eq rfl, rfl, rfl, fun _ h => h, fun _ h => h⟩

theorem Later.trans (h : Later b c) (k : Later c d) : Later b d where
  notes := h.notes.trans k.notes
  path := k.path.trans h.path
  config := k.config.trans h.config
  errors := fun f hf => k.errors f (h.errors f hf)
  warnings := fun f hf => k.warnings f (h.warnings f hf)

theorem Later.of_notes {notes : Annotations} (h : b.notes.Retains notes) :
    Later b { b with notes } := ⟨h, rfl, rfl, fun _ h => h, fun _ h => h⟩

theorem Later.of_scopes {scopes : Scopes} (h : scopes.config = b.scopes.config) :
    Later b { b with scopes } := ⟨.of_eq rfl, rfl, h, fun _ h => h, fun _ h => h⟩

/-- A step that loses nothing. -/
abbrev Retentive (m : Bind α) : Prop := Keeps Later (fun (_ : Breach) _ _ => True) m

instance : Composes Later (fun (_ : Breach) (_ _ : Binding) => True) where
  trans := .trans
  reached _ := .refl _
  broken _ h := h

/-- A silent step does not touch anything that was found. -/
theorem Silent.retentive {m : Bind α} (h : Silent m) : Retentive m := fun b _ =>
  (h b (.refl b)).mono
    (fun _ _ hc => ⟨.of_eq hc.notes.substitutes, hc.path, by rw [hc.scopes], hc.errors,
      hc.warnings⟩)
    fun _ _ h => h

namespace Retentive

/-- A silent step before. -/
theorem after {m : Bind α} {k : α → Bind β} (hm : Silent m) (hk : ∀ a, Retentive (k a)) :
    Retentive (m >>= k) := .bind hm.retentive hk

theorem routines (f : Binding → List Nat) :
    Retentive (modify fun b => { b with routines := f b } : Bind PUnit) :=
  fun _ _ => ⟨.of_eq rfl, rfl, rfl, fun _ h => h, fun _ h => h⟩

theorem modify {f : Binding → Binding} (hf : ∀ b, Later b (f b)) :
    Retentive (modify f : Bind PUnit) := fun b _ => hf b

/-- Scopes are changed by a step that looks at them first. -/
theorem setScopes {f : Scopes → Scopes} (hf : ∀ s, (f s).config = s.config) :
    Retentive (do setScopes (f (← Binding.getScopes))) :=
  fun b _ => Later.of_scopes (hf b.scopes)

theorem enter (name : Text) (owner : Option Decl) : Retentive (enter name owner) :=
  setScopes fun _ => rfl

theorem leave : Retentive leave := by
  intro b _
  unfold Binding.leave
  rw [Ends.bind_iff, getScopes_iff]
  split
  · exact Later.of_scopes (Scopes.config_of_leave? ‹_›)
  · trivial

theorem annotate {f : Annotations → Except Breach Annotations}
    (hf : ∀ a a', f a = .ok a' → a.Retains a') : Retentive (annotate f) := by
  intro b _
  unfold Binding.annotate
  rw [Ends.bind_iff, getNotes_iff]
  split
  · exact Later.of_notes (hf _ _ ‹_›)
  · trivial

/-- What is recorded about a node stands in for nothing. -/
theorem update {n : Node} {f : Annotation → Annotation} :
    Retentive (Binding.annotate (·.update n f)) :=
  annotate fun _ _ h => .of_eq (Annotations.get?_of_update h).1

theorem setConst {n : Node} {type : Option TypeExpr} {v : Constant} :
    Retentive (Binding.annotate (·.setConst n type v)) :=
  annotate fun _ _ h => .of_eq (Annotations.get?_of_update (Annotations.update_of_setConst h)).1

theorem newInfo (line : Nat) : Retentive (newInfo line) :=
  fun _ _ => Later.of_notes (.of_eq rfl)

/-! Declaring names. -/

theorem register (line : Nat) (name : Text) (d : Decl) : Retentive (register line name d) := by
  intro b _
  unfold Binding.register
  rw [Ends.bind_iff, getScopes_iff]
  dsimp only
  split
  · rename_i t ht
    have hconfig : t.config = b.scopes.config := by
      refine (Scopes.config_of_register ht).trans ?_
      split <;> rfl
    refine Later.of_scopes ?_
    split <;> exact hconfig
  · exact (after (.complain line _) fun _ => .pure _) b (.refl b)

theorem registerRoutine (d : CallableDecl) : Retentive (registerRoutine d) := by
  intro b hb
  unfold Binding.registerRoutine
  rw [Ends.bind_iff, getScopes_iff]
  dsimp only
  split
  · have hafter : Retentive (if d.hasDirective .OVERLOAD then addOverload d else pure ()) :=
      .ite (Silent.addOverload d).retentive (.pure _)
    rw [Ends.bind_iff, setScopes_iff]
    exact hafter.goesOn (.of_scopes (Scopes.config_of_register ‹_›))
  · exact (Silent.complain _ _).retentive b hb

theorem redeclare (line : Nat) (name : Text) (d : Decl) : Retentive (do
    match (← Binding.getScopes).redeclare name d with
    | .ok s => Binding.setScopes s
    | .error e => Binding.complain line (.scope e)) := by
  intro b hb
  rw [Ends.bind_iff, getScopes_iff]
  split
  · exact Later.of_scopes (Scopes.config_of_redeclare ‹_›)
  · exact (Silent.complain _ _).retentive b hb

theorem declareRoutine (previous : Option Decl) (d : CallableDecl) :
    Retentive (declareRoutine previous d) := by
  unfold Binding.declareRoutine
  split
  · split
    · exact (Silent.addOverload d).retentive
    · split
      · exact redeclare _ _ _
      · exact registerRoutine d
  · exact registerRoutine d

theorem declareType (d : Decl) : Retentive (declareType d) := by
  intro b hb
  unfold Binding.declareType
  rw [Ends.bind_iff, getScopes_iff]
  split
  · split
    · exact Later.of_scopes (Scopes.config_of_redeclare ‹_›)
    · exact (Silent.complain _ _).retentive b hb
  · exact (register _ _ _).discard b hb

theorem declareTypes (declared : Bool) (ds : List Decl) : Retentive (declareTypes declared ds) :=
  .ite (.pure _) (.forM declareType ds)

theorem declareImplicit (d : CallableDecl) (v : VarDecl) : Retentive (declareImplicit d v) :=
  .bind (register _ _ _).discard fun _ =>
    modify fun _ => ⟨.of_eq rfl, rfl, rfl, fun _ h => h, fun _ h => h⟩

theorem declareSelf (d : CallableDecl) : Retentive (declareSelf d) :=
  .bind (newInfo _) fun _ => .bind (newInfo _) fun _ => declareImplicit _ _

theorem declareResult (d : CallableDecl) : Retentive (declareResult d) :=
  .ite (.bind (newInfo _) fun _ => declareImplicit _ _) (.pure _)

theorem declareTag (info : NodeInfo) (tag : Text) (type : TypeExpr) :
    Retentive (declareTag info tag type) := by
  unfold Binding.declareTag
  split
  · exact .pure _
  · exact .bind (newInfo _) fun _ => (register _ _ _).discard

theorem declareConst (d : ConstDecl) : Retentive (declareConst d) :=
  .bind (register _ _ _) fun free => (Silent.constantDeclared d free).retentive

theorem declareVar (d : VarDecl) : Retentive (declareVar d) :=
  after (.checkAbsolute d) fun _ => (register _ _ _).discard

theorem declareUnits (units : List UnitRef) : Retentive (declareUnits units) :=
  .forM (fun _ => (register _ _ _).discard) units

/-! Names. -/

theorem recordType (e : Expr) (t : Option TypeExpr) : Retentive (recordType e t) := by
  cases t with
  | none => exact .pure _
  | some t => exact update

theorem noteNonLocal (e ident : Expr) (d : Decl) (place : Nat) :
    Retentive (noteNonLocal e ident d place) := by
  refine .bind .get fun b => ?_
  split
  · exact .bind update fun _ => update
  · exact .pure _

theorem bindCall (e callee : Expr) : Retentive (bindCall e callee) := by
  refine after .getNotes fun a => ?_
  split
  · exact after .getScopes fun s => update
  · exact .pure _

theorem bindField (e object : Expr) (field : Text) : Retentive (bindField e object field) := by
  refine after .getNotes fun a => after .getScopes fun s => ?_
  split
  · split
    · exact update
    · exact (Silent.unresolved _ _).retentive
  · refine after (.compositeOf object) fun type => ?_
    split
    · exact .pure _
    · refine after (.ended _) fun r => ?_
      split
      · exact (Silent.lookupFailed _ _).retentive
      · exact .bind update fun _ => recordType _ _

theorem bindInherited (e : Expr) (method : Text) : Retentive (bindInherited e method) := by
  refine after .getScopes fun s => ?_
  split
  · exact .pure _
  · split
    · exact .pure _
    · refine after (.ended _) fun r => ?_
      split
      · exact update
      · split
        · exact .pure _
        · exact (Silent.complain _ _).retentive

theorem bindIdent (e : Expr) (name : Text) : Retentive (bindIdent e name) := by
  refine after .getNotes fun a => ?_
  split
  · refine after .getScopes fun s => ?_
    split
    · exact update
    · exact .pure _
  · exact .pure _

/-! Statements, types and declarations. -/

theorem resolveType (t : NamedType) : Retentive (resolveType t) := by
  refine after .getScopes fun s => ?_
  dsimp only
  split
  · exact (Silent.unresolved _ _).retentive
  · exact update
  · exact update
  · exact (Silent.misused _ _).retentive

theorem openObject (e : Expr) : Retentive (do
    match ← Binding.compositeOf e with
    | none => pure ()
    | some type =>
      match (← Binding.getScopes).loadHeritage type with
      | .ok (s, _) => Binding.setScopes s
      | .error err => Binding.lookupFailed e.info.line err) := by
  refine after (.compositeOf e) fun type => ?_
  split
  · exact .pure _
  · intro b hb
    rw [Ends.bind_iff, getScopes_iff]
    split
    · obtain ⟨pushed, rfl, -⟩ := Scopes.loadHeritage_eq ‹_›
      exact Later.of_scopes rfl
    · exact (Silent.lookupFailed _ _).retentive b hb

theorem bindHeading (d : CallableDecl) (owner : Option Decl) :
    Retentive (bindHeading d owner) := by
  unfold Binding.bindHeading
  split
  · exact update
  · exact .pure _

theorem leaveMethod (context : Scopes.MethodContext) : Retentive (leaveMethod context) := by
  intro b _
  unfold Binding.leaveMethod
  rw [Ends.bind_iff, getScopes_iff]
  dsimp only
  rw [Ends.bind_iff, setScopes_iff]
  split
  · exact Later.of_scopes (b.scopes.leaveMethod_config context)
  · trivial

end Retentive
end Binding
end ObjectPascal
