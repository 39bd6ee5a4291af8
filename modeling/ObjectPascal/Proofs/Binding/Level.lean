import ObjectPascal.Binding.Declaration
import ObjectPascal.Proofs.Folding
import ObjectPascal.Proofs.Scope.Level

/-!
Binding keeps the level of scopes: wherever it ends, the stack of frames is the one it began with,
and at most the innermost frame has grown. Each construct that enters frames leaves the same number
of them, so no rule about leaving frames is ever broken.
-/

namespace ObjectPascal.Binding

variable {α β : Type}

/-- The same stack of frames and the same routines around, with at most the innermost frame
grown. -/
def SameLevel (b c : Binding) : Prop := b.scopes.GrowsTo c.scopes ∧ c.routines = b.routines

/-- A step of binding that stays on its level and breaks no rule about leaving frames. -/
abbrev Level (m : Bind α) : Prop := Keeps SameLevel (fun (e : Breach) _ _ => ¬e.OfFrames) m

section SameLevel

variable {b c d : Binding}

theorem SameLevel.refl (h : b.scopes.inner ≠ []) : SameLevel b b := ⟨.refl h, rfl⟩

theorem SameLevel.trans (h : SameLevel b c) (k : SameLevel c d) : SameLevel b d :=
  ⟨h.1.trans k.1, k.2.trans h.2⟩

theorem SameLevel.reached (h : SameLevel b c) : SameLevel c c := ⟨h.1.reached, rfl⟩

theorem SameLevel.of_eq (h : SameLevel b c) (hs : d.scopes = c.scopes)
    (hr : d.routines = c.routines) : SameLevel b d := ⟨hs ▸ h.1, hr.trans h.2⟩

end SameLevel

/-- A breach from `b` on that is found in `c`. None is about frames, and one about a constant value
comes about only if a recorded value does not fit its type there, or if the names of the standard
types do not mean what they should. -/
def Excused (e : Breach) (b c : Binding) : Prop := e.Needs (b.scopes.Standard → c.notes.Unfit)

/-- The standard types depend on the frame of the language only. -/
theorem Excused.of_runtime {e : Breach} {b c d : Binding} (h : Excused e c d)
    (hr : c.scopes.runtime = b.scopes.runtime) : Excused e b d :=
  h.imp fun k hs => k (hs.of_runtime hr)

theorem SameLevel.excused {e : Breach} {b c d : Binding} (h : SameLevel b c) (k : Excused e c d) :
    Excused e b d := k.of_runtime h.1.runtime

/-- A step of binding that stays on its level, with no breach that has no excuse. -/
abbrev Lawful (m : Bind α) : Prop := Keeps SameLevel Excused m

instance : Composes SameLevel Excused where
  trans := SameLevel.trans
  reached := SameLevel.reached
  broken := SameLevel.excused

@[simp]
theorem getScopes_iff {b : Binding} {Q : Scopes → Binding → Prop} {E : Breach → Binding → Prop} :
    Ends getScopes b Q E ↔ Q b.scopes b := Iff.rfl

@[simp]
theorem getNotes_iff {b : Binding} {Q : Annotations → Binding → Prop}
    {E : Breach → Binding → Prop} : Ends getNotes b Q E ↔ Q b.notes b := Iff.rfl

@[simp]
theorem ended_some_iff {r : α} {b : Binding} {Q : α → Binding → Prop}
    {E : Breach → Binding → Prop} : Ends (ended (some r)) b Q E ↔ Q r b := Iff.rfl

@[simp]
theorem ended_none_iff {b : Binding} {Q : α → Binding → Prop} {E : Breach → Binding → Prop} :
    Ends (ended none) b Q E ↔ E .endless b := Iff.rfl

@[simp]
theorem setScopes_iff {b : Binding} {s : Scopes} {Q : PUnit → Binding → Prop}
    {E : Breach → Binding → Prop} :
    Ends (setScopes s) b Q E ↔ Q ⟨⟩ { b with scopes := s } := Iff.rfl

/-- Where a fold leads: its complaints are results, and what it recorded stays in any case. -/
theorem folding_iff {f : Scopes → Folding.Fold α} {b : Binding}
    {Q : Except Complaint α → Binding → Prop} {E : Breach → Binding → Prop} :
    Ends (folding f) b Q E ↔
      Ends (f b.scopes) b.notes (fun v notes => Q (.ok v) { b with notes }) fun stop notes =>
        match stop with
        | .complaint c => Q (.error c) { b with notes }
        | .breach e => E e { b with notes } := by
  unfold folding
  rw [Ends.bind_iff, Ends.get_iff]
  have hrun : (f b.scopes).run.run b.notes = (f b.scopes).run b.notes := rfl
  unfold Ends
  rw [hrun]
  generalize (f b.scopes).run b.notes = r
  obtain ⟨(_ | _) | v, notes⟩ := r <;> rfl

namespace Lawful

/-! Steps that do not touch the scopes. -/

theorem modify {f : Binding → Binding} (hs : ∀ b, (f b).scopes = b.scopes)
    (hr : ∀ b, (f b).routines = b.routines) : Lawful (modify f : Bind PUnit) :=
  fun b hb => hb.of_eq (hs b) (hr b)

theorem complain (line : Nat) (c : Complaint) : Lawful (complain line c) :=
  modify (fun _ => rfl) fun _ => rfl

theorem warn (line : Nat) (c : Complaint) : Lawful (warn line c) :=
  modify (fun _ => rfl) fun _ => rfl

theorem getScopes : Lawful getScopes := .bind .get fun _ => .pure _

theorem getNotes : Lawful getNotes := .bind .get fun _ => .pure _

theorem unresolved (line : Nat) (name : Text) : Lawful (unresolved line name) :=
  .bind getScopes fun _ => .ite (complain _ _) (warn _ _)

theorem lookupFailed (line : Nat) (e : ScopeError) : Lawful (lookupFailed line e) := by
  unfold Binding.lookupFailed
  exact .bind getScopes fun _ => .ite (warn _ _) (complain _ _)

theorem misused (line : Nat) (name : Text) : Lawful (misused line name) :=
  .bind getScopes fun _ => complain _ _

theorem ended (x : Option α) : Lawful (ended x) := by
  cases x with
  | none => exact .throw fun _ _ => trivial
  | some r => exact .pure r

theorem annotate {f : Annotations → Except Breach Annotations}
    (hf : ∀ a e, f a = .error e → e.Needs False) : Lawful (annotate f) := by
  refine .bind getNotes fun a => ?_
  split
  · exact modify (fun _ => rfl) fun _ => rfl
  · exact .throw fun _ _ => (hf _ _ ‹_›).imp False.elim

theorem newInfo (line : Nat) : Lawful (newInfo line) :=
  .bind getNotes fun _ => .bind (modify (fun _ => rfl) fun _ => rfl) fun _ => .pure _

theorem addOverload (d : CallableDecl) : Lawful (addOverload d) :=
  modify (fun _ => rfl) fun _ => rfl

theorem folding {f : Scopes → Folding.Fold α} (hf : ∀ s, Folding.Adds s (f s)) :
    Lawful (folding f) := by
  intro b hb
  rw [folding_iff]
  refine (hf b.scopes b.notes (.refl _)).mono (fun _ _ _ => hb) fun stop a hstop => ?_
  cases stop with
  | complaint c => exact hb
  | breach e => exact hstop e rfl

/-- The value of an expression that must be constant is recorded for what stands in for it. -/
theorem constant_recorded (e : Expr) {b : Binding} (hb : SameLevel b b) :
    Ends (constant e) b (fun v c => SameLevel b c ∧
      ∀ w, v = some w → c.notes.valueOf (c.notes.effective e).info = some w)
      fun e c => Excused e b c := by
  unfold constant
  rw [Ends.bind_iff, folding_iff]
  refine ((Folding.finds_fold e).ends b.notes).mono (fun v a ha => ?_) fun stop a hstop => ?_
  · cases v with
    | none => exact ⟨hb, fun _ h => nomatch h⟩
    | some v => exact ⟨hb, fun w hw => ha.2 w hw a (.refl a)⟩
  · cases stop with
    | complaint c => exact ⟨hb, fun _ h => nomatch h⟩
    | breach e => exact hstop e rfl

theorem constant (e : Expr) : Lawful (constant e) :=
  fun _ hb => (constant_recorded e hb).mono (fun _ _ h => h.1) fun _ _ h => h

/-! Declaring names. -/

theorem register (line : Nat) (name : Text) (d : Decl) : Lawful (register line name d) := by
  intro b hb
  have hinner := hb.1.inner_ne_nil
  unfold Binding.register
  rw [Ends.bind_iff, getScopes_iff]
  dsimp only
  cases hd : Scopes.createsFrame d with
  | false =>
    simp only [Bool.false_eq_true, if_false]
    split
    · rename_i t ht
      exact ⟨Scopes.growsTo_of_register ht hinner hd, rfl⟩
    · exact (complain line _).bind (fun _ => .pure _) b hb
  | true =>
    simp only [if_true]
    split
    · rename_i t ht
      obtain ⟨u, hu, rfl⟩ := Scopes.growsTo_of_register_inside ht hinner hd
      have hback :
          (u.withInner ({ name, owner := some d } :: u.inner)).unwindTo b.scopes.depth = u := by
        have hdepth : b.scopes.depth = u.depth := by simp [Scopes.depth, hu.length_eq]
        rw [hdepth]
        exact Scopes.unwindTo_append u [_]
      refine ⟨?_, rfl⟩
      change b.scopes.GrowsTo (Scopes.unwindTo _ _)
      rw [hback]
      exact hu
    · exact (complain line _).bind (fun _ => .pure _) b hb

theorem declareType (d : Decl) : Lawful (declareType d) := by
  intro b hb
  unfold Binding.declareType
  rw [Ends.bind_iff, getScopes_iff]
  have hregister : Lawful (Functor.discard (Binding.register d.info.line d.name d)) :=
    (register _ _ _).discard
  split
  · rename_i c hannounced
    split
    · rename_i t ht
      obtain ⟨e, he⟩ : ∃ e, b.scopes.findLocal? c.name = some e := by
        cases he : b.scopes.findLocal? c.name with
        | some e => exact ⟨e, rfl⟩
        | none =>
          have hnone : isAnnounced none = true := he ▸ hannounced
          cases hnone
      exact ⟨Scopes.growsTo_of_redeclare ht hb.1.inner_ne_nil he, rfl⟩
    · exact complain _ _ b hb
  · exact hregister b hb

theorem declareImplicit (d : CallableDecl) (v : VarDecl) : Lawful (declareImplicit d v) :=
  .bind (register _ _ _).discard fun _ => modify (fun _ => rfl) fun _ => rfl

theorem declareSelf (d : CallableDecl) : Lawful (declareSelf d) :=
  .bind (newInfo _) fun _ => .bind (newInfo _) fun _ => declareImplicit _ _

theorem declareTag (info : NodeInfo) (tag : Text) (type : TypeExpr) :
    Lawful (declareTag info tag type) := by
  unfold Binding.declareTag
  split
  · exact .pure _
  · exact .bind (newInfo _) fun _ => (register _ _ _).discard

theorem declareConst (d : ConstDecl) : Lawful (declareConst d) := by
  refine .bind (register _ _ _) fun free => ?_
  split
  · split
    · exact .pure _
    · refine .bind (folding fun _ => (Folding.finds_fold _).adds) fun r => ?_
      split
      · exact complain _ _
      · exact warn _ _
      · exact .pure _
  · exact .pure _

theorem checkAbsolute (d : VarDecl) : Lawful (checkAbsolute d) := by
  refine .bind getScopes fun s => ?_
  split
  · exact unresolved _ _
  · exact .pure _

theorem declareVar (d : VarDecl) : Lawful (declareVar d) :=
  .bind (checkAbsolute d) fun _ => (register _ _ _).discard

theorem declareTypes (declared : Bool) (ds : List Decl) : Lawful (declareTypes declared ds) :=
  .ite (.pure _) (.forM declareType ds)

/-! Names. -/

theorem bindTo (n : Node) (d : Decl) : Lawful (Binding.annotate (·.bind n d)) :=
  annotate fun _ _ h => Annotations.breach_of_update h

theorem setType (n : Node) (t : Option TypeExpr) : Lawful (Binding.annotate (·.setType n t)) :=
  annotate fun _ _ h => Annotations.breach_of_update h

theorem markNonLocal (n : Node) : Lawful (Binding.annotate (·.markNonLocal n)) :=
  annotate fun _ _ h => Annotations.breach_of_update h

theorem recordType (e : Expr) (t : Option TypeExpr) : Lawful (recordType e t) := by
  cases t with
  | none => exact .pure _
  | some t => exact setType _ _

theorem noteNonLocal (e ident : Expr) (d : Decl) (place : Nat) :
    Lawful (noteNonLocal e ident d place) := by
  refine .bind .get fun b => ?_
  split
  · exact .bind (markNonLocal _) fun _ => markNonLocal _
  · exact .pure _

theorem standIn (s : Scopes) (ident : Expr) (d : Decl) (called : Bool) :
    Lawful (standIn s ident d called) := by
  unfold Binding.standIn
  split
  · exact .bind (newInfo _) fun _ => .bind (recordType _ _) fun _ => .pure _
  · exact .pure _

theorem resolveName (info : NodeInfo) (name : Text) (called : Bool) :
    Lawful (resolveName info name called) := by
  refine .bind getScopes fun s => ?_
  split
  · exact unresolved _ _
  · refine .bind (newInfo _) fun i => .bind (bindTo _ _) fun _ => .bind (bindTo _ _) fun _ => ?_
    refine .bind (recordType _ _) fun _ => .bind (noteNonLocal _ _ _ _) fun _ => ?_
    exact .bind (standIn _ _ _ _) fun _ => annotate fun _ _ h => nomatch h

theorem compositeOf (e : Expr) : Lawful (compositeOf e) :=
  .bind getNotes fun _ => .bind getScopes fun _ => .pure _

theorem bindField (e object : Expr) (field : Text) : Lawful (bindField e object field) := by
  refine .bind getNotes fun a => .bind getScopes fun s => ?_
  split
  · split
    · exact bindTo _ _
    · exact unresolved _ _
  · refine .bind (compositeOf object) fun type => ?_
    split
    · exact .pure _
    · refine .bind (ended _) fun r => ?_
      split
      · exact lookupFailed _ _
      · exact .bind (bindTo _ _) fun _ => recordType _ _

theorem bindInherited (e : Expr) (method : Text) : Lawful (bindInherited e method) := by
  refine .bind getScopes fun s => ?_
  split
  · exact .pure _
  · split
    · exact .pure _
    · refine .bind (ended _) fun r => ?_
      split
      · exact bindTo _ _
      · split
        · exact .pure _
        · exact complain _ _

theorem bindCall (e callee : Expr) : Lawful (bindCall e callee) := by
  refine .bind getNotes fun a => ?_
  split
  · exact .bind getScopes fun s => setType _ _
  · exact .pure _

theorem bindIdent (e : Expr) (name : Text) : Lawful (bindIdent e name) := by
  refine .bind getNotes fun a => ?_
  split
  · refine .bind getScopes fun s => ?_
    split
    · exact bindTo _ _
    · exact .pure _
  · exact .pure _

mutual

theorem visitExpr : (e : Expr) → Lawful (visitExpr e)
  | .int .. | .real .. | .char .. | .string .. | .bool .. | .nil .. | .result .. => .pure _
  | .name .. => resolveName _ _ _
  | .ident .. => bindIdent _ _
  | .call info callee args => by
    have hrest : Lawful (do
        Binding.visitArgs args
        Binding.bindCall (.call info callee args) callee) :=
      .bind (visitArgs args) fun _ => bindCall _ callee
    unfold Binding.visitExpr
    dsimp only
    split
    · exact .bind (resolveName _ _ _) fun _ => hrest
    · exact .bind (visitExpr callee) fun _ => hrest
  | .field _ object _ => .bind (visitExpr object) fun _ => bindField _ _ _
  | .index _ array indexes => .bind (visitExpr array) fun _ => visitExprs indexes
  | .deref _ pointer => visitExpr pointer
  | .unary _ _ operand => visitExpr operand
  | .binary _ _ l r => .bind (visitExpr l) fun _ => visitExpr r
  | .range _ l r => .bind (visitExpr l) fun _ => visitExpr r
  | .set _ es => visitExprs es
  | .array _ es => visitExprs es
  | .record _ fields => visitFieldInits fields
  | .inherited _ _ args => .bind (visitArgs args) fun _ => bindInherited _ _

theorem visitExprs : (es : List Expr) → Lawful (visitExprs es)
  | [] => .pure _
  | e :: es => .bind (visitExpr e) fun _ => visitExprs es

theorem visitArgs : (args : Option (List Expr)) → Lawful (visitArgs args)
  | none => .pure _
  | some es => visitExprs es

theorem visitFieldInits : (fields : List FieldInit) → Lawful (visitFieldInits fields)
  | [] => .pure _
  | ⟨_, _, value⟩ :: fields => .bind (visitExpr value) fun _ => visitFieldInits fields

end

theorem visitOptExpr (e : Option Expr) : Lawful (visitOptExpr e) := visitExprs e.toList

/-! Statements. -/

theorem breach_of_rewriteResult {s : Scopes} {a : Annotations} {target : Expr} {e : Breach}
    (h : s.rewriteResult a target = .error e) : e.Needs False := by
  unfold Scopes.rewriteResult at h
  split at h
  · cases h
  · obtain h | ⟨a', -, h⟩ := bind_eq_error.1 h
    · exact Annotations.breach_of_bindFound h
    · obtain h | ⟨a'', -, h⟩ := bind_eq_error.1 h
      · exact Annotations.breach_of_update h
      · cases h

theorem resolveType (t : NamedType) : Lawful (resolveType t) := by
  refine .bind getScopes fun s => ?_
  dsimp only
  split
  · exact unresolved _ _
  · exact bindTo _ _
  · exact bindTo _ _
  · exact misused _ _

theorem loopVariable (line : Nat) (name : Text) : Lawful (loopVariable line name) := by
  refine .bind getScopes fun s => ?_
  split
  · exact .pure _
  · exact .pure _
  · exact unresolved _ _
  · exact misused _ _

theorem checkLabel (line : Nat) (name : Text) : Lawful (checkLabel line name) := by
  refine .bind getScopes fun s => ?_
  split
  · exact .pure _
  · exact complain _ _

theorem visitTarget (e : Expr) : Lawful (visitTarget e) := by
  refine .bind getScopes fun s => .bind getNotes fun a => ?_
  split
  · exact .throw fun _ _ => (breach_of_rewriteResult ‹_›).imp False.elim
  · exact modify (fun _ => rfl) fun _ => rfl
  · exact visitExpr e

theorem caseValue (e : Expr) : Lawful (caseValue e) := by
  intro b hb
  unfold Binding.caseValue
  rw [Ends.bind_iff]
  refine (constant_recorded e hb).mono (fun v c hc => ?_) fun _ _ h => h
  obtain ⟨hbc, hrecorded⟩ := hc
  split
  · exact hbc
  · rename_i v
    rw [Ends.bind_iff, getNotes_iff]
    split
    · rename_i hordinal
      obtain ⟨t, ht, ho⟩ := Option.map_eq_some_iff.mp hordinal
      split
      · exact hbc
      · have hbreach := Annotations.breach_of_integralOf ht ho (hrecorded v rfl) ‹_›
        exact hbc.excused (hbreach.imp fun h _ => h)
    · exact ((complain _ _).bind fun _ => .pure _).goesOn hbc

theorem caseRange (label : Expr) : Lawful (caseRange label) := by
  unfold Binding.caseRange
  split
  · refine .bind (visitExpr _) fun _ => .bind (visitExpr _) fun _ => ?_
    refine .bind (caseValue _) fun l => .bind (caseValue _) fun h => ?_
    split
    · split
      · exact .bind (complain _ _) fun _ => .pure _
      · exact .pure _
    · exact .pure _
  · exact .bind (visitExpr _) fun _ => .bind (caseValue _) fun _ => .pure _

theorem checkRepeated (line : Nat) (seen : List CaseRange) (r : CaseRange) :
    Lawful (checkRepeated line seen r) := .bind getNotes fun _ => .ite (complain _ _) (.pure _)

theorem caseLabels (seen : List CaseRange) (labels : List Expr) :
    Lawful (caseLabels seen labels) := by
  refine .foldlM (fun seen label => ?_) labels seen
  refine .bind (caseRange label) fun r => ?_
  split
  · exact .pure _
  · exact .bind (checkRepeated _ _ _) fun _ => .pure _

end Lawful

/-! Frames that are entered and left. -/

/-- What was pushed above the frames of `b`, with a frame of the given name on top. -/
def Above (b : Binding) (name : Text) (pushed : List Frame) (c : Binding) : Prop :=
  ∃ f : Frame, f.name = name ∧
    c.scopes = b.scopes.withInner (f :: (pushed ++ b.scopes.inner)) ∧ c.routines = b.routines

/-- A step that leads from above the frames of `b` back to the level of `b`. -/
def Returns (b : Binding) (name : Text) (pushed : List Frame) (m : Bind α) : Prop :=
  ∀ c, Above b name pushed c → Ends m c (fun _ d => SameLevel b d) fun e d => Excused e b d

section Frames

variable {b c d : Binding} {name : Text} {pushed : List Frame}

theorem Above.self (h : Above b name pushed c) : SameLevel c c := by
  obtain ⟨f, -, hscopes, -⟩ := h
  exact .refl (by simp [hscopes])

theorem Above.runtime (h : Above b name pushed c) : c.scopes.runtime = b.scopes.runtime := by
  obtain ⟨f, -, hscopes, -⟩ := h
  rw [hscopes]
  rfl

theorem Above.kept (h : Above b name pushed c) (hcd : SameLevel c d) : Above b name pushed d := by
  obtain ⟨f, hf, hc, hr⟩ := h
  obtain ⟨⟨f', g, rest, hinner, hd, hgrows⟩, hr'⟩ := hcd
  rw [hc] at hinner hd
  obtain ⟨rfl, rfl⟩ := List.cons.inj hinner
  exact ⟨g, hgrows.name.trans hf, hd, hr'.trans hr⟩

/-- Steps that stay on their level may come before the return. -/
theorem Returns.after {m : Bind α} {k : α → Bind β} (hm : Lawful m)
    (hk : ∀ a, Returns b name pushed (k a)) : Returns b name pushed (m >>= k) := by
  intro c hc
  rw [Ends.bind_iff]
  exact (hm c hc.self).mono (fun a d hd => hk a d (hc.kept hd))
    fun _ _ he => he.of_runtime hc.runtime

/-- Steps that stay on their level may come after the return. -/
theorem Returns.before {m : Bind α} {k : α → Bind β} (hm : Returns b name pushed m)
    (hk : ∀ a, Lawful (k a)) : Returns b name pushed (m >>= k) := by
  intro c hc
  rw [Ends.bind_iff]
  exact (hm c hc).mono (fun a d hd => (hk a).goesOn hd) fun _ _ he => he

theorem returns_leave (hb : SameLevel b b) : Returns b name [] leave := by
  rintro c ⟨f, -, hscopes, hr⟩
  unfold leave
  rw [Ends.bind_iff, getScopes_iff, hscopes]
  exact ⟨hb.1, hr⟩

theorem returns_leaveMethod {context : Scopes.MethodContext} (hb : SameLevel b b)
    (hname : context.method = name) (hdepth : context.depth = b.scopes.depth)
    (hpushed : pushed.length = context.ancestors + 1) :
    Returns b name pushed (leaveMethod context) := by
  rintro c ⟨f, hf, hscopes, hr⟩
  unfold leaveMethod
  rw [Ends.bind_iff, getScopes_iff, hscopes,
    Scopes.leaveMethod_eq (hf.trans hname.symm) hdepth hpushed]
  exact ⟨hb.1, hr⟩

/-- A frame is entered and left again. -/
theorem Lawful.framed (owner : Option Decl) {m : Bind α}
    (hm : ∀ b, SameLevel b b → Returns b name [] m) :
    Lawful (do enter name owner; m) := by
  intro b hb
  rw [Ends.bind_iff]
  exact hm b hb _ ⟨_, rfl, rfl, rfl⟩

/-- Frames are pushed above the level of `b`, and there may be any number of them. -/
def Opened (b c : Binding) : Prop :=
  ∃ t pushed, b.scopes.GrowsTo t ∧ c.scopes = t.withInner (pushed ++ t.inner) ∧
    c.routines = b.routines

theorem SameLevel.opened (h : SameLevel b c) : Opened b c := ⟨c.scopes, [], h.1, rfl, h.2⟩

theorem Opened.trans (h : Opened b c) (k : Opened c d) : Opened b d := by
  obtain ⟨t, pushed, hbt, hc, hr⟩ := h
  obtain ⟨u, more, ⟨f, g, rest, hinner, hu, hgrows⟩, hd, hr'⟩ := k
  rw [hc] at hinner hu
  cases pushed with
  | nil =>
    -- nothing is pushed yet, so the frame that grows is one of the level of `b`
    have htu : t.GrowsTo u := ⟨f, g, rest, hinner, hu, hgrows⟩
    exact ⟨u, more, hbt.trans htu, hd, hr'.trans hr⟩
  | cons p pushed =>
    obtain ⟨rfl, rfl⟩ := List.cons.inj hinner
    refine ⟨t, more ++ g :: pushed, hbt, ?_, hr'.trans hr⟩
    rw [hd, hu]
    simp

theorem Opened.runtime (h : Opened b c) : c.scopes.runtime = b.scopes.runtime := by
  obtain ⟨t, pushed, ht, hc, -⟩ := h
  rw [hc]
  exact ht.runtime

instance : Composes Opened Excused where
  trans := Opened.trans
  reached := by
    rintro b c ⟨t, pushed, ht, hc, -⟩
    have hinner : t.inner ≠ [] := ht.reached.inner_ne_nil
    exact (SameLevel.refl (by simp [hc, hinner])).opened
  broken h k := k.of_runtime h.runtime

theorem Lawful.opens {m : Bind α} (hm : Lawful m) : Keeps Opened Excused m := by
  rintro b ⟨t, -, ht, -⟩
  exact (hm b (.refl ht.inner_ne_nil)).mono (fun _ _ h => h.opened) fun _ _ h => h

theorem openObjects_opens (objects : List Expr) :
    Keeps Opened Excused (openObjects objects) := by
  refine .forM (fun e => ?_) objects
  refine .bind (Lawful.visitExpr e).opens fun _ => .bind (Lawful.compositeOf e).opens fun type => ?_
  split
  · exact .pure _
  · intro b hb
    rw [Ends.bind_iff, getScopes_iff]
    split
    · rename_i s n hs
      obtain ⟨pushed, rfl, -⟩ := Scopes.loadHeritage_eq hs
      obtain ⟨t, -, ht, -⟩ := hb
      exact ⟨b.scopes, pushed, .refl ht.inner_ne_nil, rfl, rfl⟩
    · exact (Lawful.lookupFailed _ _).opens b hb

/-- What is opened for a statement is closed after it. -/
theorem Lawful.withObjects (objects : List Expr) {body : Bind Unit} (hbody : Lawful body) :
    Lawful (do
      let depth := (← Binding.getScopes).depth
      openObjects objects
      body
      setScopes ((← Binding.getScopes).unwindTo depth)) := by
  intro b hb
  rw [Ends.bind_iff, getScopes_iff, Ends.bind_iff]
  refine (openObjects_opens objects b hb.opened).mono (fun _ c hc => ?_) fun _ _ he => he
  rw [Ends.bind_iff]
  refine (hbody.opens.goesOn hc).mono (fun _ d hd => ?_) fun _ _ he => he
  obtain ⟨t, pushed, ht, hscopes, hr⟩ := hd
  have hdepth : b.scopes.depth = t.depth := by simp [Scopes.depth, ht.length_eq]
  rw [Ends.bind_iff, getScopes_iff, hscopes, hdepth, Scopes.unwindTo_append]
  exact ⟨ht, hr⟩

end Frames

namespace Lawful

theorem inHandler (info : NodeInfo) (var : Text) (type : NamedType) {body : Bind Unit}
    (hbody : Lawful body) : Lawful (inHandler info var type body) := by
  refine .bind (resolveType type) fun _ => .ite hbody (framed none fun b hb => ?_)
  refine .after (newInfo _) fun i => .after (register _ _ _).discard fun _ => ?_
  exact .after hbody fun _ => returns_leave hb

mutual

theorem visitStmt : (s : Stmt) → Lawful (visitStmt s)
  | .empty _ | .breakLoop _ | .continueLoop _ | .asm .. => .pure _
  | .compound _ ss => visitStmts ss
  | .assign _ target value => .bind (visitTarget target) fun _ => visitExpr value
  | .call _ e => visitExpr e
  | .cond _ test yes no =>
    .bind (visitExpr test) fun _ => .bind (visitStmt yes) fun _ => visitOptStmt no
  | .caseOf _ selector arms rest =>
    .bind (visitExpr selector) fun _ => .bind (visitArms [] arms) fun _ => visitStmts rest
  | .forTo _ _ low high _ body =>
    .bind (loopVariable _ _) fun _ => .bind (visitExpr low) fun _ => .bind (visitExpr high) fun _ =>
      visitStmt body
  | .forIn _ _ coll body =>
    .bind (loopVariable _ _) fun _ => .bind (visitExpr coll) fun _ => visitStmt body
  | .whileDo _ test body => .bind (visitExpr test) fun _ => visitStmt body
  | .repeatUntil _ body test => .bind (visitStmts body) fun _ => visitExpr test
  | .withDo _ objects body => withObjects objects (visitStmt body)
  | .tryExcept _ body handlers rest plain =>
    .bind (visitStmts body) fun _ => .bind (visitHandlers handlers) fun _ =>
      .bind (visitStmts rest) fun _ => visitStmts plain
  | .tryFinally _ body finish => .bind (visitStmts body) fun _ => visitStmts finish
  | .raise _ e place => .bind (visitOptExpr e) fun _ => visitOptExpr place
  | .goto _ _ => checkLabel _ _
  | .labeled _ _ s => .bind (checkLabel _ _) fun _ => visitStmt s

theorem visitStmts : (ss : List Stmt) → Lawful (visitStmts ss)
  | [] => .pure _
  | s :: ss => .bind (visitStmt s) fun _ => visitStmts ss

theorem visitOptStmt : (s : Option Stmt) → Lawful (visitOptStmt s)
  | none => .pure _
  | some s => visitStmt s

theorem visitArms (seen : List CaseRange) : (arms : List CaseArm) → Lawful (visitArms seen arms)
  | [] => .pure _
  | ⟨_, labels, body⟩ :: arms =>
    .bind (caseLabels seen labels) fun seen => .bind (visitStmt body) fun _ => visitArms seen arms

theorem visitHandlers : (handlers : List Handler) → Lawful (visitHandlers handlers)
  | [] => .pure _
  | ⟨_, _, _, body⟩ :: handlers =>
    .bind (inHandler _ _ _ (visitStmt body)) fun _ => visitHandlers handlers

end

end Lawful
end ObjectPascal.Binding
