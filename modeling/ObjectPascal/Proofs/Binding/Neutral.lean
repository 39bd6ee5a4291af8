import ObjectPascal.Proofs.Binding.Level
import ObjectPascal.Proofs.Scope.Builtin

/-!
Binding a whole source is neutral to scopes. Types and declarations stay on their level as names and
statements do, also where a method or an ancestor is unknown, a name is taken or a type cannot be
loaded. So a source leaves the stack of frames as it found it, but for new names in the innermost
frame.
-/

namespace ObjectPascal.Binding
namespace Lawful

/-! Types. -/

theorem memberPosition (next : UInt64) (value : Option Expr) :
    Lawful (memberPosition next value) := by
  cases value with
  | none => exact .pure _
  | some e =>
    refine .bind (visitExpr e) fun _ => .bind (constant e) fun v => ?_
    split <;> exact .pure _

theorem declareEnumMember {type : TypeExpr} (htype : type.isOrdinal = true) (name : Text)
    (next : UInt64) (m : EnumMember) : Lawful (declareEnumMember type name next m) := by
  have hfits (v : Integral) : (Constant.integral v).fits (some type) = true := htype
  refine .bind (memberPosition next m.value) fun position => .bind (register _ _ _) fun free => ?_
  split
  · refine .bind (annotate fun _ _ h => Annotations.breach_of_setConst h fun hunfit => ?_)
      fun _ => .pure _
    rw [hfits] at hunfit
    cases hunfit
  · exact .pure _

theorem visitEnum (info : NodeInfo) (members : List EnumMember) (name : Text) :
    Lawful (visitEnum info members name) :=
  (Keeps.foldlM (declareEnumMember rfl _) members 0).discard

theorem visitSubrange (info : NodeInfo) (low high : Expr) :
    Lawful (visitSubrange info low high) := by
  refine .bind (visitExpr low) fun _ => .bind (visitExpr high) fun _ => ?_
  refine .bind (folding fun _ => Folding.adds_subrangeSize low high) fun r => ?_
  split
  · exact .pure _
  · exact complain _ _

theorem visitLength (e : Expr) : Lawful (visitLength e) :=
  .bind (visitExpr e) fun _ => (constant e).discard

/-! Routines. -/

/-- A frame of the given name is on top, and the one around it may have grown. -/
def Inside (b : Binding) (name : Text) (c : Binding) : Prop :=
  ∃ around, SameLevel b around ∧ Above around name [] c

section Inside

variable {α : Type} {b c : Binding} {name : Text}

theorem goesInside {m : Bind α} (hm : Lawful m) (h : Inside b name c) :
    Ends m c (fun _ d => Inside b name d) fun e d => Excused e b d := by
  obtain ⟨around, hb, hc⟩ := h
  exact (hm c hc.self).mono (fun _ d hd => ⟨around, hb, hc.kept hd⟩)
    fun _ _ he => hb.excused (he.of_runtime hc.runtime)

theorem entered (hb : SameLevel b b) (owner : Option Decl) :
    Inside b name { b with scopes := b.scopes.enter name owner } :=
  ⟨b, hb, _, rfl, rfl, rfl⟩

variable {d : CallableDecl}

/-- A routine is declared around its own frame. -/
theorem registerRoutine_inside (hb : SameLevel b b) :
    Ends (registerRoutine d) { b with scopes := b.scopes.enter d.name (some (.callable d)) }
      (fun _ c => Inside b d.name c) fun e c => Excused e b c := by
  unfold registerRoutine
  rw [Ends.bind_iff, getScopes_iff]
  dsimp only
  split
  · rename_i t ht
    obtain ⟨u, hu, rfl⟩ := Scopes.growsTo_of_register_inside ht hb.1.inner_ne_nil rfl
    have hinside : Inside b d.name { b with scopes := u.enter d.name (some (.callable d)) } :=
      ⟨{ b with scopes := u }, ⟨hu, rfl⟩, _, rfl, rfl, rfl⟩
    rw [Ends.bind_iff, setScopes_iff]
    exact goesInside (.ite (addOverload d) (.pure _)) hinside
  · exact goesInside (complain _ _) (entered hb _)

theorem declareRoutine_inside (hb : SameLevel b b) :
    Ends (declareRoutine (b.scopes.findLocal? d.name) d)
      { b with scopes := b.scopes.enter d.name (some (.callable d)) }
      (fun _ c => Inside b d.name c) fun e c => Excused e b c := by
  unfold declareRoutine
  split
  · rename_i p hp
    split
    · exact goesInside (addOverload d) (entered hb _)
    · split
      · rw [Ends.bind_iff, getScopes_iff]
        dsimp only
        split
        · rename_i t ht
          obtain ⟨u, hu, rfl⟩ := Scopes.growsTo_of_redeclare_inside ht hb.1.inner_ne_nil hp
          exact ⟨{ b with scopes := u }, ⟨hu, rfl⟩, _, rfl, rfl, rfl⟩
        · exact goesInside (complain _ _) (entered hb _)
      · exact registerRoutine_inside hb
  · exact registerRoutine_inside hb

end Inside

theorem inRoutine (d : CallableDecl) {inside : Bind Unit} (hinside : Lawful inside) :
    Lawful (inRoutine d inside) := by
  intro b hb
  unfold Binding.inRoutine
  rw [Ends.bind_iff, getScopes_iff, Ends.bind_iff]
  change Ends _ { b with scopes := b.scopes.enter d.name (some (.callable d)) } _ _
  rw [Ends.bind_iff]
  refine (declareRoutine_inside hb).mono (fun _ c hc => ?_) fun _ _ he => he
  obtain ⟨around, haround, habove⟩ := hc
  have hreturns : Returns around d.name [] (do inside; leave) :=
    .after hinside fun _ => returns_leave haround.reached
  exact (hreturns c habove).mono (fun _ _ ht => haround.trans ht) fun _ _ he => haround.excused he

theorem bindHeading (d : CallableDecl) (owner : Option Decl) : Lawful (bindHeading d owner) := by
  unfold Binding.bindHeading
  split
  · exact bindTo _ _
  · exact .pure _

theorem inMethod (d : CallableDecl) {inside : Bind Unit} (hinside : Lawful inside) :
    Lawful (inMethod d inside) := by
  intro b hb
  unfold Binding.inMethod
  rw [Ends.bind_iff, getScopes_iff, Ends.bind_iff]
  cases hx : b.scopes.enterMethod d.owner d.name with
  | none => trivial
  | some r =>
    rw [ended_some_iff]
    cases r with
    | error e =>
      -- the body is bound in a frame of its own if the type is not known at all
      have hframed : Lawful (do
          enter d.name (some (.callable d))
          Binding.declareSelf d
          inside
          leave) :=
        framed _ fun _ hc => .after (declareSelf d) fun _ => .after hinside fun _ =>
          returns_leave hc
      exact Keeps.bind (lookupFailed _ _) (fun _ => .ite hframed (.pure _)) b hb
    | ok r =>
      obtain ⟨s, context⟩ := r
      obtain ⟨f, pushed, rfl, hf, hmethod, hdepth, hpushed⟩ := Scopes.enterMethod_eq hx
      have hreturns : Returns b d.name pushed (do
          Binding.bindHeading d f.owner
          Binding.declareSelf d
          inside
          leaveMethod context) :=
        .after (bindHeading _ _) fun _ => .after (declareSelf d) fun _ => .after hinside fun _ =>
          returns_leaveMethod hb hmethod hdepth hpushed
      rw [Ends.bind_iff, setScopes_iff]
      exact hreturns _ ⟨f, hf, rfl, rfl⟩

theorem declareResult (d : CallableDecl) : Lawful (declareResult d) :=
  .ite (.bind (newInfo _) fun _ => declareImplicit _ _) (.pure _)

theorem inBody (d : CallableDecl) {body : Bind Unit} (hbody : Lawful body) :
    Lawful (inBody d body) := by
  refine .bind (declareResult d) fun _ => ?_
  intro b hb
  rw [Ends.bind_iff, getScopes_iff, Ends.bind_iff, Ends.modify_iff, Ends.bind_iff]
  have hinside : SameLevel { b with routines := (b.scopes.depth - 1) :: b.routines }
      { b with routines := (b.scopes.depth - 1) :: b.routines } := .refl hb.1.inner_ne_nil
  refine (hbody _ hinside).mono (fun _ c hc => ?_) fun _ _ he => he
  refine ⟨hc.1, ?_⟩
  change c.routines.drop 1 = b.routines
  rw [hc.2]
  rfl

/-! Declarations. -/

theorem checkAccessor (s : Scopes) (type : Text) (line : Nat) (accessor : Text) :
    Lawful (checkAccessor s type line accessor) := by
  unfold Binding.checkAccessor
  split
  · exact .pure _
  · refine .bind (ended _) fun r => ?_
    split
    · exact lookupFailed _ _
    · exact .pure _

theorem checkMember (s : Scopes) (type : Text) (m : Member) : Lawful (checkMember s type m) := by
  cases m with
  | property p => exact .bind (checkAccessor _ _ _ _) fun _ => checkAccessor _ _ _ _
  | var d => exact .pure _
  | callable d => exact .pure _

theorem checkComposite (c : CompositeDecl) : Lawful (checkComposite c) := by
  refine .bind getScopes fun s => .bind (.forM (checkMember _ _) _) fun _ => ?_
  split
  · exact lookupFailed _ _
  · exact .pure _

theorem visitExport (d : ExportDecl) : Lawful (visitExport d) := by
  have hexported : Lawful (checkExported d) := by
    refine .bind getScopes fun s => ?_
    split
    · exact complain _ _
    · exact .pure _
  exact .bind hexported fun _ => .bind (visitOptExpr _) fun _ => visitOptExpr _

mutual

theorem visitType (t : TypeExpr) (name : Text) : Lawful (visitType t name) :=
  match t with
  | .ordinal .. | .real .. | .rawPointer .. | .rawString .. | .variant .. => .pure _
  | .named t => resolveType t
  | .string _ none => .pure _
  | .string _ (some e) => visitLength e
  | .subrange .. => visitSubrange _ _ _
  | .enum .. => visitEnum _ _ _
  | .pointer _ t => visitType t ∅
  | .classRef _ t => visitType t ∅
  | .set _ t => visitType t ∅
  | .array _ _ index elem _ => .bind (visitTypes index) fun _ => visitOptType elem
  | .file _ elem => visitOptType elem
  | .record _ _ members part =>
    framed none fun _ hb => .after (visitFields members) fun _ => .after (visitVariant part)
      fun _ => returns_leave hb
  | .proc _ params result _ =>
    framed none fun _ hb => .after (visitOptParams params) fun _ => .after (visitOptType result)
      fun _ => returns_leave hb
  | .classType .. | .interface .. => .pure _

theorem visitTypes : (ts : List TypeExpr) → Lawful (visitTypes ts)
  | [] => .pure _
  | t :: ts => .bind (visitType t ∅) fun _ => visitTypes ts

theorem visitOptType : (t : Option TypeExpr) → Lawful (visitOptType t)
  | none => .pure _
  | some t => visitType t ∅

theorem visitParams : (params : List ParamDecl) → Lawful (visitParams params)
  | [] => .pure _
  | ⟨_, _, _, type, default⟩ :: params =>
    .bind (visitOptType type) fun _ => .bind (visitOptExpr default) fun _ =>
      .bind (register _ _ _).discard fun _ => visitParams params

theorem visitOptParams : (params : Option (List ParamDecl)) → Lawful (visitOptParams params)
  | none => .pure _
  | some params => visitParams params

theorem visitField : (d : VarDecl) → Lawful (visitField d)
  | ⟨_, _, type, _, _, _, _⟩ => .bind (visitOptType type) fun _ => (register _ _ _).discard

theorem visitFields : (members : List Member) → Lawful (visitFields members)
  | [] => .pure _
  | .var d :: members => .bind (visitField d) fun _ => visitFields members
  | .callable _ :: members => visitFields members
  | .property _ :: members => visitFields members

theorem visitCaseFields : (ds : List VarDecl) → Lawful (visitCaseFields ds)
  | [] => .pure _
  | d :: ds => .bind (visitField d) fun _ => visitCaseFields ds

theorem visitVariantCases : (cases : List VariantCase) → Lawful (visitVariantCases cases)
  | [] => .pure _
  | ⟨_, labels, fields⟩ :: cases =>
    .bind (visitExprs labels) fun _ => .bind (visitCaseFields fields) fun _ =>
      visitVariantCases cases

theorem visitVariant : (part : Option VariantPart) → Lawful (visitVariant part)
  | none => .pure _
  | some ⟨_, _, tagType, cases⟩ =>
    .bind (visitType tagType ∅) fun _ => .bind (declareTag _ _ _) fun _ => visitVariantCases cases

theorem visitCallable (d : CallableDecl) : Lawful (visitCallable d) :=
  match d with
  | ⟨_, _, _, _, _, params, result, _, body, _, _, _, _⟩ =>
    have hinside : Lawful _ := .bind (visitOptParams params) fun _ => .bind (visitOptType result)
      fun _ => visitBody _ body
    .ite (inMethod _ hinside) (inRoutine _ hinside)

theorem visitBody (d : CallableDecl) : (body : Option Block) → Lawful (visitBody d body)
  | none => .pure _
  | some ⟨_, decls, body⟩ => inBody d (.bind (visitDecls false decls) fun _ => visitStmt body)

theorem visitMembers : (members : List Member) → Lawful (visitMembers members)
  | [] => .pure _
  | .var d :: members => .bind (visitField d) fun _ => visitMembers members
  | .callable d :: members => .bind (visitCallable d) fun _ => visitMembers members
  | .property d :: members => .bind (visitProperty d) fun _ => visitMembers members

theorem visitProperty : (d : PropertyDecl) → Lawful (visitProperty d)
  | ⟨_, _, params, type, _, _, index, default, stored, _, _, _, _⟩ =>
    framed none fun _ hb => .after (visitParams params) fun _ => .before (returns_leave hb) fun _ =>
      .bind (visitOptType type) fun _ => .bind (visitOptExpr index) fun _ =>
        .bind (visitOptExpr default) fun _ => .bind (visitOptExpr stored) fun _ =>
          (register _ _ _).discard

theorem visitRest (t : TypeExpr) : Lawful (visitRest t) := by
  cases t with
  | record _ _ _ part => exact visitVariant part
  | interface _ _ guid _ _ _ => exact visitOptExpr guid
  | _ => exact .pure _

theorem visitDecls (declared : Bool) : (ds : List Decl) → Lawful (visitDecls declared ds)
  | [] => .pure _
  | .type ⟨_, name, t⟩ :: ds =>
    .bind (declareTypes _ _) fun _ => .bind (visitType t name) fun _ => visitDecls true ds
  | .composite ⟨_, _, _, _, members, type⟩ :: ds =>
    .bind (declareTypes _ _) fun _ => framed (some _) fun _ hb =>
      .after (visitMembers members) fun _ => .after (visitRest type) fun _ =>
        .before (returns_leave hb) fun _ => .bind (checkComposite _) fun _ => visitDecls true ds
  | .var ⟨_, _, type, init, _, _, _⟩ :: ds =>
    .bind (visitOptType type) fun _ => .bind (visitOptExpr init) fun _ =>
      .bind (declareVar _) fun _ => visitDecls false ds
  | .const ⟨_, _, type, value, _⟩ :: ds =>
    .bind (visitOptType type) fun _ => .bind (visitOptExpr value) fun _ =>
      .bind (declareConst _) fun _ => visitDecls false ds
  | .callable d :: ds => .bind (visitCallable d) fun _ => visitDecls false ds
  | .label _ :: ds => .bind (register _ _ _).discard fun _ => visitDecls false ds
  | .exported d :: ds => .bind (visitExport d) fun _ => visitDecls false ds
  | .param _ :: _ | .property _ :: _ | .unit _ :: _ | .enumMember _ :: _ =>
    .throw fun _ _ => trivial

end

theorem visitBlock (b : Block) : Lawful (visitBlock b) :=
  .bind (visitDecls false b.decls) fun _ => visitStmt b.body

theorem declareUnits (units : List UnitRef) : Lawful (declareUnits units) :=
  .forM (fun _ => (register _ _ _).discard) units

theorem visitGoal (g : Goal) : Lawful (visitGoal g) := by
  cases g with
  | program g => exact .bind (declareUnits _) fun _ => visitBlock _
  | library g => exact .bind (declareUnits _) fun _ => visitBlock _
  | unit g =>
    refine .bind (declareUnits _) fun _ => .bind (visitDecls _ _) fun _ => ?_
    refine .bind (declareUnits _) fun _ => .bind (visitDecls _ _) fun _ => ?_
    exact .bind (visitStmts _) fun _ => visitStmts _
  | package g => exact declareUnits _

end Lawful

theorem Level.visitGoal (g : Goal) : Level (visitGoal g) := fun b hb =>
  (Lawful.visitGoal g b hb).mono (fun _ _ h => h) fun _ _ h => h.not_ofFrames

/-- Binding is neutral to scopes. If it comes to an end, all frames below the innermost one are the
frames that were there before, the innermost one has at most grown, and the routines around are the
same. If it breaks off, then not because a frame was left that should not be. -/
theorem run_neutral (b : Binding) (g : Goal) (h : 2 ≤ b.scopes.depth) :
    (∀ c, b.run g = (.ok (), c) →
      c.scopes.frames.tail = b.scopes.frames.tail ∧ b.scopes.top.GrowsTo c.scopes.top ∧
        c.routines = b.routines) ∧
    ∀ e c, b.run g = (.error e, c) →
      e ≠ .bottomLeft ∧ (∀ t m n k, e ≠ .methodDepth t m n k) ∧
        ∀ t m n, e ≠ .methodFrame t m n := by
  have hinner : b.scopes.inner ≠ [] := by
    intro hnil
    simp [Scopes.depth, hnil] at h
  have hends := Level.visitGoal g b (.refl hinner)
  unfold Ends at hends
  refine ⟨fun c hc => ?_, fun e c hc => ?_⟩
  · have hlevel : SameLevel b c := by
      rw [show (visitGoal g).run.run b = (.ok (), c) from hc] at hends
      exact hends
    exact ⟨hlevel.1.tail_frames, hlevel.1.top, hlevel.2⟩
  · have hframes : ¬e.OfFrames := by
      rw [show (visitGoal g).run.run b = (.error e, c) from hc] at hends
      exact hends
    exact ⟨fun he => hframes (he ▸ trivial), fun _ _ _ _ he => hframes (he ▸ trivial),
      fun _ _ _ he => hframes (he ▸ trivial)⟩

/-- A program with the body of a method whose type is not declared, and a handler in it. -/
def strayMethod : Goal :=
  let node (id : Nat) : NodeInfo := { id, line := 1 }
  let handler : Handler := ⟨node 3, "E", ⟨node 2, "T"⟩, .empty (node 1)⟩
  let body : Block := ⟨node 5, [], .tryExcept (node 4) [] [handler] [] []⟩
  let method : CallableDecl := { info := node 6, name := "M", owner := "T", body := some body }
  .program { info := node 9, name := "P", block := ⟨node 8, [.callable method], .empty (node 7)⟩ }

theorem run_neutral_strayMethod :
    let b : Binding := { scopes := .initial {}, notes := .forTree 9 }
    2 ≤ b.scopes.depth ∧ ∃ c, b.run strayMethod = (.ok (), c) ∧
      c.scopes.frames.tail = b.scopes.frames.tail ∧ b.scopes.top.GrowsTo c.scopes.top ∧
        c.routines = b.routines := by
  intro b
  have hdepth : 2 ≤ b.scopes.depth := by decide
  have hends : (b.run strayMethod).1.isOk = true := by decide +kernel
  obtain ⟨c, hc⟩ : ∃ c, b.run strayMethod = (.ok (), c) := by
    generalize b.run strayMethod = r at hends
    obtain ⟨_ | _, c⟩ := r
    · cases hends
    · exact ⟨c, rfl⟩
  exact ⟨hdepth, c, hc, (run_neutral b strayMethod hdepth).1 c hc⟩

end ObjectPascal.Binding

/-!
Why binding breaks off. With the scopes that binding starts with, all standard types mean what they
should, so a breach about a constant value tells that some recorded value does not fit the type that
is recorded with it. That comes about where a type is bound twice: names declared together share it,
and the second visit records types for nodes that have values already.
-/

namespace ObjectPascal.Binding

/-- Binding breaks off only for a search without end, a node without a number, a declaration of a
kind that no section has, or a constant value. In the last case a value is recorded that does not
fit the type recorded with it. -/
theorem ofGoal_breaks_off {config : Config} {path : Text} {g : Goal} {last : Nat} {e : Breach}
    {c : Binding} (h : ofGoal config path g last = (.error e, c)) :
    e = .endless ∨ (∃ kind, e = .unnumbered kind ∨ e = .unexpectedDecl kind) ∨
      ((∃ line, e = .noIntegralValue line) ∨ ∃ v type, e = .unfit v type) ∧
        ∃ (n : NodeInfo) (v : Constant),
          c.notes.valueOf n = some v ∧ v.fits (c.notes.typeOf n) = false := by
  have hends := Lawful.visitGoal g
    { scopes := .initial config, notes := .forTree last, path } (.refl (List.cons_ne_nil _ _))
  unfold Ends at hends
  rw [show (visitGoal g).run.run _ = (.error e, c) from h] at hends
  have hneeds : e.Needs c.notes.Unfit := hends.imp fun k => k (Scopes.standard_initial config)
  cases e with
  | endless => exact .inl rfl
  | unnumbered kind => exact .inr (.inl ⟨kind, .inl rfl⟩)
  | unexpectedDecl kind => exact .inr (.inl ⟨kind, .inr rfl⟩)
  | noIntegralValue line => exact .inr (.inr ⟨.inl ⟨line, rfl⟩, hneeds⟩)
  | unfit v type => exact .inr (.inr ⟨.inr ⟨v, type, rfl⟩, hneeds⟩)
  | _ => exact hneeds.elim

/-- The tree of a program with two variables of one type, a range from `Abs(1.5)` to `Abs(2.5)`. -/
def sharedBounds : Goal :=
  let node (id : Nat) : NodeInfo := { id, line := 1 }
  let bound (id : Nat) (x : Float) (text : Text) : Expr :=
    .call (node (id + 2)) (.name (node id) "Abs") (some [.real (node (id + 1)) x text])
  let range : TypeExpr := .subrange (node 7) (bound 1 1.5 "1.5") (bound 4 2.5 "2.5")
  let declared (id : Nat) (name : Text) : Decl := .var { info := node id, name, type := some range }
  let body : Stmt := .compound (node 11) [.empty (node 10)]
  .program
    { info := node 13, name := "P", block := ⟨node 12, [declared 8 "a", declared 9 "b"], body⟩ }

/-- Whether a breach is the lack of an integral value on a line. -/
def lacksValue (line : Nat) : Breach → Bool
  | .noIntegralValue l => l == line
  | _ => false

theorem eq_of_lacksValue {line : Nat} {e : Breach} (h : lacksValue line e = true) :
    e = .noIntegralValue line := by
  cases e with
  | noIntegralValue l => rw [eq_of_beq h]
  | _ => cases h

/-- Another breach is no lack of a value. -/
example : lacksValue 1 .endless = false := by decide +kernel

/-- On the second visit the bounds have real values and an ordinal type. -/
theorem run_sharedBounds : ∃ c, ofGoal {} ∅ sharedBounds 13 = (.error (.noIntegralValue 1), c) := by
  have hends : failsWith (ofGoal {} ∅ sharedBounds 13).1 (lacksValue 1) = true := by
    decide +kernel
  generalize ofGoal {} ∅ sharedBounds 13 = r at hends
  obtain ⟨e, he, hvalue⟩ := exists_of_failsWith hends
  obtain rfl := eq_of_lacksValue hvalue
  exact ⟨r.2, Prod.ext he rfl⟩

theorem ofGoal_breaks_off_sharedBounds :
    ∃ c, ofGoal {} ∅ sharedBounds 13 = (.error (.noIntegralValue 1), c) ∧
      ∃ (n : NodeInfo) (v : Constant),
        c.notes.valueOf n = some v ∧ v.fits (c.notes.typeOf n) = false := by
  obtain ⟨c, hc⟩ := run_sharedBounds
  obtain he | ⟨kind, he | he⟩ | ⟨-, hunfit⟩ := ofGoal_breaks_off hc
  · cases he
  · cases he
  · cases he
  · exact ⟨c, hc, hunfit⟩

/-- So binding does not come to an end for each tree that a parse gives. -/
theorem sharedBounds_breaks_off : ¬∃ c, ofGoal {} ∅ sharedBounds 13 = (.ok (), c) := by
  rintro ⟨c, hc⟩
  obtain ⟨d, hd⟩ := run_sharedBounds
  rw [hd] at hc
  cases hc

end ObjectPascal.Binding
