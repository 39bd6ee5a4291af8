import ObjectPascal.Proofs.Binding.Names
import ObjectPascal.Proofs.Binding.Overloads
import ObjectPascal.Proofs.Binding.Touches
import ObjectPascal.Proofs.Scope.Fields
import ObjectPascal.Proofs.Scope.Level

/-!
Fields of the record types of a source. Binding declares all fields of a record in one frame, those
of its variant part too, so in a source without errors their names are all different. But a field is
looked for among the members of the record, where those of the variant part are not.
-/

namespace ObjectPascal

/-! The composites of a source. -/

mutual

/-- The composites inside a routine. -/
def CallableDecl.composites : CallableDecl → List CompositeDecl
  | ⟨_, _, _, _, _, _, _, _, body, _, _, _, _⟩ => blockComposites body

/-- The composites in a block that may be absent. -/
def blockComposites : Option Block → List CompositeDecl
  | none => []
  | some ⟨_, decls, _⟩ => declsComposites decls

/-- The composites among declarations. -/
def declsComposites : List Decl → List CompositeDecl
  | [] => []
  | .callable d :: ds => d.composites ++ declsComposites ds
  | .composite ⟨i, name, kind, heritage, members, type⟩ :: ds =>
    ⟨i, name, kind, heritage, members, type⟩ :: (membersComposites members ++ declsComposites ds)
  | .type _ :: ds | .var _ :: ds | .const _ :: ds | .param _ :: ds | .property _ :: ds
  | .label _ :: ds | .unit _ :: ds | .exported _ :: ds | .enumMember _ :: ds => declsComposites ds

/-- The composites inside members. -/
def membersComposites : List Member → List CompositeDecl
  | [] => []
  | .callable d :: members => d.composites ++ membersComposites members
  | .var _ :: members | .property _ :: members => membersComposites members

end

/-- The composites of a source. -/
def Goal.composites : Goal → List CompositeDecl
  | .program g => declsComposites g.block.decls
  | .library g => declsComposites g.block.decls
  | .unit g => declsComposites g.publicDecls ++ declsComposites g.ownDecls
  | .package _ => []

/-- A name that is declared stays so. -/
theorem Frame.GrowsTo.isSome {f g : Frame} (h : f.GrowsTo g) {n : Text}
    (hn : (f.find? n).isSome = true) : (g.find? n).isSome = true := by
  rw [isSome_find?_iff] at hn ⊢
  exact (h.names.map Text.lower).subset hn

namespace Binding

/-! What is known of the innermost frame where no error was found. -/

/-- Nothing that was found is lost, and at most the innermost frame has grown. -/
def Carries (b c : Binding) : Prop :=
  b.notes.StandsIn ∧ Later b c ∧ b.scopes.GrowsTo c.scopes

instance : Composes Carries (fun (_ : Breach) (_ _ : Binding) => True) where
  trans h k := ⟨h.1, h.2.1.trans k.2.1, h.2.2.trans k.2.2⟩
  reached h := ⟨h.2.1.notes.standsIn h.1, .refl _, h.2.2.reached⟩
  broken _ h := h

/-- A step that carries on what was found. -/
abbrev Carrying {α : Type} (m : Bind α) : Prop := Keeps Carries (fun (_ : Breach) _ _ => True) m

section Carrying

variable {α : Type} {m : Bind α} {b c : Binding}

theorem Carries.of_upright (hstands : b.notes.StandsIn) (hinner : b.scopes.inner ≠ []) :
    Carries b b := ⟨hstands, .refl b, .refl hinner⟩

theorem Carrying.of_settles {ns : List Node} (h : Settles m ns) (k : Lawful m) : Carrying m :=
  fun b hb => ((h b hb.1).and (k b ⟨hb.2.2, rfl⟩)).mono
    (fun _ _ hc => ⟨hb.1, hc.1.1, hc.2.1⟩) fun _ _ _ => trivial

theorem Carrying.of_retentive (h : Retentive m) (k : Lawful m) : Carrying m :=
  have hnone : Settles m [] := .of_retentive h fun _ _ => List.not_mem_nil
  .of_settles hnone k

/-- A frame is entered and left again. -/
theorem Carrying.framed {ns : List Node} (name : Text) (owner : Option Decl) {m : Bind Unit}
    (h : Settles m ns) (k : Lawful m) : Carrying (do enter name owner; m; leave) :=
  have hall : Settles (do enter name owner; m; leave) ns :=
    .after (Retentive.enter _ _) fun _ => .before h fun _ => Retentive.leave
  .of_settles hall
    (Lawful.framed owner fun _ hb => .after k fun _ => returns_leave hb)

/-- If no error is found afterwards, none was found before. -/
theorem Carries.clean (h : Carries b c) (hc : c.errors = #[]) : b.errors = #[] := by
  rw [Array.eq_empty_iff_forall_not_mem]
  intro f hf
  have hmem := h.2.1.errors f hf
  rw [hc] at hmem
  exact absurd hmem (Array.not_mem_empty f)

end Carrying

/-- What a step shows of the innermost frame before and after it, if no error is found up to its
end. -/
structure Shows {α : Type} (P : Frame → Frame → Prop) (m : Bind α) : Prop where
  carries : Carrying m
  shows {b c : Binding} {a : α} : Carries b b → Leads m b a c → c.errors = #[] →
    P b.scopes.top c.scopes.top

/-- What stays true if the frame grows before or after. -/
class Stable (P : Frame → Frame → Prop) : Prop where
  before {f g h : Frame} : f.GrowsTo g → P g h → P f h
  after {f g h : Frame} : P f g → g.GrowsTo h → P f h

/-- A name is free before and declared after. -/
structure Claims (n : Text) (f g : Frame) : Prop where
  name : n.isEmpty = false
  free : f.find? n = none
  held : (g.find? n).isSome = true

/-- A name is declared after. -/
def HeldAfter (n : Text) (_ g : Frame) : Prop := (g.find? n).isSome = true

instance (Q : Prop) : Stable fun _ _ => Q := ⟨fun _ h => h, fun h _ => h⟩

instance (n : Text) : Stable (HeldAfter n) := ⟨fun _ h => h, fun h k => k.isSome h⟩

instance (n : Text) : Stable (Claims n) where
  before h k := by
    refine ⟨k.name, ?_, k.held⟩
    rw [← Option.not_isSome_iff_eq_none]
    intro hsome
    have hheld := h.isSome hsome
    rw [k.free] at hheld
    cases hheld
  after h k := ⟨h.name, h.free, k.isSome h.held⟩

namespace Shows

variable {α β : Type} {P Q : Frame → Frame → Prop} {m : Bind α} {k : α → Bind β} {p q : Prop}

theorem mono (h : Shows P m) (hP : ∀ f g, P f g → Q f g) : Shows Q m :=
  ⟨h.carries, fun hb hm hc => hP _ _ (h.shows hb hm hc)⟩

theorem of_carrying (h : Carrying m) (hq : q) : Shows (fun _ _ => q) m := ⟨h, fun _ _ _ => hq⟩

theorem throw (e : Breach) : Shows P (throw e : Bind α) :=
  ⟨fun _ _ => trivial, fun _ h _ => nomatch h⟩

/-- What two steps show one after the other. -/
theorem both {S : Frame → Frame → Prop} (hm : Shows P m) (hk : ∀ a, Shows Q (k a))
    (hS : ∀ f g h, P f g → Q g h → f.GrowsTo g → g.GrowsTo h → S f h) : Shows S (m >>= k) where
  carries := hm.carries.bind fun a => (hk a).carries
  shows {b c _} hb h hc := by
    obtain ⟨a, d, hfirst, hsecond⟩ := Leads.bind_iff.mp h
    have hbd : Carries b d := hfirst.ends (hm.carries b hb)
    have hd : Carries d d := Composes.reached (E := fun (_ : Breach) (_ _ : Binding) => True) hbd
    have hdc : Carries d c := hsecond.ends ((hk a).carries d hd)
    exact hS _ _ _ (hm.shows hb hfirst (hdc.clean hc)) ((hk a).shows hd hsecond hc) hbd.2.2.top
      hdc.2.2.top

theorem left [Stable P] (hm : Shows P m) (hk : ∀ a, Carrying (k a)) : Shows P (m >>= k) :=
  both hm (fun a => of_carrying (hk a) trivial) fun _ _ _ h _ _ hgrows => Stable.after h hgrows

theorem right [Stable P] (hm : Carrying m) (hk : ∀ a, Shows P (k a)) : Shows P (m >>= k) :=
  both (of_carrying hm trivial) hk fun _ _ _ _ h hgrows _ => Stable.before hgrows h

/-- What does not depend on frames. -/
theorem conj (hm : Shows (fun _ _ => p) m) (hk : ∀ a, Shows (fun _ _ => q) (k a)) :
    Shows (fun _ _ => p ∧ q) (m >>= k) := both hm hk fun _ _ _ hp hq _ _ => ⟨hp, hq⟩

/-- A name that the first step declares cannot be free before the second one. -/
theorem clash {n : Text} {m k : Bind Unit} (hcarries : Carrying m)
    (hm : n.isEmpty = false → Shows (HeldAfter n) m) (hk : Shows (Claims n) k) :
    Shows (fun _ _ => False) (do m; k) := by
  refine ⟨hcarries.bind fun _ => hk.carries, fun {b c _} hb h hc => ?_⟩
  obtain ⟨⟨⟩, d, hfirst, hsecond⟩ := Leads.bind_iff.mp h
  have hbd : Carries b d := hfirst.ends (hcarries b hb)
  have hd : Carries d d := Composes.reached (E := fun (_ : Breach) (_ _ : Binding) => True) hbd
  have hdc : Carries d c := hsecond.ends (hk.carries d hd)
  have hclaims := hk.shows hd hsecond hc
  have hheld := (hm hclaims.name).shows hb hfirst (hdc.clean hc)
  rw [HeldAfter, hclaims.free] at hheld
  cases hheld

end Shows

/-! Fields and members. -/

/-- What is declared without an error was free. -/
theorem register_clean {b : Binding} {line : Nat} {name : Text} {d : Decl}
    (hd : Scopes.createsFrame d = false) (hs : b.scopes.inner ≠ []) :
    Ends (register line name d) b
      (fun _ c => c.errors = #[] → Claims name b.scopes.top c.scopes.top) fun _ _ => True := by
  unfold register
  rw [Ends.bind_iff, getScopes_iff, hd]
  simp only [Bool.false_eq_true, if_false]
  split
  · rename_i t ht
    intro _
    obtain ⟨hfirm, hfound⟩ := Scopes.firmTo_of_register ht hs hd
    have hadd := (Scopes.onTop_of_register ht hs hd).top
    refine ⟨?_, ?_, ?_⟩
    · unfold Scopes.register at ht
      dsimp only at ht
      split at ht
      · cases ht
      · exact eq_false_of_ne_true ‹_›
    · unfold Frame.add? at hadd
      split at hadd
      · cases hadd
      · assumption
    · change (t.top.find? name).isSome = true
      rw [hfound]
      rfl
  · intro herrors
    exact absurd herrors (by simp)

namespace Shows

variable {n : Text}

theorem register (line : Nat) {d : Decl} (hd : Scopes.createsFrame d = false) :
    Shows (Claims n) (Functor.discard (register line n d)) := by
  refine ⟨.of_retentive (Retentive.register _ _ _).discard (Lawful.register _ _ _).discard,
    fun {b c _} hb h hc => ?_⟩
  obtain ⟨_, h⟩ := Leads.discard_iff.mp h
  exact h.ends (register_clean hd hb.2.2.inner_ne_nil) hc

theorem visitField (d : VarDecl) : Shows (Claims d.name) (visitField d) := by
  obtain ⟨info, name, type, init, absolute, kind, visibility⟩ := d
  exact right (.of_settles (.visitOptType type) (.visitOptType type)) fun _ => register _ rfl

theorem visitProperty (d : PropertyDecl) : Shows (Claims d.name) (visitProperty d) := by
  obtain ⟨info, name, params, type, read, write, index, default, stored, noDefault, implements,
    defaultArray, visibility⟩ := d
  have hframed := Carrying.framed name none (.visitParams params) (Lawful.visitParams params)
  have hrest := right (P := Claims name) hframed fun _ =>
    right (.of_settles (.visitOptType type) (.visitOptType type)) fun _ =>
      right (.of_settles (.visitOptExpr index) (.visitOptExpr index)) fun _ =>
        right (.of_settles (.visitOptExpr default) (.visitOptExpr default)) fun _ =>
          right (.of_settles (.visitOptExpr stored) (.visitOptExpr stored)) fun _ =>
            register info.line (d := .property ⟨info, name, params, type, read, write, index,
              default, stored, noDefault, implements, defaultArray, visibility⟩) rfl
  simp only [bind_assoc] at hrest
  exact hrest

/-- A routine that is no method with a body is declared, or its name is taken already. -/
theorem visitCallable (hn : n.isEmpty = false) {d : CallableDecl} (hd : declares n d = true) :
    Shows (HeldAfter n) (visitCallable d) := by
  refine ⟨.of_settles (.visitCallable d) (.visitCallable d), fun {b c _} hb h _ => ?_⟩
  have hends := visitCallable_hands d hn b hb.2.2.inner_ne_nil
  rw [if_pos hd] at hends
  have hfollows := (h.ends hends).top
  rw [HeldAfter, Option.isSome_iff_ne_none]
  intro hnone
  rw [Frame.held, Frame.held, hnone, Option.map_none] at hfollows
  generalize (b.scopes.top.find? n).map Decl.routine? = x at hfollows
  obtain _ | _ | p := x <;> cases hfollows

/-- After members are bound all their names are declared. -/
theorem visitMembers (hn : n.isEmpty = false) : (members : List Member) →
    (∀ d, .callable d ∈ members → d.body = none) → (∃ m ∈ members, m.name.lower = n.lower) →
    Shows (HeldAfter n) (visitMembers members)
  | [], _, h => by
    obtain ⟨m, hm, -⟩ := h
    cases hm
  | m :: members, hbodies, h => by
    have hlater := fun d hd => hbodies d (List.mem_cons_of_mem m hd)
    have hrest : Carrying (Binding.visitMembers members) :=
      .of_settles (.visitMembers members) (.visitMembers members)
    have hheld {f g : Frame} {k : Text} (hk : k.lower = n.lower) (hclaims : Claims k f g) :
        HeldAfter n f g := by
      rw [HeldAfter, ← g.find?_congr hk]
      exact hclaims.held
    obtain ⟨x, hx, hname⟩ := h
    obtain rfl | hx := List.mem_cons.mp hx
    · cases x with
      | var d => exact left ((visitField d).mono fun _ _ => hheld hname) fun _ => hrest
      | property d => exact left ((visitProperty d).mono fun _ _ => hheld hname) fun _ => hrest
      | callable d =>
        refine left (visitCallable hn ?_) fun _ => hrest
        have hname : d.name.lower = n.lower := hname
        simp [declares, hname, hbodies d List.mem_cons_self]
    · have ih := visitMembers hn members hlater ⟨x, hx, hname⟩
      cases m with
      | var d => exact right (visitField d).carries fun _ => ih
      | property d => exact right (visitProperty d).carries fun _ => ih
      | callable d => exact right (.of_settles (.visitCallable d) (.visitCallable d)) fun _ => ih

/-! The variant part. -/

theorem declareTag (info : NodeInfo) {tag : Text} (htag : tag.isEmpty = false) (type : TypeExpr) :
    Shows (Claims tag) (declareTag info tag type) := by
  unfold Binding.declareTag
  rw [htag]
  exact right (.of_retentive (Retentive.newInfo _) (Lawful.newInfo _)) fun _ => register _ rfl

theorem visitCaseFields : (ds : List VarDecl) → n ∈ ds.map (·.name) →
    Shows (Claims n) (visitCaseFields ds)
  | d :: ds, h => by
    obtain rfl | h := List.mem_cons.mp h
    · exact left (visitField d) fun _ =>
        .of_settles (.visitCaseFields ds) (.visitCaseFields ds)
    · exact right (visitField d).carries fun _ => visitCaseFields ds h

theorem visitVariantCases : (cases : List VariantCase) →
    n ∈ cases.flatMap (fun c => c.fields.map (·.name)) → Shows (Claims n) (visitVariantCases cases)
  | ⟨_, labels, fields⟩ :: cases, h => by
    refine right (.of_settles (.visitExprs labels) (.visitExprs labels)) fun _ => ?_
    obtain h | h := List.mem_append.mp (List.flatMap_cons ▸ h)
    · exact left (visitCaseFields fields h) fun _ =>
        .of_settles (.visitVariantCases cases) (.visitVariantCases cases)
    · exact right (.of_settles (.visitCaseFields fields) (.visitCaseFields fields)) fun _ =>
        visitVariantCases cases h

theorem visitVariant (p : VariantPart) (h : n ∈ p.names) :
    Shows (Claims n) (visitVariant (some p)) := by
  obtain ⟨info, tag, type, cases⟩ := p
  have hcases : Carrying (Binding.visitVariantCases cases) :=
    .of_settles (.visitVariantCases cases) (.visitVariantCases cases)
  refine right (.of_settles (.visitType type ∅) (.visitType type ∅)) fun _ => ?_
  obtain h | h := List.mem_append.mp h
  · split at h
    · cases h
    · obtain rfl := List.mem_singleton.mp h
      exact left (declareTag info (eq_false_of_ne_true ‹_›) type) fun _ => hcases
  · exact right (.of_retentive (.declareTag _ _ _) (.declareTag _ _ _)) fun _ =>
      visitVariantCases cases h

theorem visitRest (t : TypeExpr) (h : n ∈ t.variantNames) : Shows (Claims n) (visitRest t) := by
  unfold TypeExpr.variantNames at h
  split at h
  · exact visitVariant _ h
  · cases h

end Shows

/-! Frames that are entered and left. -/

/-- Something is true if a step comes to its end and no error is found up to there. -/
def Vouches {α : Type} (q : Prop) (m : Bind α) : Prop :=
  ∀ b a c, Carries b b → Leads m b a c → c.errors = #[] → q

namespace Vouches

variable {α β : Type} {m : Bind α} {k : α → Bind β} {q : Prop}

theorem of_shows (h : Shows (fun _ _ => q) m) : Vouches q m := fun _ _ _ => h.shows

theorem after (hm : Carrying m) (hk : ∀ a, Vouches q (k a)) : Vouches q (m >>= k) := by
  intro b _ c hb h hc
  obtain ⟨a, d, hfirst, hsecond⟩ := Leads.bind_iff.mp h
  have hbd : Carries b d := hfirst.ends (hm b hb)
  have hd : Carries d d := Composes.reached (E := fun (_ : Breach) (_ _ : Binding) => True) hbd
  exact hk a d _ c hd hsecond hc

/-- What comes behind finds no errors away. -/
theorem before (hm : Vouches q m)
    (hk : ∀ a d, Ends (k a) d (fun _ c => c.errors = d.errors) fun _ _ => True) :
    Vouches q (m >>= k) := by
  intro b _ c hb h hc
  obtain ⟨a, d, hfirst, hsecond⟩ := Leads.bind_iff.mp h
  have herrors : c.errors = d.errors := hsecond.ends (hk a d)
  exact hm b a d hb hfirst (herrors ▸ hc)

theorem leave_errors (b : Binding) :
    Ends leave b (fun _ c => c.errors = b.errors) fun _ _ => True := by
  unfold leave
  rw [Ends.bind_iff, getScopes_iff]
  split
  · rfl
  · trivial

theorem leaveMethod_errors (context : Scopes.MethodContext) (b : Binding) :
    Ends (leaveMethod context) b (fun _ c => c.errors = b.errors) fun _ _ => True := by
  unfold leaveMethod
  rw [Ends.bind_iff, getScopes_iff]
  dsimp only
  rw [Ends.bind_iff, setScopes_iff]
  split
  · rfl
  · trivial

theorem framed (name : Text) (owner : Option Decl) {m : Bind Unit} (hm : Vouches q m) :
    Vouches q (do enter name owner; m; leave) := by
  intro b _ c hb h hc
  obtain ⟨_, _, henter, h⟩ := Leads.bind_iff.mp h
  cases henter
  let inner : Binding := { b with scopes := b.scopes.enter name owner }
  have hinner : Carries inner inner := .of_upright hb.1 (by simp [inner, Scopes.enter])
  exact hm.before (fun _ => leave_errors) inner _ c hinner h hc

variable {d : CallableDecl} {inside : Bind Unit}

theorem inRoutine (h : Vouches q inside) : Vouches q (inRoutine d inside) := by
  intro b _ c hb hrun hc
  unfold Binding.inRoutine at hrun
  obtain ⟨_, _, hscopes, hrun⟩ := Leads.bind_iff.mp hrun
  cases hscopes
  obtain ⟨_, _, henter, hrun⟩ := Leads.bind_iff.mp hrun
  cases henter
  obtain ⟨_, e, hdeclared, hrun⟩ := Leads.bind_iff.mp hrun
  -- the frame of the routine is on top, and nothing is lost
  let inner : Binding := { b with scopes := b.scopes.enter d.name (some (.callable d)) }
  have hlater : Later inner e :=
    hdeclared.ends (Retentive.declareRoutine _ d inner (.refl inner))
  obtain ⟨⟨u, -, hscopes⟩, -⟩ :=
    hdeclared.ends (declareRoutine_ends (d := d) 0 hb.2.2.inner_ne_nil)
  have he : Carries e e :=
    .of_upright (hlater.notes.standsIn hb.1) (by simp [hscopes, Scopes.enter])
  exact h.before (fun _ => leave_errors) _ _ c he hrun hc

/-- A method is only skipped with an error. -/
theorem inMethod (h : Vouches q inside) : Vouches q (inMethod d inside) := by
  intro b _ c hb hrun hc
  unfold Binding.inMethod at hrun
  obtain ⟨_, _, hscopes, hrun⟩ := Leads.bind_iff.mp hrun
  cases hscopes
  have hself : Vouches q (do
      declareSelf d
      inside) :=
    .after (.of_retentive (.declareSelf d) (.declareSelf d)) fun _ => h
  cases hx : b.scopes.enterMethod d.owner d.name with
  | none =>
    rw [hx] at hrun
    obtain ⟨_, _, hended, -⟩ := Leads.bind_iff.mp hrun
    cases hended
  | some r =>
    rw [hx] at hrun
    obtain ⟨_, _, hended, hrun⟩ := Leads.bind_iff.mp hrun
    cases hended
    cases r with
    | error e =>
      dsimp only at hrun
      by_cases hfault : e.fault = .compositeNotFound
      · rw [if_pos hfault] at hrun
        have hframed := framed d.name (some (.callable d)) hself
        simp only [bind_assoc] at hframed
        exact after (.of_retentive (Silent.lookupFailed _ _).retentive (.lookupFailed _ _))
          (fun _ => hframed) b _ c hb hrun hc
      · rw [if_neg hfault] at hrun
        simp only [lookupFailed, hfault, decide_false, Bool.false_and, Bool.false_eq_true,
          if_false, bind_assoc] at hrun
        obtain ⟨_, _, hscopes, hrun⟩ := Leads.bind_iff.mp hrun
        cases hscopes
        obtain ⟨_, _, hcomplain, hrun⟩ := Leads.bind_iff.mp hrun
        cases hcomplain
        cases hrun
        exact absurd hc (by simp)
    | ok r =>
      obtain ⟨s, context⟩ := r
      have hinner : s.inner ≠ [] := fun hnil => by
        have hlength := (Scopes.enterMethod_top hx).1
        simp [hnil] at hlength
      obtain ⟨_, _, hset, hrun⟩ := Leads.bind_iff.mp hrun
      cases hset
      have hall := before (after (.of_retentive (.bindHeading d s.top.owner)
        (.bindHeading d s.top.owner)) fun _ => hself) fun _ => leaveMethod_errors context
      simp only [bind_assoc] at hall
      exact hall _ _ c (.of_upright (b := { b with scopes := s }) hb.1 hinner) hrun hc

end Vouches

/-! Records. -/

theorem visitMembers_append (ms ms' : List Member) :
    visitMembers (ms ++ ms') = (do visitMembers ms; visitMembers ms') := by
  induction ms with
  | nil => simp [visitMembers]
  | cons m ms ih => cases m <;> simp [visitMembers, ih]

theorem carrying_members (ms : List Member) : Carrying (visitMembers ms) :=
  .of_settles (.visitMembers ms) (.visitMembers ms)

theorem carrying_rest (t : TypeExpr) : Carrying (visitRest t) := by
  obtain ⟨ns, h⟩ := Settles.visitRest t
  exact .of_settles h (.visitRest t)

theorem carrying_callable (d : CallableDecl) : Carrying (visitCallable d) :=
  .of_settles (.visitCallable d) (.visitCallable d)

theorem carrying_types (declared : Bool) (ds : List Decl) :
    Carrying (declareTypes declared ds) :=
  .of_retentive (.declareTypes declared ds) (.declareTypes declared ds)

/-- All fields of a record are declared in one frame, so their names differ. -/
theorem record_distinct {c : CompositeDecl} (hc : c.IsRecord) :
    Shows (fun _ _ => c.Distinct) (do visitMembers c.members; visitRest c.type) := by
  have hrest := fun _ : Unit => carrying_rest c.type
  refine ⟨(carrying_members _).bind hrest, fun {b d a} hb h hd => ⟨?_, ?_⟩⟩
  · intro before f after hsplit m hm hname
    have hbefore : ∀ d, .callable d ∈ before → d.body = none := fun d hd =>
      hc.headings d (hsplit ▸ List.mem_append_left _ hd)
    have hfield : Shows (Claims f.name) (do visitMembers (.var f :: after); visitRest c.type) :=
      .left (.left (.visitField f) fun _ => carrying_members after) hrest
    have hclash := Shows.clash (carrying_members before)
      (fun hn => .visitMembers hn before hbefore ⟨m, hm, hname⟩) hfield
    rw [hsplit, visitMembers_append, bind_assoc] at h
    exact hclash.shows hb h hd
  · intro n hn m hm hname
    have hclash := Shows.clash (carrying_members c.members)
      (fun hn => .visitMembers hn c.members hc.headings ⟨m, hm, hname⟩) (.visitRest c.type hn)
    exact hclash.shows hb h hd

/-- The records among some composites have distinct names. -/
def AllDistinct (cs : List CompositeDecl) : Prop := ∀ c ∈ cs, c.IsRecord → c.Distinct

theorem allDistinct_append {cs cs' : List CompositeDecl} (h : AllDistinct cs)
    (h' : AllDistinct cs') : AllDistinct (cs ++ cs') := List.forall_mem_append.mpr ⟨h, h'⟩

/-- What is true of parts is true of all of them. -/
theorem Shows.append {α β : Type} {m : Bind α} {k : α → Bind β} {cs cs' : List CompositeDecl}
    (hm : Shows (fun _ _ => AllDistinct cs) m)
    (hk : ∀ a, Shows (fun _ _ => AllDistinct cs') (k a)) :
    Shows (fun _ _ => AllDistinct (cs ++ cs')) (m >>= k) :=
  (Shows.conj hm hk).mono fun _ _ h => allDistinct_append h.1 h.2

theorem allDistinct_nil : AllDistinct [] := nofun

/-- A composite and those among its members. -/
theorem composite_allDistinct (c : CompositeDecl)
    (h : Shows (fun _ _ => AllDistinct (membersComposites c.members)) (visitMembers c.members)) :
    Vouches (AllDistinct (c :: membersComposites c.members)) (do
      enter c.name (some (.composite c))
      visitMembers c.members
      visitRest c.type
      leave) := by
  have hinside : Vouches (AllDistinct (c :: membersComposites c.members)) (do
      visitMembers c.members
      visitRest c.type) := by
    intro b a d hb hrun hd
    have hmembers := (h.left fun _ => carrying_rest c.type).shows hb hrun hd
    refine List.forall_mem_cons.mpr ⟨fun hc => ?_, hmembers⟩
    exact (record_distinct hc).shows hb hrun hd
  have hframed := hinside.framed c.name (some (.composite c))
  simp only [bind_assoc] at hframed
  exact hframed

mutual

theorem visitCallable_distinct : (d : CallableDecl) →
    Shows (fun _ _ => AllDistinct d.composites) (visitCallable d)
  | ⟨i, name, owner, kind, classMethod, params, result, directives, body, forward, external,
      visibility, builtin⟩ => by
    let d : CallableDecl := ⟨i, name, owner, kind, classMethod, params, result, directives, body,
      forward, external, visibility, builtin⟩
    have hinside : Vouches (AllDistinct d.composites) (insideOf d) :=
      .after (.of_settles (.visitOptParams params) (.visitOptParams params)) fun _ =>
        .after (.of_settles (.visitOptType result) (.visitOptType result)) fun _ =>
          .of_shows (visitBody_distinct d body)
    have hvouches : Vouches (AllDistinct d.composites) (visitCallable d) := by
      rw [visitCallable_eq]
      split
      · exact .inMethod hinside
      · exact .inRoutine hinside
    exact ⟨carrying_callable d, hvouches _ _ _⟩

theorem visitBody_distinct (d : CallableDecl) : (body : Option Block) →
    Shows (fun _ _ => AllDistinct (blockComposites body)) (visitBody d body)
  | none => .of_carrying (.pure _) allDistinct_nil
  | some ⟨_, decls, body⟩ => by
    have hroutines (f : Binding → List Nat) :
        Carrying (modify fun b => { b with routines := f b } : Bind PUnit) :=
      fun b hb => ⟨hb.1, ⟨.of_eq rfl, rfl, rfl, fun _ h => h, fun _ h => h⟩, hb.2.2⟩
    exact .right (.of_retentive (.declareResult d) (.declareResult d)) fun _ =>
      .right (.of_retentive Silent.getScopes.retentive .getScopes) fun _ =>
        .right (hroutines _) fun _ =>
          .left (.left (visitDecls_distinct false decls) fun _ =>
            .of_settles (.visitStmt body) (.visitStmt body)) fun _ => hroutines _

theorem visitMembers_distinct : (members : List Member) →
    Shows (fun _ _ => AllDistinct (membersComposites members)) (visitMembers members)
  | [] => .of_carrying (.pure _) allDistinct_nil
  | .var d :: members =>
    .right (Shows.visitField d).carries fun _ => visitMembers_distinct members
  | .callable d :: members =>
    .append (visitCallable_distinct d) fun _ => visitMembers_distinct members
  | .property d :: members =>
    .right (Shows.visitProperty d).carries fun _ => visitMembers_distinct members

theorem visitDecls_distinct (declared : Bool) : (ds : List Decl) →
    Shows (fun _ _ => AllDistinct (declsComposites ds)) (visitDecls declared ds)
  | [] => .of_carrying (.pure _) allDistinct_nil
  | .type ⟨_, name, t⟩ :: ds =>
    .right (carrying_types _ _) fun _ =>
      .right (.of_settles (.visitType t name) (.visitType t name)) fun _ =>
        visitDecls_distinct true ds
  | .composite ⟨i, name, kind, heritage, members, type⟩ :: ds => by
    let c : CompositeDecl := ⟨i, name, kind, heritage, members, type⟩
    obtain ⟨ns, hrest⟩ := Settles.visitRest type
    have hframed := Carrying.framed name (some (.composite c))
      (.bind (.visitMembers members) fun _ => hrest)
      (.bind (Lawful.visitMembers members) fun _ => Lawful.visitRest type)
    have hfirst := composite_allDistinct c (visitMembers_distinct members)
    simp only [bind_assoc] at hframed
    have hall := Shows.append ⟨hframed, hfirst _ _ _⟩ fun _ =>
      .right (.of_retentive (Silent.checkComposite c).retentive
        (.checkComposite c)) fun _ => visitDecls_distinct true ds
    simp only [bind_assoc] at hall
    exact .right (carrying_types _ _) fun _ => hall
  | .var ⟨_, _, type, init, _, _, _⟩ :: ds =>
    .right (.of_settles (.visitOptType type) (.visitOptType type)) fun _ =>
      .right (.of_settles (.visitOptExpr init) (.visitOptExpr init)) fun _ =>
        .right (.of_retentive (.declareVar _) (.declareVar _)) fun _ =>
          visitDecls_distinct false ds
  | .const ⟨_, _, type, value, _⟩ :: ds =>
    .right (.of_settles (.visitOptType type) (.visitOptType type)) fun _ =>
      .right (.of_settles (.visitOptExpr value) (.visitOptExpr value)) fun _ =>
        .right (.of_retentive (.declareConst _) (.declareConst _)) fun _ =>
          visitDecls_distinct false ds
  | .callable d :: ds => .append (visitCallable_distinct d) fun _ => visitDecls_distinct false ds
  | .label d :: ds =>
    .right (.of_retentive (Retentive.register _ _ _).discard (Lawful.register _ _ _).discard)
      fun _ => visitDecls_distinct false ds
  | .exported d :: ds =>
    have hexport : Settles (visitExport d) (optExprNodes d.exportName ++ optExprNodes d.index) :=
      .after (Silent.checkExported d).retentive fun _ =>
        .bind (.visitOptExpr _) fun _ => .visitOptExpr _
    .right (.of_settles hexport (.visitExport d)) fun _ => visitDecls_distinct false ds
  | .param _ :: _ | .property _ :: _ | .unit _ :: _ | .enumMember _ :: _ => .throw _

end

/-- In a source without errors the names of all records are distinct. -/
theorem visitGoal_distinct (g : Goal) : Vouches (AllDistinct g.composites) (visitGoal g) := by
  have hunits (units : List UnitRef) : Carrying (declareUnits units) :=
    .of_retentive (.declareUnits units) (.declareUnits units)
  have hstmts (ss : List Stmt) : Carrying (visitStmts ss) :=
    .of_settles (.visitStmts ss) (.visitStmts ss)
  have hblock (units : List UnitRef) (b : Block) :
      Vouches (AllDistinct (declsComposites b.decls)) (do declareUnits units; visitBlock b) :=
    .of_shows (.right (hunits units) fun _ => .left (visitDecls_distinct false b.decls) fun _ =>
      .of_settles (.visitStmt b.body) (.visitStmt b.body))
  cases g with
  | program g => exact hblock g.uses g.block
  | library g => exact hblock g.uses g.block
  | unit g =>
    have hown : Shows (fun _ _ => AllDistinct (declsComposites g.ownDecls)) (do
        declareUnits g.ownUses
        visitDecls false g.ownDecls
        visitStmts g.init
        visitStmts g.final) :=
      .right (hunits g.ownUses) fun _ => .left (visitDecls_distinct false g.ownDecls) fun _ =>
        (hstmts g.init).bind fun _ => hstmts g.final
    exact .of_shows (.right (hunits g.publicUses) fun _ =>
      .append (visitDecls_distinct false g.publicDecls) fun _ => hown)
  | package g => exact fun _ _ _ _ _ _ => allDistinct_nil

/-! Access to a field. -/

/-- A name denotes a variable of a record type, at a node that is not bound yet. -/
structure HoldsRecord (b : Binding) (j : NodeInfo) (v : Text) (c : CompositeDecl) : Prop where
  holds : ∃ x place t, b.scopes.lookup? v = some (.var x, place) ∧
    x.type = some (.named t) ∧ b.scopes.fetchComposite t.name = .ok c
  type : b.scopes.fetchComposite c.name = .ok c
  numbered : 0 < j.id ∧ j.id < b.notes.next
  fresh : b.notes.substitutes[b.notes.next]? = none

section Access

variable {b : Binding} {i j : NodeInfo} {v name : Text} {c : CompositeDecl}

/-- A variable that is named has a new identifier in its place, which denotes it. -/
theorem effective_variable {x : VarDecl} {place : Nat}
    (hfound : b.scopes.lookup? v = some (.var x, place)) (hnumber : 0 < j.id)
    (hj : j.id < b.notes.next) (hfresh : b.notes.substitutes[b.notes.next]? = none) :
    Ends (visitExpr (.name j v)) b (fun _ d => d = { b with notes := d.notes } ∧
      d.notes.declOf (d.notes.effective (.name j v)).info = some (.var x)) fun _ _ => False := by
  rw [visitExpr]
  refine (resolveName_found hfound hj false).mono (fun _ d hd => ⟨hd.eq, ?_⟩) fun _ _ h => ?_
  · obtain ⟨k, hk, hdeclared, hsubstitutes⟩ := hd.replaced fun _ h => by cases h
    have hname : d.notes.substitutes[j.id]? = some (.ident k v) := by
      rw [hsubstitutes, if_pos rfl]
    have hident : d.notes.substitutes[k.id]? = none := by
      rw [hsubstitutes, if_neg (by omega), hk, hfresh]
    have hstop : d.notes.effectiveWithin 7 (.ident k v) = .ident k v := by
      rw [Annotations.effectiveWithin, show (Expr.ident k v).info = k from rfl, hident]
    rw [Annotations.effective, Annotations.effectiveWithin,
      show (Expr.name j v).info = j from rfl, hname]
    change d.notes.declOf (d.notes.effectiveWithin 7 (.ident k v)).info = _
    rw [hstop]
    exact hdeclared
  · obtain h | h | ⟨f, hf⟩ := h
    · omega
    · omega
    · cases hf

/-- A member of a record that a variable holds is looked for among the members of the record. -/
theorem visitExpr_field (name : Text) (hv : HoldsRecord b j v c) (hc : c.IsRecord)
    (hi : 0 < i.id) :
    Ends (visitExpr (.field i (.name j v) name)) b
      (fun _ d => match c.member? name with
        | some m => d.notes.declOf i = some m.decl ∧ d.errors = b.errors
        | none => d.errors = b.errors.push ⟨b.path, i.line, .scope
            (b.scopes.error .memberNotFound (c.name ++ Text.ofString "." ++ name))⟩)
      fun _ _ => False := by
  obtain ⟨⟨x, place, t, hfound, hx, htype⟩, hname, ⟨hnumber, hj⟩, hfresh⟩ := hv
  rw [visitExpr, Ends.bind_iff]
  refine (effective_variable hfound hnumber hj hfresh).mono (fun _ d h => ?_) fun _ _ h => h
  obtain ⟨hd, hvar⟩ := h
  have hscopes : d.scopes = b.scopes := by rw [hd]
  have herrors : d.errors = b.errors := by rw [hd]
  have hpath : d.path = b.path := by rw [hd]
  have hcomposite : Ends (compositeOf (.name j v)) d
      (fun r e => r = some c.name ∧ e = d) fun _ _ => False := by
    unfold compositeOf
    rw [Ends.bind_iff, getNotes_iff, Ends.bind_iff, getScopes_iff]
    simp only [hvar, hx, hscopes, htype]
    exact ⟨rfl, rfl⟩
  unfold bindField
  rw [Ends.bind_iff, getNotes_iff, Ends.bind_iff, getScopes_iff]
  simp only [hvar]
  rw [Ends.bind_iff]
  refine hcomposite.mono (fun r e h => ?_) fun _ _ h => h
  obtain ⟨rfl, rfl⟩ := h
  have hmember := Scopes.fetchMember_record hname hc name
  dsimp only
  rw [hscopes, show b.scopes.fetchMember c.name name = _ from hmember, Ends.bind_iff,
    ended_some_iff]
  cases c.member? name with
  | none => simp [lookupFailed, complain, herrors, hpath, Scopes.error, Expr.info]
  | some m =>
    dsimp only
    rw [Ends.bind_iff]
    refine (update_ends _ (.expr (.field i (.name j v) name)) _).mono
      (fun _ d₁ h => ?_) fun _ _ h => hi.ne' h
    obtain ⟨notes, hnotes, rfl⟩ := h
    refine (recordType_undisturbed _ _ _).mono (fun _ d₂ hd₂ => ⟨?_, ?_⟩) fun _ _ h => hi.ne' h
    · exact (hd₂.declOf i).trans (Annotations.declOf_of_bind hnotes)
    · rw [hd₂.eq]
      exact herrors

end Access

/-- In a source without errors, wherever a record type is in sight, each field among its members is
found, and a variable of the type has it: the access to it is bound to the field and nothing is
reported. But no field of the variant part is found, neither its tag nor a field of any case: the
access to it is reported, though it is declared. This holds of names for which the two ways to
compare names agree about the members of the record, as they do for ASCII names. -/
theorem record_fields_found {config : Config} {path : Text} {g : Goal} {last : Nat} {d : Binding}
    {c : CompositeDecl} (hrun : ofGoal config path g last = (.ok (), d))
    (hclean : d.isClean = true) (hmem : c ∈ g.composites) (hc : c.IsRecord)
    (hfields : ∀ f, .var f ∈ c.members → Scopes.Folds f.name c)
    (hvariants : ∀ n ∈ c.type.variantNames, Scopes.Folds n c) :
    (∀ (s : Scopes) (type : Text), s.fetchComposite type = .ok c →
      (∀ f, .var f ∈ c.members → (s.fetchField type f.name).run = some (.ok f)) ∧
      ∀ n ∈ c.type.variantNames, (s.fetchField type n).run =
        some (.error (s.error .fieldNotFound (type ++ Text.ofString "." ++ n)))) ∧
    ∀ (b : Binding) (i j : NodeInfo) (v : Text), HoldsRecord b j v c → 0 < i.id →
      (∀ f, .var f ∈ c.members → Ends (visitExpr (.field i (.name j v) f.name)) b
        (fun _ e => e.notes.declOf i = some (.var f) ∧ e.errors = b.errors) fun _ _ => False) ∧
      ∀ n ∈ c.type.variantNames, Ends (visitExpr (.field i (.name j v) n)) b
        (fun _ e => e.errors = b.errors.push ⟨b.path, i.line, .scope
          (b.scopes.error .memberNotFound (c.name ++ Text.ofString "." ++ n))⟩)
        fun _ _ => False := by
  let start : Binding := { scopes := .initial config, notes := .forTree last, path }
  have hstart : Carries start start :=
    .of_upright (Annotations.standsIn_forTree last 0) (List.cons_ne_nil _ _)
  have herrors : d.errors = #[] := by simpa [isClean] using hclean
  have hdistinct : c.Distinct := visitGoal_distinct g start () d hstart hrun herrors c hmem hc
  refine ⟨fun s type hfetch => ⟨fun f hf => ?_, fun n hn => ?_⟩,
    fun b i j v hv hi => ⟨fun f hf => ?_, fun n hn => ?_⟩⟩
  · exact Scopes.fetchField_field hfetch hc hdistinct hf (hfields f hf)
  · exact Scopes.fetchField_variant hfetch hc hdistinct hn (hvariants n hn)
  · have hends := visitExpr_field f.name hv hc hi
    rw [hdistinct.member?_field hf (hfields f hf)] at hends
    exact hends
  · have hends := visitExpr_field n hv hc hi
    rw [hdistinct.member?_variant hn (hvariants n hn)] at hends
    exact hends

/-- A record with a field, and in its variant part a tag and a field for one value of it. -/
def taggedRecord : CompositeDecl :=
  let node (id : Nat) : NodeInfo := { id, line := 1 }
  let field (id : Nat) (name type : Text) : VarDecl :=
    { info := node (id + 1), name, type := some (.named ⟨node id, type⟩), kind := .field }
  let cases : List VariantCase := [⟨node 7, [.int (node 4) 0 "0"], [field 5 "B" "Byte"]⟩]
  let members : List Member := [.var (field 1 "A" "Integer")]
  { info := node 10, name := "R", kind := .record, members
    type := .record (node 9) false members (some ⟨node 8, "T", .named ⟨node 3, "Byte"⟩, cases⟩) }

/-- A variable of this record. -/
def taggedVar : VarDecl where
  info := { id := 12, line := 1 }
  name := "V"
  type := some (.named ⟨{ id := 11, line := 1 }, "R"⟩)

/-- A program with this record and the variable. -/
def taggedProgram (body : List Stmt) : Goal :=
  let node (id : Nat) : NodeInfo := { id, line := 1 }
  .program { info := node 20, name := "P", block :=
    ⟨node 19, [.composite taggedRecord, .var taggedVar], .compound (node 18) body⟩ }

/-- The access to a field of the variable. -/
def taggedAccess (name : Text) : Expr :=
  .field { id := 14, line := 1 } (.name { id := 13, line := 1 } "V") name

theorem isRecord_taggedRecord : taggedRecord.IsRecord := by
  refine ⟨rfl, rfl, fun d hd => ?_⟩
  cases List.mem_singleton.mp hd

theorem folds_taggedRecord {n : Text} (hn : n.isAscii = true) : Scopes.Folds n taggedRecord := by
  refine Scopes.folds_of_isAscii hn fun m hm => ?_
  obtain rfl := List.mem_singleton.mp hm
  decide

/-- What is in sight in the statements of the program. -/
def taggedStart : Binding where
  scopes := (Scopes.initial {}).withInner [{ name := "global", entries :=
    [{ name := "R", decl := .composite taggedRecord }, { name := "V", decl := .var taggedVar }] }]
  notes := .forTree 20

/-- The program declares one record. -/
example : (taggedProgram []).composites.length = 1 := by decide +kernel

theorem record_fields_found_tagged : ∃ d, ofGoal {} ∅ (taggedProgram []) 20 = (.ok (), d) ∧
    d.isClean = true ∧ taggedRecord ∈ (taggedProgram []).composites ∧ taggedRecord.IsRecord ∧
    (∀ f, .var f ∈ taggedRecord.members → Scopes.Folds f.name taggedRecord) ∧
    (∀ n ∈ taggedRecord.type.variantNames, Scopes.Folds n taggedRecord) ∧
    taggedStart.scopes.fetchComposite "R" = .ok taggedRecord ∧
    HoldsRecord taggedStart { id := 13, line := 1 } "V" taggedRecord ∧
    (∃ f, (taggedStart.scopes.fetchField "R" "A").run = some (.ok f) ∧
      Ends (visitExpr (taggedAccess "A")) taggedStart (fun _ e =>
        e.notes.declOf { id := 14, line := 1 } = some (.var f) ∧ e.errors = taggedStart.errors)
        fun _ _ => False) ∧
    (taggedStart.scopes.fetchField "R" "B").run =
      some (.error (taggedStart.scopes.error .fieldNotFound "R.B")) := by
  have hends : endsWith (ofGoal {} ∅ (taggedProgram []) 20) isClean = true := by decide +kernel
  obtain ⟨d, hrun, hends⟩ := exists_of_endsWith hends
  have hmem : taggedRecord ∈ (taggedProgram []).composites := List.mem_cons_self
  have hfields : ∀ f, .var f ∈ taggedRecord.members → Scopes.Folds f.name taggedRecord := by
    intro f hf
    cases List.mem_singleton.mp hf
    exact folds_taggedRecord (by decide)
  have hnames : taggedRecord.type.variantNames = ["T", "B"] := rfl
  have hvariants : ∀ n ∈ taggedRecord.type.variantNames, Scopes.Folds n taggedRecord := by
    intro n hn
    refine folds_taggedRecord ?_
    rw [hnames] at hn
    obtain rfl | hn := List.mem_cons.mp hn
    · decide
    · obtain rfl := List.mem_singleton.mp hn
      decide
  have htype : taggedStart.scopes.fetchComposite "R" = .ok taggedRecord := rfl
  have hholds : HoldsRecord taggedStart { id := 13, line := 1 } "V" taggedRecord :=
    ⟨⟨taggedVar, 1, _, rfl, rfl, rfl⟩, rfl, by decide, rfl⟩
  -- nothing more is to be computed of what is in sight
  generalize taggedStart = b at htype hholds ⊢
  obtain ⟨hfetch, haccess⟩ :=
    record_fields_found hrun hends hmem isRecord_taggedRecord hfields hvariants
  have hfirst : ∃ f, taggedRecord.members = [.var f] ∧ f.name = "A" := ⟨_, rfl, rfl⟩
  obtain ⟨f, hmembers, hname⟩ := hfirst
  have hf : .var f ∈ taggedRecord.members := hmembers ▸ List.mem_singleton_self _
  have hfound := (hfetch _ _ htype).1 f hf
  have hbound := (haccess b { id := 14, line := 1 } _ _ hholds (by decide)).1 f hf
  rw [hname] at hfound hbound
  exact ⟨d, hrun, hends, hmem, isRecord_taggedRecord, hfields, hvariants, htype, hholds,
    ⟨f, hfound, hbound⟩, (hfetch _ _ htype).2 "B" (hnames ▸ by decide)⟩

/-- The field of the variant part is not found in the program, which has no errors; and where it is
accessed, an error is reported. -/
theorem taggedField_missing :
    (∃ d, ofGoal {} ∅ (taggedProgram []) 20 = (.ok (), d) ∧ d.isClean = true ∧
      taggedRecord ∈ (taggedProgram []).composites ∧
      Text.ofString "B" ∈ taggedRecord.type.variantNames ∧
      (d.scopes.fetchField "R" "B").run = some (.error ⟨.fieldNotFound, "R.B", "global"⟩)) ∧
    ∃ d, ofGoal {} ∅ (taggedProgram [.call { id := 15, line := 1 } (taggedAccess "B")]) 20 =
        (.ok (), d) ∧
      ∃ f ∈ d.errors, f.complaint = .scope ⟨.memberNotFound, "R.B", "global"⟩ := by
  constructor
  · have hends : endsWith (ofGoal {} ∅ (taggedProgram []) 20) (fun d =>
        d.isClean && (d.scopes.fetchField "R" "B").run.any fun r =>
          failsWith r (· == ⟨.fieldNotFound, "R.B", "global"⟩)) = true := by
      decide +kernel
    obtain ⟨d, hd, hends⟩ := exists_of_endsWith hends
    obtain ⟨hclean, hmissing⟩ := Bool.and_eq_true_iff.mp hends
    obtain ⟨r, hr, hmissing⟩ := (Option.any_eq_true _ _).mp hmissing
    obtain ⟨e, rfl, he⟩ := exists_of_failsWith hmissing
    exact ⟨d, hd, hclean, List.mem_cons_self, by decide, by rw [hr, eq_of_beq he]⟩
  · have hends : endsWith (ofGoal {} ∅
        (taggedProgram [.call { id := 15, line := 1 } (taggedAccess "B")]) 20) (fun d =>
          d.errors.any (·.complaint.isScope ⟨.memberNotFound, "R.B", "global"⟩)) = true := by
      decide +kernel
    obtain ⟨d, hd, hends⟩ := exists_of_endsWith hends
    obtain ⟨k, hk, -, -, hf⟩ := Array.any_iff_exists.mp hends
    exact ⟨d, hd, d.errors[k], Array.getElem_mem hk, Complaint.eq_of_isScope hf⟩

end Binding
end ObjectPascal
