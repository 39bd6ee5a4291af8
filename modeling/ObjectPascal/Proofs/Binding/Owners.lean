import ObjectPascal.Proofs.Binding.Overloads
import ObjectPascal.Proofs.Binding.Promise

/-!
Which routine a variable belongs to. The numbers of its variables and parameters tell the routines
of a source apart, and they tell the variables of routines from global ones and from fields.
-/

namespace ObjectPascal

/-- A declaration of no variable, parameter or type with members. -/
def Decl.isPlain : Decl → Bool
  | .var _ | .param _ | .composite _ => false
  | _ => true

/-- A routine owns its parameters, the variables of its block, and those that no source declares,
such as the one for its result. -/
def CallableDecl.Owns (implicit : List (VarDecl × CallableDecl)) (f : CallableDecl) : Decl → Prop
  | .param p => p ∈ f.paramList
  | .var v => (∃ b, f.body = some b ∧ .var v ∈ b.decls) ∨ (v, f) ∈ implicit
  | _ => False

mutual

/-- The variables and parameters of a routine and of those inside it, each with the routine that
owns it. Fields have no owner. -/
def CallableDecl.homes : CallableDecl → List (Node × Option CallableDecl)
  | ⟨i, name, owner, kind, classMethod, params, result, directives, body, forward, external,
      visibility, builtin⟩ =>
    let d : CallableDecl := ⟨i, name, owner, kind, classMethod, params, result, directives, body,
      forward, external, visibility, builtin⟩
    d.paramList.map (fun p => (.decl (.param p), some d)) ++ blockHomes (some d) body

/-- The variables of a block that may be absent. Those that stand in no other routine belong to
`o`. -/
def blockHomes (o : Option CallableDecl) : Option Block → List (Node × Option CallableDecl)
  | none => []
  | some ⟨_, decls, _⟩ => declsHomes o decls

/-- The variables among declarations. -/
def declsHomes (o : Option CallableDecl) : List Decl → List (Node × Option CallableDecl)
  | [] => []
  | .var v :: ds => (.decl (.var v), o) :: declsHomes o ds
  | .callable d :: ds => d.homes ++ declsHomes o ds
  | .composite ⟨_, _, _, _, members, _⟩ :: ds => membersHomes members ++ declsHomes o ds
  | .type _ :: ds | .const _ :: ds | .param _ :: ds | .property _ :: ds | .label _ :: ds
  | .unit _ :: ds | .exported _ :: ds | .enumMember _ :: ds => declsHomes o ds

/-- The variables among members. -/
def membersHomes : List Member → List (Node × Option CallableDecl)
  | [] => []
  | .var v :: members => (.decl (.var v), none) :: membersHomes members
  | .callable d :: members => d.homes ++ membersHomes members
  | .property _ :: members => membersHomes members

end

/-- The variables and parameters of a source with the routines that own them. -/
def Goal.homes : Goal → List (Node × Option CallableDecl)
  | .program g => declsHomes none g.block.decls
  | .library g => declsHomes none g.block.decls
  | .unit g => declsHomes none g.publicDecls ++ declsHomes none g.ownDecls
  | .package _ => []

section Within

variable (f : CallableDecl)

mutual

theorem CallableDecl.sizeOf_le_of_mem : (d : CallableDecl) → f ∈ d.routines → sizeOf f ≤ sizeOf d
  | ⟨i, name, owner, kind, classMethod, params, result, directives, body, forward, external,
      visibility, builtin⟩, h => by
    obtain rfl | h := List.mem_cons.mp h
    · exact Nat.le_refl _
    · have hbody := sizeOf_lt_of_mem_block body h
      simp only [CallableDecl.mk.sizeOf_spec]
      omega

theorem sizeOf_lt_of_mem_block : (b : Option Block) → f ∈ blockRoutines b → sizeOf f < sizeOf b
  | some ⟨i, decls, body⟩, h => by
    have hdecls := sizeOf_lt_of_mem_decls decls h
    simp only [Option.some.sizeOf_spec, Block.mk.sizeOf_spec]
    omega

theorem sizeOf_lt_of_mem_decls : (ds : List Decl) → f ∈ declsRoutines ds → sizeOf f < sizeOf ds
  | .callable d :: ds, h => by
    simp only [List.cons.sizeOf_spec, Decl.callable.sizeOf_spec]
    obtain h | h := List.mem_append.mp h
    · have hd := d.sizeOf_le_of_mem h
      omega
    · have hds := sizeOf_lt_of_mem_decls ds h
      omega
  | .composite ⟨_, _, _, _, members, _⟩ :: ds, h => by
    simp only [List.cons.sizeOf_spec, Decl.composite.sizeOf_spec, CompositeDecl.mk.sizeOf_spec]
    obtain h | h := List.mem_append.mp h
    · have hmembers := sizeOf_lt_of_mem_members members h
      omega
    · have hds := sizeOf_lt_of_mem_decls ds h
      omega
  | .type _ :: ds, h | .var _ :: ds, h | .const _ :: ds, h | .param _ :: ds, h
  | .property _ :: ds, h | .label _ :: ds, h | .unit _ :: ds, h | .exported _ :: ds, h
  | .enumMember _ :: ds, h => by
    have hds := sizeOf_lt_of_mem_decls ds h
    simp only [List.cons.sizeOf_spec]
    omega

theorem sizeOf_lt_of_mem_members : (members : List Member) → f ∈ membersRoutines members →
    sizeOf f < sizeOf members
  | .callable d :: members, h => by
    simp only [List.cons.sizeOf_spec, Member.callable.sizeOf_spec]
    obtain h | h := List.mem_append.mp h
    · have hd := d.sizeOf_le_of_mem h
      omega
    · have hmembers := sizeOf_lt_of_mem_members members h
      omega
  | .var _ :: members, h | .property _ :: members, h => by
    have hmembers := sizeOf_lt_of_mem_members members h
    simp only [List.cons.sizeOf_spec]
    omega

end

theorem CallableDecl.sizeOf_lt_of_mem_body (d : CallableDecl) (h : f ∈ blockRoutines d.body) :
    sizeOf f < sizeOf d := by
  have hbody := sizeOf_lt_of_mem_block f d.body h
  obtain ⟨_, _, _, _, _, _, _, _, _, _, _, _, _⟩ := d
  simp only [CallableDecl.mk.sizeOf_spec] at hbody ⊢
  omega

/-- No routine stands inside itself. -/
theorem CallableDecl.not_mem_blockRoutines : f ∉ blockRoutines f.body := fun h =>
  Nat.lt_irrefl _ (sizeOf_lt_of_mem_body f f h)

end Within

/-! Every home is one node of the source. -/

theorem declsNodes_cons (d : Decl) (ds : List Decl) :
    declsNodes (d :: ds) = (Node.decl d).nodes ++ declsNodes ds := by
  rw [declsNodes_eq, declsNodes_eq, List.map_cons, List.flatMap_cons]

theorem params_sublist (ps : List ParamDecl) :
    (ps.map fun p => Node.decl (.param p)).Sublist (paramsNodes ps) := by
  induction ps with
  | nil => exact .slnil
  | cons p ps ih =>
    obtain ⟨i, name, kind, type, default⟩ := p
    simp only [List.map_cons, paramsNodes, ParamDecl.nodes, List.cons_append]
    exact .cons_cons _ (ih.trans (List.sublist_append_right _ _))

mutual

theorem CallableDecl.homes_sublist : (d : CallableDecl) → (d.homes.map Prod.fst).Sublist d.nodes
  | ⟨i, name, owner, kind, classMethod, params, result, directives, body, forward, external,
      visibility, builtin⟩ => by
    let d : CallableDecl := ⟨i, name, owner, kind, classMethod, params, result, directives, body,
      forward, external, visibility, builtin⟩
    have hparams : (d.paramList.map fun p => Node.decl (.param p)).Sublist
        (optParamsNodes params) := by
      cases params with
      | none => exact .slnil
      | some ps => exact params_sublist ps
    have hbody := (blockHomes_sublist (some d) body).trans
      (List.sublist_append_right (exprsNodes d.clauseExprs) _)
    have hall := hparams.append (hbody.trans (List.sublist_append_right (optTypeNodes result) _))
    simp only [CallableDecl.homes, CallableDecl.nodes, List.map_append, List.map_map,
      Function.comp_def, List.append_assoc, List.cons_append]
    exact hall.cons _

theorem blockHomes_sublist (o : Option CallableDecl) : (b : Option Block) →
    ((blockHomes o b).map Prod.fst).Sublist (optBlockNodes b)
  | none => .slnil
  | some ⟨i, decls, body⟩ => by
    rw [blockHomes, optBlockNodes]
    exact ((declsHomes_sublist o decls).trans (List.sublist_append_left _ _)).cons _

theorem declsHomes_sublist (o : Option CallableDecl) : (ds : List Decl) →
    ((declsHomes o ds).map Prod.fst).Sublist (declsNodes ds)
  | [] => .slnil
  | .var v :: ds => by
    obtain ⟨i, name, type, init, absolute, kind, visibility⟩ := v
    simp only [declsHomes, declsNodes, VarDecl.nodes, List.map_cons, List.cons_append]
    exact .cons_cons _ ((declsHomes_sublist o ds).trans (List.sublist_append_right _ _))
  | .callable d :: ds => by
    rw [declsHomes, declsNodes, List.map_append]
    exact d.homes_sublist.append (declsHomes_sublist o ds)
  | .composite ⟨i, name, kind, heritage, members, type⟩ :: ds => by
    simp only [declsHomes, declsNodes, List.map_append, List.cons_append]
    exact ((membersHomes_sublist members).append (declsHomes_sublist o ds)).cons _
  | .type _ :: ds | .const _ :: ds | .param _ :: ds | .property _ :: ds | .label _ :: ds
  | .unit _ :: ds | .exported _ :: ds | .enumMember _ :: ds => by
    rw [declsHomes, declsNodes_cons]
    exact (declsHomes_sublist o ds).trans (List.sublist_append_right _ _)

theorem membersHomes_sublist : (members : List Member) →
    ((membersHomes members).map Prod.fst).Sublist (membersNodes members)
  | [] => .slnil
  | .var v :: members => by
    obtain ⟨i, name, type, init, absolute, kind, visibility⟩ := v
    simp only [membersHomes, membersNodes, VarDecl.nodes, List.map_cons, List.cons_append]
    exact .cons_cons _ ((membersHomes_sublist members).trans (List.sublist_append_right _ _))
  | .callable d :: members => by
    rw [membersHomes, membersNodes, List.map_append]
    exact d.homes_sublist.append (membersHomes_sublist members)
  | .property d :: members => by
    rw [membersHomes, membersNodes]
    exact (membersHomes_sublist members).trans (List.sublist_append_right _ _)

end

theorem Goal.homes_sublist (g : Goal) : (g.homes.map Prod.fst).Sublist g.nodes := by
  have hblock (b : Block) : ((declsHomes none b.decls).map Prod.fst).Sublist b.nodes := by
    obtain ⟨i, decls, body⟩ := b
    exact blockHomes_sublist none (some ⟨i, decls, body⟩)
  cases g with
  | program g => exact ((hblock g.block).trans (List.sublist_append_right _ _)).cons _
  | library g => exact ((hblock g.block).trans (List.sublist_append_right _ _)).cons _
  | unit g =>
    have hpublic := (declsHomes_sublist none g.publicDecls).trans
      (List.sublist_append_right (g.publicUses.map fun u => Node.decl (.unit u)) _)
    have hown := (hpublic.trans (List.sublist_append_left _
      (g.ownUses.map fun u => Node.decl (.unit u)))).append (declsHomes_sublist none g.ownDecls)
    simp only [Goal.homes, Goal.nodes, List.map_append]
    exact ((hown.trans (List.sublist_append_left _ _)).trans (List.sublist_append_left _ _)).cons _
  | package g => exact List.nil_sublist _

/-! The homes of a routine are among those of the source. -/

theorem subset_declsHomes_cons (o : Option CallableDecl) (d : Decl) (ds : List Decl) :
    declsHomes o ds ⊆ declsHomes o (d :: ds) := by
  cases d with
  | var v => exact List.subset_cons_self _ _
  | callable d => exact List.subset_append_right _ _
  | composite c =>
    cases c
    exact List.subset_append_right _ _
  | _ => exact List.Subset.refl _

theorem mem_declsHomes_var {o : Option CallableDecl} {v : VarDecl} {ds : List Decl}
    (h : .var v ∈ ds) : (.decl (.var v), o) ∈ declsHomes o ds := by
  induction ds with
  | nil => cases h
  | cons d ds ih =>
    obtain rfl | h := List.mem_cons.mp h
    · exact List.mem_cons_self
    · exact subset_declsHomes_cons o d ds (ih h)

theorem mem_membersHomes {v : VarDecl} {members : List Member} (h : .var v ∈ members) :
    (.decl (.var v), none) ∈ membersHomes members := by
  induction members with
  | nil => cases h
  | cons m members ih =>
    obtain rfl | hrest := List.mem_cons.mp h
    · exact List.mem_cons_self
    · match m with
      | .var w => exact List.mem_cons_of_mem _ (ih hrest)
      | .callable d => exact List.mem_append_right _ (ih hrest)
      | .property d => exact ih hrest

/-- The fields of a declared type have no owner. -/
theorem mem_declsHomes_field {o : Option CallableDecl} {c : CompositeDecl} {v : VarDecl}
    {ds : List Decl} (hc : .composite c ∈ ds) (hv : .var v ∈ c.members) :
    (.decl (.var v), none) ∈ declsHomes o ds := by
  induction ds with
  | nil => cases hc
  | cons d ds ih =>
    obtain rfl | hc := List.mem_cons.mp hc
    · cases c
      exact List.mem_append_left _ (mem_membersHomes hv)
    · exact subset_declsHomes_cons o d ds (ih hc)

theorem CallableDecl.Owns.mem_homes {f : CallableDecl} {d : Decl} (h : f.Owns [] d) :
    (.decl d, some f) ∈ f.homes := by
  cases d with
  | param p =>
    cases f
    exact List.mem_append_left _ (List.mem_map.mpr ⟨p, h, rfl⟩)
  | var v =>
    obtain ⟨⟨i, decls, body⟩, hbody, hv⟩ | h := h
    · obtain ⟨_, _, _, _, _, _, _, _, _, _, _, _, _⟩ := f
      obtain rfl := hbody
      exact List.mem_append_right _ (mem_declsHomes_var hv)
    · cases h
  | _ => cases h

section Subset

variable {f : CallableDecl}

mutual

theorem CallableDecl.homes_subset : (d : CallableDecl) → f ∈ d.routines → f.homes ⊆ d.homes
  | ⟨i, name, owner, kind, classMethod, params, result, directives, body, forward, external,
      visibility, builtin⟩, h => by
    obtain rfl | h := List.mem_cons.mp h
    · exact List.Subset.refl _
    · exact List.Subset.trans (blockHomes_subset _ body h) (List.subset_append_right _ _)

theorem blockHomes_subset (o : Option CallableDecl) : (b : Option Block) → f ∈ blockRoutines b →
    f.homes ⊆ blockHomes o b
  | some ⟨_, decls, _⟩, h => declsHomes_subset o decls h

theorem declsHomes_subset (o : Option CallableDecl) : (ds : List Decl) → f ∈ declsRoutines ds →
    f.homes ⊆ declsHomes o ds
  | .callable d :: ds, h => (List.mem_append.mp h).elim
    (fun h => List.Subset.trans (d.homes_subset h) (List.subset_append_left _ _))
    fun h => List.Subset.trans (declsHomes_subset o ds h) (List.subset_append_right _ _)
  | .composite ⟨_, _, _, _, members, _⟩ :: ds, h => (List.mem_append.mp h).elim
    (fun h => List.Subset.trans (membersHomes_subset members h) (List.subset_append_left _ _))
    fun h => List.Subset.trans (declsHomes_subset o ds h) (List.subset_append_right _ _)
  | .var _ :: ds, h => List.Subset.trans (declsHomes_subset o ds h) (List.subset_cons_self _ _)
  | .type _ :: ds, h | .const _ :: ds, h | .param _ :: ds, h | .property _ :: ds, h
  | .label _ :: ds, h | .unit _ :: ds, h | .exported _ :: ds, h | .enumMember _ :: ds, h =>
    declsHomes_subset o ds h

theorem membersHomes_subset : (members : List Member) → f ∈ membersRoutines members →
    f.homes ⊆ membersHomes members
  | .callable d :: members, h => (List.mem_append.mp h).elim
    (fun h => List.Subset.trans (d.homes_subset h) (List.subset_append_left _ _))
    fun h => List.Subset.trans (membersHomes_subset members h) (List.subset_append_right _ _)
  | .var _ :: members, h =>
    List.Subset.trans (membersHomes_subset members h) (List.subset_cons_self _ _)
  | .property _ :: members, h => membersHomes_subset members h

end

theorem Goal.homes_subset {g : Goal} (h : f ∈ g.routines) : f.homes ⊆ g.homes := by
  cases g with
  | program g =>
    obtain ⟨info, name, params, uses, ⟨i, decls, body⟩⟩ := g
    exact declsHomes_subset none decls h
  | library g =>
    obtain ⟨info, name, uses, ⟨i, decls, body⟩⟩ := g
    exact declsHomes_subset none decls h
  | unit g =>
    obtain h | h := List.mem_append.mp h
    · exact List.Subset.trans (declsHomes_subset none _ h) (List.subset_append_left _ _)
    · exact List.Subset.trans (declsHomes_subset none _ h) (List.subset_append_right _ _)
  | package g => cases h

end Subset

namespace Binding

/-- Two homes with a number that only one node has are one. -/
theorem Once.home_unique {k : Nat} {L : List (Node × Option CallableDecl)}
    (h : Once k (L.map Prod.fst)) {x y : Node} {o o' : Option CallableDecl} (hx : (x, o) ∈ L)
    (hy : (y, o') ∈ L) (hxk : x.info.id = k) (hyk : y.info.id = k) : (x, o) = (y, o') := by
  rw [Once, List.countP_map, List.countP_eq_length_filter] at h
  have hmem {z : Node} {q : Option CallableDecl} (hz : (z, q) ∈ L) (hk : z.info.id = k) :
      (z, q) ∈ L.filter ((fun x : Node => x.info.id == k) ∘ Prod.fst) :=
    List.mem_filter.mpr ⟨hz, beq_iff_eq.mpr hk⟩
  have hx := hmem hx hxk
  have hy := hmem hy hyk
  obtain ⟨z, hL⟩ := List.length_eq_one_iff.mp (Nat.le_antisymm h (List.length_pos_of_mem hx))
  rw [hL, List.mem_singleton] at hx hy
  exact hx.trans hy.symm

/-- A variable belongs to the routine `o` if there is one, and to no other among `fs`. -/
structure Homed (fs : List CallableDecl) (implicit : List (VarDecl × CallableDecl))
    (dated : VarDecl → Prop) (o : Option CallableDecl) (v : VarDecl) : Prop where
  owner : ∀ f ∈ fs, f.Owns implicit (.var v) ↔ o = some f
  dated : dated v

/-- A declaration may stand in a frame of the routine `o`, or in one of no routine. -/
def Suits (fs : List CallableDecl) (implicit : List (VarDecl × CallableDecl))
    (dated : VarDecl → Prop) (o : Option CallableDecl) : Decl → Prop
  | .var v => Homed fs implicit dated o v
  | .param p => ∀ f ∈ fs, f.Owns implicit (.param p) ↔ o = some f
  | .composite c => ∀ v, .var v ∈ c.members → Homed fs implicit dated none v
  | _ => True

theorem suits_of_isPlain {fs : List CallableDecl} {implicit : List (VarDecl × CallableDecl)}
    {dated : VarDecl → Prop} {o : Option CallableDecl} {d : Decl} (h : d.isPlain = true) :
    Suits fs implicit dated o d := by
  cases d with
  | var v => cases h
  | param p => cases h
  | composite c => cases h
  | _ => trivial

section Suits

variable {fs : List CallableDecl} {implicit implicit' : List (VarDecl × CallableDecl)}
  {dated dated' : VarDecl → Prop} {o : Option CallableDecl} {v : VarDecl} {d : Decl}
  (hdated : ∀ v, dated v → dated' v)
  (hsame : ∀ v, dated v → ∀ f, (v, f) ∈ implicit' ↔ (v, f) ∈ implicit)
include hdated hsame

/-- It does not matter that variables without a source are declared later. -/
theorem Homed.mono (h : Homed fs implicit dated o v) : Homed fs implicit' dated' o v where
  owner f hf := by
    rw [← h.owner f hf]
    exact or_congr Iff.rfl (hsame v h.dated f)
  dated := hdated v h.dated

theorem Suits.mono (h : Suits fs implicit dated o d) : Suits fs implicit' dated' o d := by
  cases d with
  | var v => exact Homed.mono hdated hsame h
  | param p => exact h
  | composite c => exact fun v hv => (h v hv).mono hdated hsame
  | _ => trivial

end Suits

/-! What a source declares suits the frames that it is declared in. -/

section Source

variable {g : Goal} {last : Nat} {f : CallableDecl} {o : Option CallableDecl}
  (hrange : ∀ x ∈ g.nodes.flatMap visits, x.info.id ≤ last)
  (honce : ∀ f ∈ g.routines, ∀ d, f.Owns [] d →
    Once (Node.decl d).info.id (g.nodes.flatMap visits))
include honce

theorem home_unique {d : Decl} (hf : f ∈ g.routines) (hd : f.Owns [] d)
    (h : (.decl d, o) ∈ g.homes) : o = some f := by
  have hsub := g.homes_sublist.trans (sublist_visits g.nodes)
  have hhome := Goal.homes_subset hf hd.mem_homes
  have hone := ((honce f hf d hd).subperm hsub.subperm).home_unique h hhome rfl rfl
  exact (Prod.mk.inj hone).2

theorem suits_param {p : ParamDecl} (hf : f ∈ g.routines) (hp : p ∈ f.paramList) :
    Suits g.routines [] (·.info.id ≤ last) (some f) (.param p) := by
  have hown : f.Owns [] (.param p) := hp
  intro f' hf'
  refine ⟨fun h => ?_, fun h => Option.some.inj h ▸ hown⟩
  exact home_unique honce hf' h (Goal.homes_subset hf hown.mem_homes)

include hrange

/-- A home of the source whose owner declares it, if it has one. -/
theorem homed_of_mem {v : VarDecl} (h : (.decl (.var v), o) ∈ g.homes)
    (hown : ∀ f, o = some f → f.Owns [] (.var v)) :
    Homed g.routines [] (·.info.id ≤ last) o v where
  owner f hf := ⟨fun hv => home_unique honce hf hv h, hown f⟩
  dated := hrange _ ((sublist_visits g.nodes).subset
    (g.homes_sublist.subset (List.mem_map.mpr ⟨_, h, rfl⟩)))

theorem suits_decls {ds : List Decl} (hds : declsHomes o ds ⊆ g.homes)
    (hown : ∀ f, o = some f → ∀ v, .var v ∈ ds → f.Owns [] (.var v)) :
    ∀ d ∈ ds, (∃ p, d = .param p) ∨ Suits g.routines [] (·.info.id ≤ last) o d := by
  intro d hd
  cases d with
  | var v =>
    exact .inr (homed_of_mem hrange honce (hds (mem_declsHomes_var hd))
      fun f ho => hown f ho v hd)
  | param p => exact .inl ⟨p, rfl⟩
  | composite c =>
    exact .inr fun v hv => homed_of_mem hrange honce (hds (mem_declsHomes_field hd hv)) nofun
  | _ => exact .inr trivial

/-- The declarations in the block of a routine suit its frame. -/
theorem suits_block {b : Block} (hf : f ∈ g.routines) (hb : f.body = some b) :
    ∀ d ∈ b.decls, (∃ p, d = .param p) ∨ Suits g.routines [] (·.info.id ≤ last) (some f) d := by
  refine suits_decls hrange honce (fun x hx => Goal.homes_subset hf ?_) fun f' ho v hv => ?_
  · obtain ⟨i, decls, body⟩ := b
    obtain ⟨_, _, _, _, _, _, _, _, _, _, _, _, _⟩ := f
    obtain rfl := hb
    exact List.mem_append_right _ hx
  · exact Option.some.inj ho ▸ .inl ⟨b, hb, hv⟩

end Source

end Binding

end ObjectPascal

/-!
What declarations put into the innermost frame. Nothing is declared there but the declarations
themselves and members of enumerations; what they declare in frames of their own is left behind with
those frames.
-/

namespace ObjectPascal.Binding

variable {A : Decl → Prop}

/-- The innermost frame declares nothing anew but what `A` holds of. -/
def TakesIn (A : Decl → Prop) (b c : Binding) : Prop := b.scopes.OnTop (Frame.Takes A) c.scopes

instance : Composes (TakesIn A) (fun (_ : Breach) (_ _ : Binding) => True) where
  trans h k := Scopes.OnTop.trans h k fun _ _ _ => .trans
  reached h := Scopes.onTop_self (Scopes.OnTop.inner_ne_nil h) (.refl A)
  broken _ h := h

/-- A step that declares nothing in the innermost frame but what `A` holds of. -/
abbrev Taking {α : Type} (A : Decl → Prop) (m : Bind α) : Prop :=
  Keeps (TakesIn A) (fun (_ : Breach) _ _ => True) m

namespace Taking

variable {α : Type}

theorem of_still {m : Bind α} (h : Still m) : Taking A m := fun b hb =>
  (h b rfl).mono (fun _ c hc => by
    rw [TakesIn, hc]
    exact Scopes.onTop_self (Scopes.OnTop.inner_ne_nil hb) (.refl A)) fun _ _ h => h

theorem register (line : Nat) (name : Text) {d : Decl} (hd : A d) :
    Taking A (register line name d) := by
  intro b hb
  refine (register_ends (Scopes.OnTop.inner_ne_nil hb) line name d).mono (fun added c hc => ?_)
    fun _ _ h => h
  split at hc
  · exact hc.mono fun _ _ h => Frame.takes_of_add? h hd
  · rw [TakesIn, hc]
    exact Scopes.onTop_self (Scopes.OnTop.inner_ne_nil hb) (.refl A)

theorem declareType {d : Decl} (hd : A d) : Taking A (declareType d) := by
  intro b hb
  unfold Binding.declareType
  rw [Ends.bind_iff, getScopes_iff]
  split
  · rename_i c hannounced
    split
    · rename_i t ht
      obtain ⟨e, he⟩ : ∃ e, b.scopes.findLocal? c.name = some e := by
        cases he : b.scopes.findLocal? c.name with
        | none =>
          have hnone : isAnnounced none = true := he ▸ hannounced
          cases hnone
        | some e => exact ⟨e, rfl⟩
      exact (Scopes.onTop_of_redeclare he ht (Scopes.OnTop.inner_ne_nil hb)).mono
        fun f g ⟨hf, hg⟩ => hg ▸ Frame.takes_replace hf hd
    · exact Scopes.onTop_self (Scopes.OnTop.inner_ne_nil hb) (.refl A)
  · exact (register _ _ hd).discard b hb

theorem forM {γ : Type} {l : List γ} {f : γ → Bind PUnit} (hf : ∀ x ∈ l, Taking A (f x)) :
    Taking A (l.forM f) := by
  induction l with
  | nil => exact .pure _
  | cons x l ih =>
    obtain ⟨hx, hl⟩ := List.forall_mem_cons.mp hf
    exact .bind hx fun _ => ih hl

theorem declareTypes (declared : Bool) {ds : List Decl} (hds : ∀ d ∈ ds, A d) :
    Taking A (declareTypes declared ds) :=
  .ite (.pure _) (forM fun d hd => declareType (hds d hd))

theorem declareVar {d : VarDecl} (hd : A (.var d)) : Taking A (declareVar d) :=
  .bind (of_still (.of_silent (.checkAbsolute d))) fun _ => (register _ _ hd).discard

/-- Types that follow each other are declared together. -/
theorem types_front {d : Decl} {ds : List Decl}
    (h : ∀ e ∈ d :: ds, (∃ p, e = .param p) ∨ A e) (hd : isTypeDecl d = true) :
    ∀ e ∈ d :: ds.takeWhile isTypeDecl, A e := by
  have htype {e : Decl} (he : isTypeDecl e = true) : ¬∃ p, e = .param p := by
    rintro ⟨p, rfl⟩
    cases he
  intro e he
  obtain rfl | he := List.mem_cons.mp he
  · exact (h _ List.mem_cons_self).resolve_left (htype hd)
  · exact (h e (List.mem_cons_of_mem _ ((List.takeWhile_prefix _).subset he))).resolve_left
      (htype (List.mem_takeWhile_imp he))

variable (hplain : ∀ d : Decl, d.isPlain = true → A d)
include hplain

theorem of_enumerating {m : Bind α} (h : Enumerating m) : Taking A m := by
  intro b hb
  refine (h b (.of_eq (Scopes.OnTop.inner_ne_nil hb) rfl)).mono
    (fun _ c hc => Scopes.OnTop.mono hc fun f g hfg => ?_) fun _ _ h => h
  intro name d hd
  obtain hsame | ⟨-, m, hm⟩ := hfg name
  · exact .inl (hsame ▸ hd)
  · rw [hm] at hd
    cases hd
    exact .inr (hplain _ rfl)

theorem declareConst (d : ConstDecl) : Taking A (declareConst d) :=
  .bind (register _ _ (hplain _ rfl)) fun free => of_still (.of_silent (.constantDeclared d free))

theorem declareUnits (units : List UnitRef) : Taking A (declareUnits units) :=
  forM fun _ _ => (register _ _ (hplain _ rfl)).discard

theorem visitParams : (params : List ParamDecl) → (∀ p ∈ params, A (.param p)) →
    Taking A (visitParams params)
  | [], _ => .pure _
  | ⟨_, _, _, type, default⟩ :: params, h => by
    obtain ⟨hp, hparams⟩ := List.forall_mem_cons.mp h
    exact .bind (of_enumerating hplain (.visitOptType type)) fun _ =>
      .bind (of_still (.visitOptExpr default)) fun _ =>
        .bind (register _ _ hp).discard fun _ => visitParams params hparams

theorem visitOptParams {params : Option (List ParamDecl)} (h : ∀ p ∈ params.getD [], A (.param p)) :
    Taking A (visitOptParams params) := by
  cases params with
  | none => exact .pure _
  | some params => exact visitParams hplain params h

theorem visitField {d : VarDecl} (hd : A (.var d)) : Taking A (visitField d) := by
  obtain ⟨i, name, type, init, absolute, kind, visibility⟩ := d
  exact .bind (of_enumerating hplain (.visitOptType type)) fun _ => (register _ _ hd).discard

/-- The parameters of a property are seen only in itself. -/
theorem visitProperty (d : PropertyDecl) : Taking A (visitProperty d) := by
  obtain ⟨i, name, params, type, read, write, index, default, stored, noDefault, implements,
    defaultArray, visibility⟩ := d
  have h (k : Bind Unit) (hk : Taking A k) :=
    Keeps.bind (of_still (.framed name none (Lawful.visitParams params))) fun _ =>
      .bind (of_enumerating hplain (.visitOptType type)) fun _ =>
        .bind (of_still (.visitOptExpr index)) fun _ =>
          .bind (of_still (.visitOptExpr default)) fun _ =>
            .bind (of_still (.visitOptExpr stored)) fun _ => hk
  simp only [bind_assoc] at h
  exact h _ (register _ _ (hplain _ rfl)).discard

/-- A routine is declared around its own frame, or nowhere. -/
theorem visitCallable (d : CallableDecl) : Taking A (visitCallable d) := by
  intro b hb
  rw [visitCallable_eq]
  split
  · exact of_still (.inMethod d (lawful_insideOf d)) b hb
  · have hdeclared := declareRoutine_ends (d := d) 0 (Scopes.OnTop.inner_ne_nil hb)
    refine Still.inRoutine_onTop (lawful_insideOf d) (hdeclared.mono (fun _ c hc => ?_)
      fun _ _ h => h)
    obtain ⟨⟨u, hu, hscopes⟩, -⟩ := hc
    refine ⟨u, hu.mono fun f g hfg => hfg.2.mono ?_, hscopes⟩
    rintro _ ⟨r, rfl⟩
    exact hplain _ rfl

theorem visitMembers : (members : List Member) → (∀ v, .var v ∈ members → A (.var v)) →
    Taking A (visitMembers members)
  | [], _ => .pure _
  | .var d :: members, h =>
    .bind (visitField hplain (h d List.mem_cons_self)) fun _ =>
      visitMembers members fun v hv => h v (List.mem_cons_of_mem _ hv)
  | .callable d :: members, h =>
    .bind (visitCallable hplain d) fun _ =>
      visitMembers members fun v hv => h v (List.mem_cons_of_mem _ hv)
  | .property d :: members, h =>
    .bind (visitProperty hplain d) fun _ =>
      visitMembers members fun v hv => h v (List.mem_cons_of_mem _ hv)

/-- A parameter among declarations breaks off binding. -/
theorem visitDecls (declared : Bool) : (ds : List Decl) →
    (∀ d ∈ ds, (∃ p, d = .param p) ∨ A d) → Taking A (visitDecls declared ds)
  | [], _ => .pure _
  | .type ⟨i, name, t⟩ :: ds, h =>
    .bind (declareTypes declared (types_front h rfl)) fun _ =>
      .bind (of_enumerating hplain (.visitType t name)) fun _ =>
        visitDecls true ds (List.forall_mem_cons.mp h).2
  | .composite ⟨i, name, kind, heritage, members, type⟩ :: ds, h => by
    have hframed (d : CompositeDecl) := of_still (A := A) (.framed d.name (some (.composite d))
      (.bind (Lawful.visitMembers members) fun _ => Lawful.visitRest type))
    have hall (d : CompositeDecl) := Keeps.bind (hframed d) fun _ =>
      Keeps.bind (of_still (.of_silent (.checkComposite d))) fun _ =>
        visitDecls true ds (List.forall_mem_cons.mp h).2
    simp only [bind_assoc] at hall
    exact .bind (declareTypes declared (types_front h rfl)) fun _ =>
      hall ⟨i, name, kind, heritage, members, type⟩
  | .var ⟨i, name, type, init, absolute, kind, visibility⟩ :: ds, h =>
    .bind (of_enumerating hplain (.visitOptType type)) fun _ =>
      .bind (of_still (.visitOptExpr init)) fun _ =>
        .bind (declareVar ((h _ List.mem_cons_self).resolve_left nofun)) fun _ =>
          visitDecls false ds (List.forall_mem_cons.mp h).2
  | .const ⟨i, name, type, value, kind⟩ :: ds, h =>
    .bind (of_enumerating hplain (.visitOptType type)) fun _ =>
      .bind (of_still (.visitOptExpr value)) fun _ =>
        .bind (declareConst hplain _) fun _ =>
          visitDecls false ds (List.forall_mem_cons.mp h).2
  | .callable d :: ds, h =>
    .bind (visitCallable hplain d) fun _ => visitDecls false ds (List.forall_mem_cons.mp h).2
  | .label d :: ds, h =>
    .bind (register _ _ (hplain _ rfl)).discard fun _ =>
      visitDecls false ds (List.forall_mem_cons.mp h).2
  | .exported d :: ds, h =>
    .bind (of_still (.visitExport d)) fun _ =>
      visitDecls false ds (List.forall_mem_cons.mp h).2
  | .param _ :: _, _ | .property _ :: _, _ | .unit _ :: _, _ | .enumMember _ :: _, _ =>
    .throw fun _ _ => trivial

end Taking

end ObjectPascal.Binding
