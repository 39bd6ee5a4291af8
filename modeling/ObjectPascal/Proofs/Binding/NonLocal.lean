import ObjectPascal.Proofs.Binding.Reads

/-!
Non-local marks are exact. While declarations are bound, the frames on the stack are those of the
routines around them, among frames that belong to no routine. So all that is needed for the names in
the statements of a routine is there when its body is bound.
-/

namespace ObjectPascal.Binding

/-- The names in the statements of a block that belongs to a routine. -/
def bodyNames (d : CallableDecl) : Option Block → List Watch
  | none => []
  | some b => namesIn d b.body.nodes

/-- Routines and the names in their statements. -/
def watchedIn (fs : List CallableDecl) : List Watch :=
  fs.flatMap fun d => .routine d :: bodyNames d d.body

theorem watchedIn_append (fs fs' : List CallableDecl) :
    watchedIn (fs ++ fs') = watchedIn fs ++ watchedIn fs' := List.flatMap_append

theorem mem_bodyNames {d : CallableDecl} {b : Option Block} {w : Watch} (h : w ∈ bodyNames d b) :
    ∃ x ∈ b, ∃ i name, .expr (.name i name) ∈ x.body.nodes ∧ w = .name d i := by
  cases b with
  | none => cases h
  | some x =>
    obtain ⟨y, hy, h⟩ := List.mem_filterMap.mp h
    split at h
    · cases h
      exact ⟨x, rfl, _, _, hy, rfl⟩
    · cases h

theorem mem_of_routine_watched {fs : List CallableDecl} {m : CallableDecl}
    (h : .routine m ∈ watchedIn fs) : m ∈ fs := by
  obtain ⟨f, hf, h⟩ := List.mem_flatMap.mp h
  obtain h | h := List.mem_cons.mp h
  · cases h
    exact hf
  · obtain ⟨_, _, _, _, _, h⟩ := mem_bodyNames h
    cases h

theorem name_watched {fs : List CallableDecl} {r : CallableDecl} {b : Block} {i : NodeInfo}
    {name : Text} (hr : r ∈ fs) (hb : r.body = some b)
    (hi : .expr (.name i name) ∈ b.body.nodes) : .name r i ∈ watchedIn fs := by
  refine List.mem_flatMap.mpr ⟨r, hr, List.mem_cons_of_mem _ ?_⟩
  rw [hb]
  exact List.mem_filterMap.mpr ⟨_, hi, rfl⟩

/-! Steps on a stack of known frames. -/

section Stands

variable {last : Nat} {fs : List CallableDecl} {homes : List (Option CallableDecl)}
  {o : Option CallableDecl} {d : CallableDecl} {b c : Binding}

instance : Steady (Stands last fs homes) where
  steady h hscopes htouch := h.touched htouch hscopes

/-- Which routines are being bound does not matter. -/
theorem Stands.rerouted (h : Stands last fs homes b) (ρ : List Nat) :
    Stands last fs homes { b with routines := ρ } :=
  ⟨h.inner, h.next, h.source, h.implicit, h.routines,
    h.frames.imp fun _ _ hf => ⟨hf.owner, hf.suits⟩⟩

theorem Stands.depth (h : Stands last fs homes b) : b.scopes.depth = homes.length := by
  rw [h.frames.length_eq]
  simp [Scopes.depth, Scopes.frames]

/-- What a source declares in the innermost frame suits it. -/
theorem Stands.takes {r : Nat} {ns : List Node} (h : Stands last fs (o :: homes) b)
    (htouch : Touches b.notes.next r ns b c) (hfirm : b.scopes.FirmTo c.scopes)
    (htakes : TakesIn (Suits fs [] (·.info.id ≤ last) o) b c) : Stands last fs (o :: homes) c :=
  h.grown htouch hfirm (Scopes.OnTop.mono htakes fun _ _ hfg => hfg.mono fun _ hd =>
    (h.suits hd).touched htouch)

/-- In the frame of a routine. -/
theorem Inside.stands (hc : Inside b.notes.next b d c) (h : Stands last fs (o :: homes) b)
    (hd : d ∈ fs) : Stands last fs (some d :: o :: homes) c := by
  obtain ⟨⟨u, hu, hscopes⟩, htouch⟩ := hc
  have hgrown : Stands last fs (o :: homes) { c with scopes := u } :=
    h.takes (htouch.with_scopes b.scopes u) (hu.mono fun _ _ h => h.1) (hu.mono fun _ _ h =>
      h.2.mono (by rintro _ ⟨_, rfl⟩; trivial))
  have hentered := hgrown.enter d.name (some (.callable d)) (o := some d) rfl
    fun r hr => Option.some.inj hr ▸ hd
  rw [← hscopes] at hentered
  exact hentered

/-- Among the members of a type. -/
theorem Stands.amongMembers (h : Stands last fs homes b) {s : Scopes}
    {context : Scopes.MethodContext}
    (hs : (b.scopes.enterMethod d.owner d.name).run = some (.ok (s, context))) (hd : d ∈ fs)
    (hheading : ∃ heading, s.top.owner = some (.callable heading)) :
    ∃ n, Stands last fs (some d :: (List.replicate n none ++ homes)) { b with scopes := s } := by
  obtain ⟨m, -, hs⟩ := Scopes.Search.bind_eq_ok.1 hs
  obtain ⟨⟨u, k⟩, hu, hs⟩ := Scopes.Search.bind_eq_ok.1 hs
  cases hs
  obtain ⟨n, hloaded⟩ := h.loaded (Option.some.inj hu)
  obtain ⟨heading, hheading⟩ := hheading
  refine ⟨n, hloaded.enter d.name _ (o := some d) ?_ fun r hr => Option.some.inj hr ▸ hd⟩
  rw [Frame.isRoutine]
  have howner : some m.decl = some (.callable heading) := hheading
  rw [howner]
  rfl

end Stands

section Routines

variable {last : Nat} {fs fs' : List CallableDecl} {homes : List (Option CallableDecl)}

/-- What routines declare suits their frames. -/
structure Fitting (last : Nat) (fs : List CallableDecl) : Prop where
  params : ∀ f ∈ fs, ∀ p ∈ f.paramList, Suits fs [] (·.info.id ≤ last) (some f) (.param p)
  decls : ∀ f ∈ fs, ∀ b, f.body = some b → ∀ d ∈ b.decls,
    (∃ p, d = .param p) ∨ Suits fs [] (·.info.id ≤ last) (some f) d

/-- Some routines stand in those that frames belong to. -/
def Enclosed (fs : List CallableDecl) (homes : List (Option CallableDecl)) : Prop :=
  ∀ q, some q ∈ homes → fs ⊆ blockRoutines q.body

theorem Enclosed.subset (h : Enclosed fs homes) (hsub : fs' ⊆ fs) : Enclosed fs' homes :=
  fun q hq => List.Subset.trans hsub (h q hq)

theorem enclosed_none (fs : List CallableDecl) : Enclosed fs [none, none] := fun q hq => by
  simp at hq

end Routines

namespace Tells

section Steps

variable {last : Nat} {fs : List CallableDecl} {homes : List (Option CallableDecl)}
  {o : Option CallableDecl} {d : CallableDecl} {C : Binding → Prop} {m : Bind Unit}
  {ns ns' : List Node} {ws : List Watch}

/-- What is found out by a step that declares in the innermost frame only what suits it. -/
theorem of_known {α : Type} {m : Bind α} (hm : ∀ n, Marks Scopes.FirmTo n m ns)
    (htaking : Taking (Suits fs [] (·.info.id ≤ last) o) m) (held : ∀ w ∈ ws, Held w.info.id ns)
    (h : ∀ b, Stands last fs (o :: homes) b → Ready last ns b.notes → Blank b ns ws →
      Ends m b (fun _ c => Known fs c ws) fun _ _ => True) :
    Tells last fs (Stands last fs (o :: homes)) m ws ns where
  held := held
  ends b hstands hready hblank := by
    have hmarked := hm _ b (.refl hstands.inner) (Nat.le_refl _) hready.room
    have htaken := htaking b (Scopes.onTop_self hstands.inner (.refl _))
    refine ((hmarked.and htaken).and (h b hstands hready hblank)).mono (fun _ c hc => ?_)
      fun _ _ _ => trivial
    obtain ⟨⟨⟨hfirm, htouch⟩, htakes⟩, hknown⟩ := hc
    exact ⟨hstands.takes htouch hfirm htakes, htouch, hknown⟩

/-- A step in which nothing is watched. -/
theorem quiet {α : Type} {m : Bind α} (hm : ∀ n, Marks Scopes.FirmTo n m ns)
    (htaking : Taking (Suits fs [] (·.info.id ≤ last) o) m) :
    Tells last fs (Stands last fs (o :: homes)) m [] ns :=
  of_known hm htaking (List.forall_mem_nil _) fun b _ _ _ => (Ends.of_true m b).mono
    (fun _ _ _ => .of_nil rfl) fun _ _ h => h

/-- A routine is watched where it stands. -/
theorem watching {x : Node} (h : Tells last fs C m ws (x :: ns)) (hx : x = .decl (.callable d)) :
    Tells last fs C m (.routine d :: ws) (x :: ns) where
  held w hw := by
    obtain rfl | hw := List.mem_cons.mp hw
    · exact ⟨x, List.mem_cons_self, hx ▸ rfl⟩
    · exact h.held w hw
  ends b hC hready hblank := by
    refine (h.ends b hC hready fun w hw => hblank w (List.mem_cons_of_mem _ hw)).mono
      (fun _ c hc => ⟨hc.1, hc.2.1, hc.2.2.imp ?_ ?_⟩) fun _ _ h => h
    · exact fun ⟨m, hm, hunbound⟩ => ⟨m, List.mem_cons_of_mem _ hm, hunbound⟩
    · exact fun htold r i hi => htold r i ((List.mem_cons.mp hi).resolve_left nofun)

/-- A step that declares a new variable of the routine whose frame is on top, or none. -/
theorem of_makes {x : Node} (hm : ∀ n, Marks Scopes.FirmTo n m [x])
    (h : ∀ b, b.scopes.inner ≠ [] → b.notes.next + 2 < Annotations.numberCount →
      Ends m b (fun _ c => Makes (fun v => [(v, d)]) b c ∨ c = b) fun _ _ => True) :
    Tells last fs (Stands last fs (some d :: homes)) m [] [x] where
  held := List.forall_mem_nil _
  ends b hstands hready _ := by
    have hroom := hready.room
    rw [List.length_singleton] at hroom
    have hmarked := hm _ b (.refl hstands.inner) (Nat.le_refl _) hroom
    refine (hmarked.and (h b hstands.inner (by omega))).mono
      (fun _ c hc => ⟨?_, hc.1.2, .of_nil rfl⟩) fun _ _ _ => trivial
    obtain ⟨⟨hfirm, htouch⟩, hmakes | rfl⟩ := hc
    · exact hstands.makes htouch hfirm hmakes fun v f => by simp [eq_comm]
    · exact hstands

/-- A variable that no source declares is declared in the frame on top. -/
theorem declareImplicit_takes {b : Binding} (hs : b.scopes.inner ≠ []) (d : CallableDecl)
    (v : VarDecl) : Ends (declareImplicit d v) b (fun _ c => TakesIn (· = .var v) b c ∧
      c.notes = b.notes ∧ c.implicit = b.implicit ++ [(v, d)]) fun _ _ => True := by
  unfold declareImplicit
  rw [Ends.bind_iff]
  refine (register_takes hs _ _ v).mono (fun _ c hc => ?_) fun _ _ h => h
  exact ⟨hc.1, hc.2.1, congrArg (· ++ [(v, d)]) hc.2.2⟩

theorem declareResult {x : Node} :
    Tells last fs (Stands last fs (some d :: homes)) (declareResult d) [] [x] := by
  refine of_makes (fun n => (Marks.declareResult d).mono (by simp) (List.nil_subset _))
    fun b hs hroom => ?_
  unfold Binding.declareResult
  split
  · rw [Ends.bind_iff]
    let made : Binding := { b with notes := (b.notes.newInfo d.info.line).2 }
    have hnext : made.notes.next = b.notes.next + 1 := Nat.mod_eq_of_lt (by omega)
    change Ends _ made _ _
    refine (declareImplicit_takes (b := made) hs _ _).mono (fun _ c hc => .inl ?_) fun _ _ h => h
    obtain ⟨htakes, hnotes, himplicit⟩ := hc
    refine ⟨_, Nat.le_refl b.notes.next, ?_, htakes, himplicit⟩
    rw [hnotes, hnext]
    exact Nat.lt_succ_self b.notes.next
  · exact .inr rfl

theorem declareSelf_makes {b : Binding} (hs : b.scopes.inner ≠ [])
    (hroom : b.notes.next + 2 < Annotations.numberCount) (d : CallableDecl) :
    Ends (declareSelf d) b (fun _ c => Makes (fun v => [(v, d)]) b c) fun _ _ => True := by
  unfold declareSelf
  rw [Ends.bind_iff]
  let made : Binding := { b with notes := (b.notes.newInfo d.info.line).2 }
  have hnext : made.notes.next = b.notes.next + 1 := Nat.mod_eq_of_lt (by omega)
  change Ends _ made _ _
  rw [Ends.bind_iff]
  let later : Binding := { made with notes := (made.notes.newInfo d.info.line).2 }
  have hlater : later.notes.next = made.notes.next + 1 := Nat.mod_eq_of_lt (by omega)
  change Ends _ later _ _
  refine (declareImplicit_takes (b := later) hs _ _).mono (fun _ c hc => ?_) fun _ _ h => h
  obtain ⟨htakes, hnotes, himplicit⟩ := hc
  refine ⟨_, Nat.le_refl b.notes.next, ?_, htakes, himplicit⟩
  rw [hnotes, hlater, hnext]
  exact Nat.lt_succ_of_lt (Nat.lt_succ_self b.notes.next)

theorem selfDeclared : Tells last fs (Stands last fs (some d :: homes)) (declareSelf d) []
    [.decl (.callable d)] :=
  of_makes (fun _ => Marks.selfDeclared d) fun _ hs hroom =>
    (declareSelf_makes hs hroom d).mono (fun _ _ h => .inl h) fun _ _ h => h

theorem headingBound (owner : Option Decl) : Tells last fs (Stands last fs (some d :: homes))
    (do bindHeading d owner; declareSelf d) [] [.decl (.callable d)] := by
  refine of_makes (fun _ => Marks.headingBound d owner) fun b hs hroom => ?_
  have hheading : Ends (bindHeading d owner) b (fun _ c => ∃ notes : Annotations,
      notes.next = b.notes.next ∧ c = { b with notes }) fun _ _ => True := by
    unfold bindHeading
    split
    · refine (update_ends b _ _).mono (fun _ c hc => ?_) fun _ _ _ => trivial
      obtain ⟨notes, hnotes, hc⟩ := hc
      exact ⟨notes, Annotations.next_of_update hnotes, hc⟩
    · exact ⟨b.notes, rfl, rfl⟩
  rw [Ends.bind_iff]
  refine hheading.mono (fun _ c hc => ?_) fun _ _ h => h
  obtain ⟨notes, hnext, rfl⟩ := hc
  refine (declareSelf_makes (b := { b with notes }) hs (by simpa only [hnext]) d).mono
    (fun _ e he => .inl ?_) fun _ _ h => h
  obtain ⟨v, hnew, hrest⟩ := he
  exact ⟨v, hnext ▸ hnew, hrest⟩

end Steps

/-! Bodies of routines. -/

section Bodies

variable {last : Nat} {fs : List CallableDecl} {homes : List (Option CallableDecl)}
  {o : Option CallableDecl} {d : CallableDecl} {ns : List Node} {ws : List Watch}

/-- The body of a routine is being bound in its frame. -/
def OnBody (last : Nat) (fs : List CallableDecl) (d : CallableDecl)
    (homes : List (Option CallableDecl)) (b : Binding) : Prop :=
  Stands last fs (some d :: homes) b ∧ ∃ ρ, b.routines = homes.length :: ρ

instance : Steady (OnBody last fs d homes) where
  steady := fun ⟨hstands, ρ, hroutines⟩ hscopes htouch =>
    ⟨hstands.touched htouch hscopes, ρ, htouch.routines.trans hroutines⟩

theorem onBody {α : Type} {m : Bind α}
    (h : Tells last fs (Stands last fs (some d :: homes)) m ws ns) :
    Tells last fs (OnBody last fs d homes) m ws ns where
  held := h.held
  ends b hbody hready hblank := by
    obtain ⟨hstands, ρ, hroutines⟩ := hbody
    exact (h.ends b hstands hready hblank).mono
      (fun _ c hc => ⟨⟨hc.1, ρ, hc.2.1.routines.trans hroutines⟩, hc.2⟩) fun _ _ h => h

/-- The statements of a body. -/
theorem statements (haround : ∀ q, some q ∈ homes → d ∈ blockRoutines q.body) (s : Stmt) :
    Tells last fs (OnBody last fs d homes) (visitStmt s) (namesIn d s.nodes) s.nodes where
  held := held_namesIn d s.nodes
  ends b hbody hready hblank := by
    obtain ⟨hstands, ρ, hroutines⟩ := hbody
    have hwithin : Within last fs d b := ⟨0, homes, ρ, hstands, haround, hroutines⟩
    have hreads := (Reads.visitStmt s).ends b hwithin hready hblank
    refine (hreads.and (Still.visitStmt s b rfl)).mono (fun _ c hc => ⟨?_, hc.1.2⟩)
      fun _ _ _ => trivial
    exact Steady.steady (C := OnBody last fs d homes) ⟨hstands, ρ, hroutines⟩ hc.2 hc.1.2.1

/-- The place of a routine is known while its body is bound. -/
theorem inBody {x : Node} {body : Bind Unit}
    (h : Tells last fs (OnBody last fs d homes) body ws ns) :
    Tells last fs (Stands last fs (some d :: homes)) (inBody d body) ws (x :: ns) := by
  have hrest : Tells last fs (Stands last fs (some d :: homes)) (do
      let place := (← getScopes).depth - 1
      modify fun b => { b with routines := place :: b.routines }
      body
      modify fun b => { b with routines := b.routines.drop 1 }) ws ns := by
    refine ⟨h.held, fun b hstands hready hblank => ?_⟩
    have hplace : b.scopes.depth - 1 = homes.length := by
      rw [hstands.depth]
      rfl
    rw [Ends.bind_iff, getScopes_iff, Ends.bind_iff, Ends.modify_iff, Ends.bind_iff, hplace]
    refine (h.ends { b with routines := homes.length :: b.routines }
      ⟨hstands.rerouted _, _, rfl⟩ hready (hblank.of_eq rfl)).mono (fun _ c hc => ?_)
      fun _ _ h => h
    obtain ⟨⟨hstands, -⟩, htouch, hknown⟩ := hc
    refine ⟨hstands.rerouted _, ?_, hknown.of_eq rfl rfl⟩
    have hback := htouch.with_routines
    rw [← show c.routines.drop 1 = b.routines by rw [htouch.routines]; rfl] at hback
    exact hback
  exact bind (declareResult (x := x)) fun _ => hrest

/-- What is known in the frame of a routine is known outside. -/
theorem known_inside {m : Bind Unit} {b c : Binding} (hm : ∀ n, Marks Scopes.FirmTo n m ns)
    (h : Tells last fs (Stands last fs (some d :: o :: homes)) m ws ns)
    (hstands : Stands last fs (o :: homes) b) (hd : d ∈ fs) (hready : Ready last ns b.notes)
    (hblank : Blank b ns ws) (hc : Inside b.notes.next b d c) :
    Ends m c (fun _ e => c.scopes.FirmTo e.scopes ∧ Known fs e ws) fun _ _ => True := by
  have hinside := hc.stands hstands hd
  have htouch := hc.2
  have hall : Ready last ([] ++ ns) b.notes := hready
  have hready' : Ready last ns c.notes := hall.later htouch (Nat.zero_le _)
  have hblank' : Blank c ns ws := hblank.made htouch fun w hw =>
    Nat.lt_of_le_of_lt (h.watched_le hready w hw) hready.next
  have hmarked := hm _ c (.refl hinside.inner) (Nat.le_refl _) hready'.room
  exact (hmarked.and (h.ends c hinside hready' hblank')).mono
    (fun _ _ hc => ⟨hc.1.1, hc.2.2.2⟩) fun _ _ _ => trivial

/-- A method that finds no heading is bound to none. -/
theorem unbound_ends {inside : Bind Unit} {b : Binding} {s : Scopes}
    (hm : ∀ n, Marks Scopes.FirmTo n inside ns) (hs : s.inner ≠ [])
    (howner : d.owner.isEmpty = false) (hbody : d.body.isSome = true)
    (hheading : ¬∃ heading, s.top.owner = some (.callable heading))
    (hready : Ready last (.decl (.callable d) :: ns) b.notes)
    (hd : Once d.info.id (.decl (.callable d) :: ns)) (hnone : b.notes.declOf d.info = none) :
    Ends (do bindHeading d s.top.owner; Binding.declareSelf d; inside) { b with scopes := s }
      (fun _ e => s.FirmTo e.scopes ∧ Unbound e d) fun _ _ => True := by
  have hpure : bindHeading d s.top.owner = pure () := by
    unfold bindHeading
    split
    · rename_i heading howner
      exact absurd ⟨heading, howner⟩ hheading
    · rfl
  rw [hpure, pure_bind]
  have hroom : b.notes.next + (2 + 3 * ns.length) < Annotations.numberCount := by
    have hroom := hready.room
    rw [List.length_cons] at hroom
    omega
  have hmarked := MarksWithin.bind (Marks.declareSelf d) (fun _ => hm b.notes.next)
    { b with scopes := s } (.refl hs) (Nat.le_refl _) hroom
  refine hmarked.mono (fun _ e he => ⟨he.1, howner, hbody, fun h hh => ?_⟩) fun _ _ h => h
  have hself : d.info.id ≤ last := hready.numbers (.decl (.callable d)) List.mem_cons_self
  have hlast := hready.next
  have honce : Once d.info.id ([.decl (.callable d)] ++ ns) := hd
  have hsame := he.2.same d.info (Nat.lt_of_le_of_lt hself hlast) fun x hx hid =>
    honce.not_held ⟨_, List.mem_cons_self, rfl⟩ ⟨x, hx, hid⟩
  rw [hsame.declOf, hnone] at hh
  cases hh

/-- What is known in a frame that belongs to no routine is known outside, also if something else
was bound in this frame. -/
theorem framed {m k : Bind Unit} {ns' : List Node} (name : Text) (owner : Option Decl)
    (howner : Frame.isRoutine { name, owner } = false)
    (h : Tells last fs (Stands last fs (none :: o :: homes)) m ws ns)
    (hm : ∀ n, Marks Scopes.FirmTo n m ns) (hk : ∀ n, Marks Scopes.FirmTo n k ns')
    (hlawful : Lawful (do m; k)) :
    Tells last fs (Stands last fs (o :: homes)) (do enter name owner; m; k; leave) ws
      (ns ++ ns') := by
  have hmarks (n : Nat) := Marks.framed name owner ((hm n).bind fun _ => hk n)
  have hstill := Still.framed name owner hlawful
  simp only [bind_assoc] at hmarks hstill
  refine of_known hmarks (.of_still hstill) (fun w hw => ?_) fun b hstands hready hblank => ?_
  · obtain ⟨x, hx, hid⟩ := h.held w hw
    exact ⟨x, List.mem_append_left _ hx, hid⟩
  have hentered := hstands.enter name owner (o := none) howner nofun
  have hfirst := hready.subperm (List.sublist_append_left ns ns').subperm
  have hknown : Ends (do m; k) { b with scopes := b.scopes.enter name owner }
      (fun _ e => (b.scopes.enter name owner).FirmTo e.scopes ∧ Known fs e ws)
      fun _ _ => True := by
    rw [Ends.bind_iff]
    have hmarked := hm _ _ (.refl hentered.inner) (Nat.le_refl _) hfirst.room
    have htold := h.ends _ hentered hfirst
      ((hblank.subperm (List.sublist_append_left ns ns').subperm).of_eq rfl)
    refine (hmarked.and htold).mono (fun _ c hc => ?_) fun _ _ _ => trivial
    obtain ⟨⟨hfirm, -⟩, -, htouch, hknown⟩ := hc
    have hlater : Ready last ns' c.notes := Ready.later
      (b := { b with scopes := b.scopes.enter name owner }) hready htouch (Nat.le_refl _)
    refine (hk _ c hfirm.reached (Nat.le_refl _) hlater.room).mono (fun _ e he => ?_)
      fun _ _ h => h
    refine ⟨hfirm.trans he.1, hknown.same he.2 fun w hw => ?_⟩
    have hle := h.watched_le hfirst w hw
    exact he.2.same _ (Nat.lt_of_le_of_lt hle hlater.next) fun x hx hid =>
      (hblank w hw).1.not_held (h.held w hw) ⟨x, hx, hid⟩
  have hends := framed_ends (fun c => Known fs c ws) name owner hknown
  simp only [bind_assoc] at hends
  exact hends.mono (fun _ _ hc => hc.2.elim fun _ h => h.of_eq rfl rfl) fun _ _ h => h

/-- What is known of a routine inside its frame is known outside, wherever the routine is bound. -/
theorem callable (hd : d ∈ fs) (hm : ∀ n, Marks Scopes.FirmTo n (insideOf d) ns)
    (h : ∀ n, Tells last fs (Stands last fs (some d :: (List.replicate n none ++ o :: homes)))
      (insideOf d) ws ns) :
    Tells last fs (Stands last fs (o :: homes)) (visitCallable d) (.routine d :: ws)
      (.decl (.callable d) :: ns) := by
  have hown : Tells last fs (Stands last fs (some d :: o :: homes)) (insideOf d) ws ns := h 0
  have hplain (d : Decl) (hd : d.isPlain = true) : Suits fs [] (·.info.id ≤ last) o d :=
    suits_of_isPlain hd
  refine of_known (fun n => ?_) (Taking.visitCallable hplain d) (watching hown.node rfl).held
    fun b hstands hready hblank => ?_
  · rw [visitCallable_eq]
    exact Marks.ite (Marks.inMethod d (hm n)) (Marks.node (Marks.inRoutine d (hm n)))
  rw [visitCallable_eq]
  split
  · rename_i hmethod
    obtain ⟨howner, hbody⟩ := Bool.and_eq_true_iff.mp hmethod
    have howner : d.owner.isEmpty = false := by simpa using howner
    obtain ⟨honce, huntold⟩ := hblank _ List.mem_cons_self
    have hunbound {c : Binding} (hc : Unbound c d) : Known fs c (.routine d :: ws) :=
      .inl ⟨d, List.mem_cons_self, hc⟩
    refine (inMethod_ends (fun c => Known fs c (.routine d :: ws)) b.notes.next hstands.inner ?_ ?_
      ?_).mono (fun _ _ hc => hc.2.elim fun _ h => h.of_eq rfl rfl) fun _ _ h => h
    · exact fun _ _ _ => hunbound ⟨howner, hbody, fun h hh => by cases huntold.declOf.symm.trans hh⟩
    · exact fun c hc => known_inside (fun n => (Marks.selfDeclared d).bind fun _ => hm n)
        (watching (bind selfDeclared fun _ => hown) rfl) hstands hd hready hblank hc
    · intro s context hs
      have hinner : s.inner ≠ [] := fun hnil => by
        have hlength := (Scopes.enterMethod_top hs).1
        simp [hnil] at hlength
      by_cases hheading : ∃ heading, s.top.owner = some (.callable heading)
      · obtain ⟨n, hamong⟩ := hstands.amongMembers hs hd hheading
        have htells := watching (bind (headingBound s.top.owner) fun _ => h n) rfl
        have hmarks := (Marks.headingBound d s.top.owner).bind fun _ => hm b.notes.next
        rw [bind_assoc] at htells hmarks
        have hmarked := hmarks { b with scopes := s } (.refl hinner) (Nat.le_refl _) hready.room
        exact (hmarked.and (htells.ends _ hamong hready (hblank.of_eq rfl))).mono
          (fun _ _ hc => ⟨hc.1.1, hc.2.2.2⟩) fun _ _ _ => trivial
      · exact (unbound_ends hm hinner howner hbody hheading hready honce huntold.declOf).mono
          (fun _ _ hc => hc.imp_right hunbound) fun _ _ h => h
  · exact (inRoutine_ends (fun c => Known fs c (.routine d :: ws)) b.notes.next hstands.inner
      fun c hc => known_inside (fun n => (hm n).node) (watching hown.node rfl) hstands hd hready
        hblank hc).mono (fun _ _ hc => hc.2.elim fun _ h => h.of_eq rfl rfl) fun _ _ h => h

end Bodies

/-! Declarations. -/

section Declarations

variable {last : Nat} {fs : List CallableDecl}

mutual

theorem visitCallable (hfit : Fitting last fs) : (d : CallableDecl) → (o : Option CallableDecl) →
    (homes : List (Option CallableDecl)) → d.routines ⊆ fs →
    Enclosed d.routines (o :: homes) →
    Tells last fs (Stands last fs (o :: homes)) (visitCallable d)
      (watchedIn d.routines) (d.nodes.flatMap visits)
  | ⟨i, name, owner, kind, classMethod, params, result, directives, body, forward, external,
      visibility, builtin⟩, o, homes, hfs, henclosed => by
    let d : CallableDecl := ⟨i, name, owner, kind, classMethod, params, result, directives, body,
      forward, external, visibility, builtin⟩
    have hd : d ∈ fs := hfs d.mem_routines
    have hplain (d' : Decl) (hd' : d'.isPlain = true) :
        Suits fs [] (·.info.id ≤ last) (some d) d' := suits_of_isPlain hd'
    have hmarks (n : Nat) : Marks Scopes.FirmTo n (insideOf d) ((boundOf d).flatMap visits) := by
      rw [boundOf, List.flatMap_append, List.flatMap_append]
      exact Marks.bind (Marks.walked (Marks.visitOptParams params)) fun _ =>
        Marks.bind (Marks.walked (Marks.visitOptType result)) fun _ => Marks.visitBody d body
    have hinside (n : Nat) : Tells last fs
        (Stands last fs (some d :: (List.replicate n none ++ o :: homes))) (insideOf d)
        (bodyNames d body ++ watchedIn (blockRoutines body)) ((boundOf d).flatMap visits) := by
      rw [boundOf, List.flatMap_append, List.flatMap_append]
      refine after (quiet (fun _ => Marks.walked (Marks.visitOptParams params))
        (Taking.visitOptParams hplain fun p hp => hfit.params d hd p hp)) fun _ =>
        after (quiet (fun _ => Marks.walked (Marks.visitOptType result))
          (Taking.of_enumerating hplain (.visitOptType result))) fun _ =>
        visitBody hfit d body rfl _ hd (List.subset_of_cons_subset hfs) fun q hq => ?_
      refine henclosed q ((List.mem_append.mp hq).resolve_left fun hq => ?_)
      cases (List.mem_replicate.mp hq).2
    have hall := callable hd hmarks hinside
    have hsub := (sublist_callable d).flatMap visits
    rw [List.flatMap_cons] at hsub
    exact hall.subperm hsub.subperm

theorem visitBody (hfit : Fitting last fs) (d : CallableDecl) : (body : Option Block) →
    d.body = body → (homes : List (Option CallableDecl)) → d ∈ fs → blockRoutines body ⊆ fs →
    Enclosed d.routines homes →
    Tells last fs (Stands last fs (some d :: homes)) (visitBody d body)
      (bodyNames d body ++ watchedIn (blockRoutines body)) ((optBlockNodes body).flatMap visits)
  | none, _, _, _, _, _ => quiet (fun _ => Marks.pure _) (.pure _)
  | some ⟨i, decls, body⟩, hbody, homes, hd, hfs, henclosed => by
    have hroutines : d.routines = d :: declsRoutines decls := by
      cases d
      cases hbody
      rfl
    rw [hroutines] at henclosed
    have hdecls := visitDecls hfit false decls (some d) homes (hfit.decls d hd _ hbody) hfs
      fun q hq => ?_
    · have hall := inBody (x := .block ⟨i, decls, body⟩) (bind (onBody hdecls) fun _ =>
        (statements (fun q hq => henclosed q hq List.mem_cons_self) body).subperm
          (sublist_visits body.nodes).subperm)
      exact (hall.perm List.perm_append_comm).of_eq (by simp [optBlockNodes, visits])
    · obtain hq | hq := List.mem_cons.mp hq
      · cases Option.some.inj hq
        rw [hbody]
        exact List.Subset.refl _
      · exact List.subset_of_cons_subset (henclosed q hq)

theorem visitMembers (hfit : Fitting last fs) : (members : List Member) →
    (homes : List (Option CallableDecl)) →
    (∀ v, .var v ∈ members → Suits fs [] (·.info.id ≤ last) none (.var v)) →
    membersRoutines members ⊆ fs → Enclosed (membersRoutines members) (none :: homes) →
    Tells last fs (Stands last fs (none :: homes)) (visitMembers members)
      (watchedIn (membersRoutines members)) ((membersNodes members).flatMap visits)
  | [], _, _, _, _ => quiet (fun _ => Marks.pure _) (.pure _)
  | .var d :: members, homes, hsuits, hfs, henclosed => by
    obtain ⟨hd, hmembers⟩ : Suits fs [] (·.info.id ≤ last) none (.var d) ∧ _ :=
      ⟨hsuits d List.mem_cons_self, fun v hv => hsuits v (List.mem_cons_of_mem _ hv)⟩
    have hall := after (quiet (fun _ => Marks.walked (Marks.visitField d))
      (Taking.visitField (fun _ => suits_of_isPlain) hd)) fun _ =>
        visitMembers hfit members homes hmembers hfs henclosed
    exact hall.of_eq (by simp [membersNodes])
  | .callable d :: members, homes, hsuits, hfs, henclosed => by
    have hall := bind (visitCallable hfit d none homes
        (fun _ hf => hfs (List.mem_append_left _ hf))
        (henclosed.subset (List.subset_append_left _ _))) fun _ =>
      visitMembers hfit members homes (fun v hv => hsuits v (List.mem_cons_of_mem _ hv))
        (fun _ hf => hfs (List.mem_append_right _ hf))
        (henclosed.subset (List.subset_append_right _ _))
    rw [← watchedIn_append] at hall
    exact hall.of_eq (by simp [membersNodes])
  | .property d :: members, homes, hsuits, hfs, henclosed => by
    have hall := after (quiet (fun _ => Marks.walked (Marks.visitProperty d))
      (Taking.visitProperty (fun _ => suits_of_isPlain) d)) fun _ =>
        visitMembers hfit members homes (fun v hv => hsuits v (List.mem_cons_of_mem _ hv)) hfs
          henclosed
    exact hall.of_eq (by simp [membersNodes])

theorem visitDecls (hfit : Fitting last fs) (declared : Bool) : (ds : List Decl) →
    (o : Option CallableDecl) → (homes : List (Option CallableDecl)) →
    (∀ d ∈ ds, (∃ p, d = .param p) ∨ Suits fs [] (·.info.id ≤ last) o d) →
    declsRoutines ds ⊆ fs → Enclosed (declsRoutines ds) (o :: homes) →
    Tells last fs (Stands last fs (o :: homes)) (visitDecls declared ds)
      (watchedIn (declsRoutines ds)) ((declsNodes ds).flatMap visits)
  | [], _, _, _, _, _ => quiet (fun _ => Marks.pure _) (.pure _)
  | .type ⟨i, name, t⟩ :: ds, o, homes, hsuits, hfs, henclosed => by
    have hall := after (quiet (fun _ => Marks.declareTypes declared
        (.type ⟨i, name, t⟩ :: ds.takeWhile isTypeDecl))
        (Taking.declareTypes declared (Taking.types_front hsuits rfl))) fun _ =>
      after (quiet (fun _ => Marks.walked (Marks.visitType t name))
        (Taking.of_enumerating (fun _ => suits_of_isPlain) (.visitType t name))) fun _ =>
      visitDecls hfit true ds o homes (List.forall_mem_cons.mp hsuits).2 hfs henclosed
    exact (hall.node (x := .decl (.type ⟨i, name, t⟩))).of_eq (by simp [declsNodes, visits])
  | .composite ⟨i, name, kind, heritage, members, type⟩ :: ds, o, homes, hsuits, hfs,
      henclosed => by
    let d : CompositeDecl := ⟨i, name, kind, heritage, members, type⟩
    have hd : ∀ v, .var v ∈ members → Suits fs [] (·.info.id ≤ last) none (.var v) :=
      (hsuits _ List.mem_cons_self).resolve_left nofun
    have hmembers := visitMembers hfit members (o :: homes) hd
      (fun _ hf => hfs (List.mem_append_left _ hf)) fun q hq => by
        obtain hq | hq := List.mem_cons.mp hq
        · cases hq
        · exact henclosed.subset (List.subset_append_left _ _) q hq
    have hframed := framed name (some (.composite d)) rfl hmembers
      (fun _ => Marks.visitMembers members) (fun _ => Marks.visitRest d)
      (.bind (Lawful.visitMembers members) fun _ => Lawful.visitRest type)
    have hall := after (quiet (fun _ => Marks.declareTypes declared
        (.composite d :: ds.takeWhile isTypeDecl))
        (Taking.declareTypes declared (Taking.types_front hsuits rfl))) fun _ =>
      bind hframed fun _ => after (silent (.checkComposite d)) fun _ =>
        visitDecls hfit true ds o homes (List.forall_mem_cons.mp hsuits).2
          (fun _ hf => hfs (List.mem_append_right _ hf))
          (henclosed.subset (List.subset_append_right _ _))
    rw [← watchedIn_append] at hall
    simp only [bind_assoc] at hall
    -- the rest of the type is bound after the members
    have hperm : ((membersNodes members).flatMap visits ++ d.rest.flatMap Node.nodes ++
        (declsNodes ds).flatMap visits).Perm (d.rest.flatMap Node.nodes ++
          ((membersNodes members).flatMap visits ++ (declsNodes ds).flatMap visits)) := by
      rw [← List.append_assoc]
      exact List.perm_append_comm.append_right _
    exact ((hall.subperm hperm.subperm).node (x := .decl (.composite d))).of_eq
      (by simp [declsNodes, visits, d])
  | .var ⟨i, name, type, init, absolute, kind, visibility⟩ :: ds, o, homes, hsuits, hfs,
      henclosed => by
    let d : VarDecl := ⟨i, name, type, init, absolute, kind, visibility⟩
    have hall := after (quiet (fun _ => Marks.walked (Marks.visitOptType type))
        (Taking.of_enumerating (fun _ => suits_of_isPlain) (.visitOptType type))) fun _ =>
      after (quiet (fun _ => Marks.walked (Marks.visitOptExpr init).lift)
        (.of_still (.visitOptExpr init))) fun _ =>
      after (quiet (fun _ => Marks.declareVar d)
        (Taking.declareVar ((hsuits _ List.mem_cons_self).resolve_left nofun))) fun _ =>
      visitDecls hfit false ds o homes (List.forall_mem_cons.mp hsuits).2 hfs henclosed
    exact (hall.node (x := .decl (.var d))).of_eq (by simp [declsNodes, VarDecl.nodes, visits, d])
  | .const ⟨i, name, type, value, kind⟩ :: ds, o, homes, hsuits, hfs, henclosed => by
    let d : ConstDecl := ⟨i, name, type, value, kind⟩
    have hall := after (quiet (fun _ => Marks.walked (Marks.visitOptType type))
        (Taking.of_enumerating (fun _ => suits_of_isPlain) (.visitOptType type))) fun _ =>
      after (quiet (fun _ => Marks.walked (Marks.visitOptExpr value).lift)
        (.of_still (.visitOptExpr value))) fun _ =>
      after (quiet (fun _ => Marks.declareConst d)
        (Taking.declareConst (fun _ => suits_of_isPlain) d)) fun _ =>
      visitDecls hfit false ds o homes (List.forall_mem_cons.mp hsuits).2 hfs henclosed
    exact (hall.node (x := .decl (.const d))).of_eq (by simp [declsNodes, visits, d])
  | .callable d :: ds, o, homes, hsuits, hfs, henclosed => by
    have hall := bind (visitCallable hfit d o homes (fun _ hf => hfs (List.mem_append_left _ hf))
        (henclosed.subset (List.subset_append_left _ _))) fun _ =>
      visitDecls hfit false ds o homes (List.forall_mem_cons.mp hsuits).2
        (fun _ hf => hfs (List.mem_append_right _ hf))
        (henclosed.subset (List.subset_append_right _ _))
    rw [← watchedIn_append] at hall
    exact hall.of_eq (by simp [declsNodes])
  | .label d :: ds, o, homes, hsuits, hfs, henclosed => by
    have hall := after (quiet
        (fun _ => Marks.discard (Marks.register d.info.line d.name (.label d)))
        (Taking.register d.info.line d.name (suits_of_isPlain rfl)).discard) fun _ =>
      visitDecls hfit false ds o homes (List.forall_mem_cons.mp hsuits).2 hfs henclosed
    exact (hall.node (x := .decl (.label d))).of_eq (by simp [declsNodes, visits])
  | .exported d :: ds, o, homes, hsuits, hfs, henclosed => by
    have hexport (n : Nat) := Marks.after (R := Scopes.FirmTo) (n := n) (Silent.checkExported d)
      fun _ => Marks.bind (Marks.walked (Marks.visitOptExpr d.exportName).lift) fun _ =>
        Marks.walked (Marks.visitOptExpr d.index).lift
    have hall := after (quiet hexport (.of_still (.visitExport d))) fun _ =>
      visitDecls hfit false ds o homes (List.forall_mem_cons.mp hsuits).2 hfs henclosed
    exact (hall.node (x := .decl (.exported d))).of_eq (by simp [declsNodes, visits])
  | .param _ :: ds, o, homes, hsuits, hfs, henclosed
  | .property _ :: ds, o, homes, hsuits, hfs, henclosed
  | .unit _ :: ds, o, homes, hsuits, hfs, henclosed
  | .enumMember _ :: ds, o, homes, hsuits, hfs, henclosed =>
    throw _ fun w hw => by
      obtain ⟨x, hx, hid⟩ := (visitDecls hfit false ds o homes
        (List.forall_mem_cons.mp hsuits).2 hfs henclosed).held w hw
      refine ⟨x, ?_, hid⟩
      simp only [declsNodes, List.cons_append, List.flatMap_cons, List.flatMap_append,
        List.mem_append, hx, or_true]

end

theorem visitBlock (hfit : Fitting last fs) (b : Block)
    (hsuits : ∀ d ∈ b.decls, (∃ p, d = .param p) ∨ Suits fs [] (·.info.id ≤ last) none d)
    (hfs : blockRoutines (some b) ⊆ fs) :
    Tells last fs (Stands last fs [none, none]) (visitBlock b)
      (watchedIn (blockRoutines (some b))) (b.nodes.flatMap visits) := by
  obtain ⟨i, decls, body⟩ := b
  have hdecls := visitDecls hfit false decls none [none] hsuits hfs (enclosed_none _)
  have hall := before hdecls fun _ =>
    quiet (fun _ => Marks.walked (Marks.visitStmt body)) (.of_still (.visitStmt body))
  exact (hall.node (x := .block ⟨i, decls, body⟩)).of_eq
    (by simp [Block.nodes, optBlockNodes, visits])

end Declarations

end Tells

/-! Sources. -/

/-- The numbers in a source go up to `last` and leave room for the nodes that are made. No two nodes
have the number of a routine, of a variable or parameter, or of a name in the statements of a
routine; and no variable of a block is a field. -/
structure Separate (g : Goal) (last : Nat) : Prop where
  range : ∀ x ∈ g.nodes.flatMap visits, x.info.id ≤ last
  routines : ∀ f ∈ g.routines, Once f.info.id (g.nodes.flatMap visits)
  homes : ∀ p ∈ g.homes, Once p.1.info.id (g.nodes.flatMap visits)
  names : ∀ f ∈ g.routines, ∀ b, f.body = some b → ∀ i name, .expr (.name i name) ∈ b.body.nodes →
    Once i.id (g.nodes.flatMap visits)
  kinds : ∀ f ∈ g.routines, ∀ b, f.body = some b → ∀ v, .var v ∈ b.decls → v.kind ≠ .field
  room : last + 1 + 3 * (g.nodes.flatMap visits).length < Annotations.numberCount

namespace Separate

variable {g : Goal} {last : Nat}

theorem owned (hg : Separate g last) : ∀ f ∈ g.routines, ∀ d, f.Owns [] d →
    Once (Node.decl d).info.id (g.nodes.flatMap visits) := fun f hf d hd =>
  hg.homes (.decl d, some f) (Goal.homes_subset hf hd.mem_homes)

theorem fitting (hg : Separate g last) : Fitting last g.routines where
  params _ hf _ hp := suits_param hg.owned hf hp
  decls _ hf _ hb := suits_block hg.range hg.owned hf hb

theorem once_watched (hg : Separate g last) :
    ∀ w ∈ watchedIn g.routines, Once w.info.id (g.nodes.flatMap visits) := by
  intro w hw
  obtain ⟨f, hf, hw⟩ := List.mem_flatMap.mp hw
  obtain rfl | hw := List.mem_cons.mp hw
  · exact hg.routines f hf
  · obtain ⟨b, hb, i, name, hi, rfl⟩ := mem_bodyNames hw
    exact hg.names f hf b hb i name hi

theorem visitGoal (hg : Separate g last) :
    Tells last g.routines (Stands last g.routines [none, none]) (visitGoal g)
      (watchedIn g.routines) (g.nodes.flatMap visits) := by
  have hunits (units : List UnitRef) :
      Tells last g.routines (Stands last g.routines [none, none]) (declareUnits units) []
        ((units.map fun u => Node.decl (.unit u)).flatMap visits) :=
    .quiet (fun _ => (Marks.declareUnits units).widen (List.nil_sublist _))
      (Taking.declareUnits (fun _ => suits_of_isPlain) units)
  have hsuits (ds : List Decl) (hds : declsHomes none ds ⊆ g.homes) :=
    suits_decls hg.range hg.owned hds nofun
  cases g with
  | program g =>
    have hall := Tells.after (hunits g.uses) fun _ =>
      Tells.visitBlock hg.fitting g.block (hsuits _ (List.Subset.refl _)) (List.Subset.refl _)
    exact (hall.node (x := .goal (.program g))).of_eq (by simp [Goal.nodes, visits])
  | library g =>
    have hall := Tells.after (hunits g.uses) fun _ =>
      Tells.visitBlock hg.fitting g.block (hsuits _ (List.Subset.refl _)) (List.Subset.refl _)
    exact (hall.node (x := .goal (.library g))).of_eq (by simp [Goal.nodes, visits])
  | unit g =>
    have hstmts (ss : List Stmt) : Tells last (Goal.unit g).routines
        (Stands last (Goal.unit g).routines [none, none]) (visitStmts ss) []
          ((stmtsNodes ss).flatMap visits) :=
      .quiet (fun _ => Marks.walked (Marks.visitStmts ss)) (.of_still (.visitStmts ss))
    have hown := Tells.after (hunits g.ownUses) fun _ =>
      Tells.before (Tells.visitDecls hg.fitting false g.ownDecls none [none]
        (hsuits _ (List.subset_append_right _ _)) (List.subset_append_right _ _)
        (enclosed_none _)) fun _ =>
      Tells.after (hstmts g.init) fun _ => hstmts g.final
    have hall := Tells.after (hunits g.publicUses) fun _ =>
      Tells.bind (Tells.visitDecls hg.fitting false g.publicDecls none [none]
        (hsuits _ (List.subset_append_left _ _)) (List.subset_append_left _ _)
        (enclosed_none _)) fun _ => hown
    rw [← watchedIn_append] at hall
    exact (hall.node (x := .goal (.unit g))).of_eq (by simp [Goal.nodes, visits])
  | package g =>
    exact ((hunits g.contains).node (x := .goal (.package g))).of_eq
      (by simp [Goal.nodes, visits])

/-- At the start there are only the frame of the language and an empty one. -/
theorem stands_initial (hg : Separate g last) (config : Config) (path : Text) :
    Stands last g.routines [none, none]
      { scopes := .initial config, notes := .forTree last, path } := by
  have hroom := hg.room
  have hnext : (Annotations.forTree last).next = last + 1 := Nat.mod_eq_of_lt (by omega)
  have hsource (f : CallableDecl) (hf : f ∈ g.routines) (v : VarDecl) (hv : f.Owns [] (.var v)) :
      v.info.id ≤ last :=
    hg.range _ ((sublist_visits g.nodes).subset (g.homes_sublist.subset
      (List.mem_map.mpr ⟨_, Goal.homes_subset hf hv.mem_homes, rfl⟩)))
  have hruntime : (Frame.runtime config).isRoutine = false := by
    rw [Frame.isRoutine, (Builtin.addsTo_runtime config).owner]
  have hnative (name : Text) (d : Decl) (hd : (Frame.runtime config).find? name = some d) :
      d.IsNative := Builtin.native_runtime hd
  unfold Scopes.initial
  generalize Frame.runtime config = runtime at hruntime hnative
  refine ⟨List.cons_ne_nil _ _, hnext ▸ Nat.lt_succ_self last, hsource,
    fun _ h => absurd h List.not_mem_nil, fun f hf => by simp at hf,
    .cons ⟨rfl, fun _ _ h => by cases h⟩ (.cons ⟨hruntime, fun name d hd => ?_⟩ .nil)⟩
  have hd := hnative name d hd
  cases d with
  | var v => exact hd.elim
  | param p => exact hd.elim
  | composite c =>
    refine fun v hv => ⟨fun f hf => ⟨fun howns => ?_, fun h => by cases h⟩, .inr (hd v hv)⟩
    obtain ⟨b, hb, hvar⟩ | himplicit := howns
    · exact absurd (hd v hv) (hg.kinds f hf b hb v hvar)
    · cases himplicit
  | _ => trivial

/-- What can be told from the routines and the names that are watched. -/
theorem of_watched (hrange : ∀ x ∈ g.nodes.flatMap visits, x.info.id ≤ last)
    (hwatched : ∀ w ∈ watchedIn g.routines, Once w.info.id (g.nodes.flatMap visits))
    (hhomes : ∀ p ∈ g.homes, Once p.1.info.id (g.nodes.flatMap visits))
    (hkinds : ∀ f ∈ g.routines, ∀ b ∈ f.body, ∀ d ∈ b.decls,
      (match d with
        | .var v => v.kind != .field
        | _ => true) = true)
    (hroom : last + 1 + 3 * (g.nodes.flatMap visits).length < Annotations.numberCount) :
    Separate g last where
  range := hrange
  routines f hf := hwatched (.routine f) (List.mem_flatMap.mpr ⟨f, hf, List.mem_cons_self⟩)
  homes := hhomes
  names _ hf _ hb _ _ hi := hwatched _ (name_watched hf hb hi)
  kinds f hf b hb _ hv := bne_iff_ne.mp (hkinds f hf b hb _ hv)
  room := hroom

/-- Where a source is bound to its end, the variables that were declared without a source are known,
and so are the names in the statements of routines. -/
theorem ends (hg : Separate g last) {config : Config} {path : Text} {c : Binding}
    (h : ofGoal config path g last = (.ok (), c)) :
    Stands last g.routines [none, none] c ∧ Known g.routines c (watchedIn g.routines) := by
  have hroom := hg.room
  have hnext : (Annotations.forTree last).next = last + 1 := Nat.mod_eq_of_lt (by omega)
  have hready : Ready last (g.nodes.flatMap visits) (.forTree last) :=
    ⟨by omega, by omega, hg.range, fun k _ => Std.TreeMap.getElem?_emptyc⟩
  have hends := hg.visitGoal.ends _ (hg.stands_initial config path) hready
    fun w hw => ⟨hg.once_watched w hw, rfl, rfl⟩
  unfold Ends at hends
  rw [show (ObjectPascal.Binding.visitGoal g).run.run
    { scopes := .initial config, notes := .forTree last, path } = (.ok (), c) from h] at hends
  exact ⟨hends.1, hends.2.2⟩

theorem not_unbound {c : Binding}
    (hmethods : ∀ m ∈ g.routines, m.owner.isEmpty = false → m.body.isSome = true →
      ∃ heading, c.notes.declOf m.info = some (.callable heading)) :
    ¬∃ m, .routine m ∈ watchedIn g.routines ∧ Unbound c m := by
  rintro ⟨m, hm, hunbound⟩
  obtain ⟨heading, hheading⟩ :=
    hmethods m (mem_of_routine_watched hm) hunbound.owner hunbound.body
  exact hunbound.heading heading hheading

end Separate

/-- A procedure that sets a variable `V` which it does not declare. -/
def settingRoutine : CallableDecl :=
  let node (id : Nat) : NodeInfo := { id, line := 1 }
  let assignment : Stmt := .assign (node 8) (.name (node 6) "V") (.int (node 7) 1 "1")
  { info := node 11, name := "Inner", kind := .procedure,
    body := some ⟨node 10, [], .compound (node 9) [assignment]⟩ }

/-- A method around this procedure that declares the variable. -/
def aroundMethod : CallableDecl :=
  let node (id : Nat) : NodeInfo := { id, line := 1 }
  let declared : VarDecl :=
    { info := node 5, name := "V", type := some (.named { info := node 4, name := "Integer" }) }
  { info := node 16, name := "M", owner := "T", kind := .procedure,
    body := some ⟨node 15, [.var declared, .callable settingRoutine],
      .compound (node 14) [.call (node 13) (.name (node 12) "Inner")]⟩ }

/-- A program with a class and this method. -/
def methodProgram : Goal :=
  let node (id : Nat) : NodeInfo := { id, line := 1 }
  let heading : CallableDecl := { info := node 1, name := "M", owner := "T", kind := .procedure }
  let class_ : CompositeDecl :=
    { info := node 3, name := "T", kind := .classType, heritage := [],
      members := [.callable heading], type := .classType (node 2) [] [.callable heading] false }
  .program { info := node 19, name := "P",
             block := ⟨node 18, [.composite class_, .callable aroundMethod],
               .compound (node 17) []⟩ }

/-- What the program holds besides itself. -/
example : methodProgram.nodes.length = 18 := by decide +kernel

theorem separate_methodProgram : Separate methodProgram 19 :=
  .of_watched (by decide +kernel) (by decide +kernel) (by decide +kernel) (by decide +kernel)
    (by decide +kernel)

/-- Whether a declaration is that of a routine. -/
def isRoutine : Decl → Bool
  | .callable _ => true
  | _ => false

end ObjectPascal.Binding
