import ObjectPascal.Proofs.Binding.Touches

/-!
What declaring names changes, and what is found out in the frame of a routine. The frame is entered
and left again: what is found out inside is kept, where only the scopes are again what they were.
-/

namespace ObjectPascal.Binding

namespace Marks

variable {n : Nat}

theorem register (line : Nat) (name : Text) (d : Decl) :
    Marks Scopes.FirmTo n (register line name d) [] := by
  intro b hR hn hroom
  have hinner := hR.growsTo.inner_ne_nil
  unfold Binding.register
  rw [Ends.bind_iff, getScopes_iff]
  dsimp only
  have hfails (e : ScopeError) := (silent (n := n) (R := Scopes.FirmTo)
    (.bind (Silent.complain line (.scope e)) fun _ => .pure false)) b hR hn hroom
  cases hd : Scopes.createsFrame d with
  | false =>
    simp only [Bool.false_eq_true, if_false]
    split
    · rename_i t ht
      exact ⟨(Scopes.firmTo_of_register ht hinner hd).1, (Touches.refl n b).with_scopes _ _⟩
    · exact hfails _
  | true =>
    simp only [if_true]
    split
    · rename_i t ht
      obtain ⟨u, hu, rfl⟩ := Scopes.firmTo_of_register_inside ht hinner hd
      have hback :
          (u.withInner ({ name, owner := some d } :: u.inner)).unwindTo b.scopes.depth = u := by
        have hdepth : b.scopes.depth = u.depth := by simp [Scopes.depth, hu.growsTo.length_eq]
        rw [hdepth]
        exact Scopes.unwindTo_append u [_]
      refine ⟨?_, (Touches.refl n b).with_scopes _ _⟩
      change b.scopes.FirmTo (Scopes.unwindTo _ _)
      rw [hback]
      exact hu
    · exact hfails _

theorem declareType (d : Decl) : Marks Scopes.FirmTo n (declareType d) [] := by
  intro b hR hn hroom
  unfold Binding.declareType
  rw [Ends.bind_iff, getScopes_iff]
  split
  · rename_i c hannounced
    split
    · rename_i t ht
      obtain ⟨e, he, hvar⟩ : ∃ e, b.scopes.findLocal? c.name = some e ∧ ∀ v, e ≠ .var v := by
        cases he : b.scopes.findLocal? c.name with
        | none =>
          have hnone : isAnnounced none = true := he ▸ hannounced
          cases hnone
        | some e =>
          refine ⟨e, rfl, fun v hv => ?_⟩
          have hsome : isAnnounced (some (.var v)) = true := hv ▸ he ▸ hannounced
          cases hsome
      exact ⟨Scopes.firmTo_of_redeclare he hvar ht hR.growsTo.inner_ne_nil,
        (Touches.refl n b).with_scopes _ _⟩
    · exact silent (.complain _ _) b hR hn hroom
  · exact discard (register _ _ _) b hR hn hroom

theorem declareTypes (declared : Bool) (ds : List Decl) :
    Marks Scopes.FirmTo n (declareTypes declared ds) [] := by
  have hall := forM (n := n) declareType ds
  exact ite (pure _) (hall.of_eq (by simp))

/-- Only a variable that was made is declared without a source. -/
theorem declareImplicit (d : CallableDecl) {v : VarDecl} (hv : n ≤ v.info.id) (hu : v.info.id < u)
    (hkind : v.kind ≠ .field := by exact nofun) :
    MarksWithin Scopes.FirmTo n u 0 (declareImplicit d v) [] := by
  have hdeclared := (register (n := n) d.info.line v.name (.var v)).discard
  have hnoted : MarksWithin Scopes.FirmTo n u 0
      (modify fun b => { b with implicit := b.implicit ++ [(v, d)] } : Bind PUnit) [] := by
    refine fun b hR hnext _ => ⟨hR, ?_⟩
    refine ⟨Nat.le_refl _, Nat.le_refl _, fun _ _ => rfl, fun _ _ h => .inl h,
      fun _ _ _ => .refl _ _, rfl, List.subset_append_left _ _, fun p hp => ?_, rfl, fun _ h => h⟩
    refine (List.mem_append.mp hp).imp id fun hp => ?_
    rw [List.mem_singleton.mp hp]
    exact ⟨hv, Nat.lt_of_lt_of_le hu hnext, hkind⟩
  exact .bind (hdeclared.raise (Nat.le_trans hv (Nat.le_of_lt hu))) fun _ => hnoted

theorem declareTag (info : NodeInfo) (tag : Text) (type : TypeExpr) :
    MarksWithin Scopes.FirmTo n n 1 (declareTag info tag type) [] := by
  unfold Binding.declareTag
  split
  · exact (pure _).mono (Nat.zero_le 1) (List.Subset.refl _)
  · exact .made (r := 0) _ fun _ hi =>
      (discard (register _ _ _)).raise (Nat.le_succ_of_le hi)

theorem declareSelf (d : CallableDecl) :
    MarksWithin Scopes.FirmTo n n 2 (declareSelf d) [] :=
  .made (r := 1) _ fun _ hi => .made (r := 0) _ fun _ hj =>
    declareImplicit _ hi (Nat.lt_succ_of_le (Nat.le_of_succ_le hj))

theorem declareResult (d : CallableDecl) :
    MarksWithin Scopes.FirmTo n n 1 (declareResult d) [] := by
  unfold Binding.declareResult
  split
  · exact .made (r := 0) _ fun _ hi => declareImplicit _ hi (Nat.lt_succ_self _)
  · exact (pure _).mono (Nat.zero_le 1) (List.Subset.refl _)

theorem declareConst (d : ConstDecl) : Marks Scopes.FirmTo n (declareConst d) [] :=
  before (register _ _ _) fun free => .constantDeclared d free

theorem declareVar (d : VarDecl) : Marks Scopes.FirmTo n (declareVar d) [] :=
  after (.checkAbsolute d) fun _ => discard (register _ _ _)

theorem declareUnits (units : List UnitRef) :
    Marks Scopes.FirmTo n (declareUnits units) [] := by
  have hall := forM (n := n) (fun u : UnitRef => discard (register u.info.line u.name (.unit u)))
    units
  exact hall.of_eq (by simp)

end Marks

/-! Frames that are entered and left. What is found out inside is kept outside, where only the
scopes are different. -/

section Frames

variable {b : Binding} (Q : Binding → Prop)

theorem leave_ends {s : Scopes} {f : Frame} (h : b.scopes = s.withInner (f :: s.inner)) :
    Ends leave b (fun _ c => c = { b with scopes := s }) fun _ _ => True := by
  unfold leave
  rw [Ends.bind_iff, getScopes_iff, h]
  rfl

/-- A frame is entered and left again. -/
theorem framed_ends (name : Text) (owner : Option Decl) {m : Bind Unit}
    (hm : Ends m { b with scopes := b.scopes.enter name owner }
      (fun _ c => (b.scopes.enter name owner).FirmTo c.scopes ∧ Q c) fun _ _ => True) :
    Ends (do enter name owner; m; leave) b
      (fun _ c => c.scopes = b.scopes ∧ ∃ s, Q { c with scopes := s }) fun _ _ => True := by
  rw [Ends.bind_iff]
  change Ends _ { b with scopes := b.scopes.enter name owner } _ _
  rw [Ends.bind_iff]
  refine hm.mono (fun _ c hc => ?_) fun _ _ h => h
  obtain ⟨g, hg, -⟩ := Scopes.FirmTo.of_pushed (s := b.scopes) hc.1
  refine (leave_ends hg).mono (fun _ d hd => ?_) fun _ _ h => h
  subst hd
  exact ⟨rfl, c.scopes, hc.2⟩

variable {d : CallableDecl}

/-- A frame in which a routine may be declared. -/
def Hosts (f g : Frame) : Prop := f.FirmTo g ∧ f.Takes (fun d => ∃ r, d = .callable r) g

theorem Hosts.refl (f : Frame) : Hosts f f := ⟨.refl f, .refl _ f⟩

/-- The frame of a routine is on top, and the one around it may have grown. -/
def Inside (n : Nat) (b : Binding) (d : CallableDecl) (c : Binding) : Prop :=
  (∃ u, b.scopes.OnTop Hosts u ∧ c.scopes = u.enter d.name (some (.callable d))) ∧
    Touches n 0 [] b c

theorem Inside.silent {n : Nat} {c : Binding} (h : Inside n b d c) {α : Type} {m : Bind α}
    (hm : Silent m) : Ends m c (fun _ e => Inside n b d e) fun _ _ => True := by
  refine (hm c (.refl c)).mono (fun _ e he => ?_) fun _ _ h => h
  obtain ⟨⟨u, hu, hc⟩, htouch⟩ := h
  exact ⟨⟨u, hu, he.scopes.trans hc⟩, htouch.trans (he.touches n)⟩

/-- A routine is declared around its own frame. -/
theorem declareRoutine_ends (n : Nat) (hs : b.scopes.inner ≠ []) :
    Ends (declareRoutine (b.scopes.findLocal? d.name) d)
      { b with scopes := b.scopes.enter d.name (some (.callable d)) }
      (fun _ c => Inside n b d c) fun _ _ => True := by
  have hnotes (s : Scopes) : Touches n 0 [] b { b with scopes := s } :=
    (Touches.refl n b).with_scopes b.scopes s
  have hentered : Inside n b d { b with scopes := b.scopes.enter d.name (some (.callable d)) } :=
    ⟨⟨b.scopes, Scopes.onTop_self hs .refl, rfl⟩, hnotes _⟩
  have hregister : Ends (registerRoutine d)
      { b with scopes := b.scopes.enter d.name (some (.callable d)) }
      (fun _ c => Inside n b d c) fun _ _ => True := by
    unfold registerRoutine
    rw [Ends.bind_iff, getScopes_iff]
    dsimp only
    split
    · rename_i t ht
      obtain ⟨u, hu, rfl⟩ := Scopes.onTop_of_register_inside ht hs rfl
      have hinside : Inside n b d { b with scopes := u.enter d.name (some (.callable d)) } :=
        ⟨⟨u, hu.mono fun _ _ h => ⟨Frame.firmTo_of_add? h, Frame.takes_of_add? h ⟨d, rfl⟩⟩, rfl⟩,
          hnotes _⟩
      rw [Ends.bind_iff, setScopes_iff]
      exact hinside.silent (.ite (Silent.addOverload d) (.pure _))
    · exact hentered.silent (Silent.complain _ _)
  unfold declareRoutine
  split
  · rename_i p hp
    split
    · exact hentered.silent (Silent.addOverload d)
    · split
      · rw [Ends.bind_iff, getScopes_iff]
        dsimp only
        split
        · rename_i t ht
          obtain ⟨u, hu, hredeclare⟩ := Scopes.redeclare_inside d.name (some (.callable d))
            (.callable d) hp hs
          obtain rfl := Except.ok.inj (hredeclare.symm.trans ht)
          refine ⟨⟨u, hu.mono fun f g ⟨hf, hg⟩ => ?_, rfl⟩, hnotes _⟩
          rw [hg]
          exact ⟨Frame.firmTo_replace hf (fun _ => nofun) _, Frame.takes_replace hf ⟨d, rfl⟩⟩
        · exact hentered.silent (Silent.complain _ _)
      · exact hregister
  · exact hregister

/-- The inside of a routine is bound in its frame. -/
theorem inRoutine_ends (n : Nat) (hs : b.scopes.inner ≠ []) {m : Bind Unit}
    (h : ∀ c, Inside n b d c →
      Ends m c (fun _ e => c.scopes.FirmTo e.scopes ∧ Q e) fun _ _ => True) :
    Ends (inRoutine d m) b
      (fun _ c => b.scopes.FirmTo c.scopes ∧ ∃ s, Q { c with scopes := s }) fun _ _ => True := by
  unfold inRoutine
  rw [Ends.bind_iff, getScopes_iff, Ends.bind_iff]
  change Ends _ { b with scopes := b.scopes.enter d.name (some (.callable d)) } _ _
  rw [Ends.bind_iff]
  refine (declareRoutine_ends n hs).mono (fun _ c hc => ?_) fun _ _ h => h
  rw [Ends.bind_iff]
  refine (h c hc).mono (fun _ e he => ?_) fun _ _ h => h
  obtain ⟨⟨u, hu, hscopes⟩, -⟩ := hc
  obtain ⟨g, hg, -⟩ := Scopes.FirmTo.of_pushed (s := u) (hscopes ▸ he.1)
  refine (leave_ends hg).mono (fun _ x hx => ?_) fun _ _ h => h
  subst hx
  exact ⟨hu.mono fun _ _ h => h.1, e.scopes, he.2⟩

/-- The inside of a method is bound among the members of its type, or in a frame of its own if the
type is not known at all; else the method is skipped with an error. -/
theorem inMethod_ends (n : Nat) (hs : b.scopes.inner ≠ []) {m : Bind Unit}
    (hskipped : ∀ e, (b.scopes.enterMethod d.owner d.name).run = some (.error e) →
      e.fault ≠ .compositeNotFound →
        Q { b with errors := b.errors.push ⟨b.path, d.info.line, .scope e⟩ })
    (hbare : ∀ c, Inside n b d c → Ends (do declareSelf d; m) c
      (fun _ e => c.scopes.FirmTo e.scopes ∧ Q e) fun _ _ => True)
    (hamong : ∀ s context,
      (b.scopes.enterMethod d.owner d.name).run = some (.ok (s, context)) →
        Ends (do bindHeading d s.top.owner; declareSelf d; m) { b with scopes := s }
          (fun _ e => s.FirmTo e.scopes ∧ Q e) fun _ _ => True) :
    Ends (inMethod d m) b
      (fun _ c => b.scopes.FirmTo c.scopes ∧ ∃ s, Q { c with scopes := s }) fun _ _ => True := by
  unfold inMethod
  rw [Ends.bind_iff, getScopes_iff, Ends.bind_iff]
  cases hx : b.scopes.enterMethod d.owner d.name with
  | none => trivial
  | some r =>
    rw [ended_some_iff]
    cases r with
    | error e =>
      dsimp only
      by_cases hfault : e.fault = .compositeNotFound
      · rw [if_pos hfault, Ends.bind_iff]
        refine (Silent.lookupFailed _ _ b (.refl b)).mono (fun _ c hc => ?_) fun _ _ h => h
        have hinside : Inside n b d { c with scopes := c.scopes.enter d.name _ } :=
          ⟨⟨b.scopes, Scopes.onTop_self hs .refl, by rw [hc.scopes]⟩,
            (hc.touches n).with_scopes b.scopes _⟩
        have hframed := framed_ends Q d.name (some (.callable d)) (hbare _ hinside)
        rw [bind_assoc] at hframed
        refine hframed.mono (fun _ x hx => ⟨?_, hx.2⟩) fun _ _ h => h
        rw [hx.1, hc.scopes]
        exact .refl hs
      · rw [if_neg hfault]
        unfold lookupFailed
        simp only [bind_assoc, Ends.bind_iff, getScopes_iff, hfault, decide_false, Bool.false_and,
          Bool.false_eq_true, if_false]
        exact ⟨.refl hs, b.scopes, hskipped e hx hfault⟩
    | ok r =>
      obtain ⟨s, context⟩ := r
      have hends := hamong s context hx
      obtain ⟨f, pushed, rfl, hname, hmethod, hdepth, hpushed⟩ := Scopes.enterMethod_eq hx
      dsimp only
      rw [Ends.bind_iff, setScopes_iff]
      rw [show (do
          bindHeading d (b.scopes.withInner (f :: (pushed ++ b.scopes.inner))).top.owner
          declareSelf d
          m
          leaveMethod context : Bind Unit) = (do
            bindHeading d (b.scopes.withInner (f :: (pushed ++ b.scopes.inner))).top.owner
            declareSelf d
            m) >>= fun _ => leaveMethod context by simp only [bind_assoc], Ends.bind_iff]
      refine hends.mono (fun _ c hc => ?_) fun _ _ h => h
      obtain ⟨g, hg, hfirm⟩ := hc.1.of_pushed
      have hleave : (b.scopes.withInner (g :: (pushed ++ b.scopes.inner))).leaveMethod context =
          (.ok (), b.scopes) := by
        apply Scopes.leaveMethod_eq _ hdepth hpushed
        rw [hfirm.1.name, hname, hmethod]
      unfold leaveMethod
      rw [Ends.bind_iff, getScopes_iff, hg, hleave]
      exact ⟨.refl hs, c.scopes, hc.2⟩

end Frames

end ObjectPascal.Binding
