import ObjectPascal.Proofs.Binding.Homes

/-!
Names in statements. When a statement of a routine is bound, only frames of handlers and of `with`
statements stand above the frame of the routine, and the routines whose frames stand below are those
around it. So a name is marked if and only if it denotes a variable of one of these.
-/

namespace ObjectPascal.Binding

/-- What is watched: a name in the statements of a routine, or a routine itself. -/
inductive Watch where
  | name (r : CallableDecl) (i : NodeInfo)
  | routine (m : CallableDecl)

/-- The node that is watched. -/
def Watch.info : Watch → NodeInfo
  | name _ i => i
  | routine m => m.info

/-- Nothing is recorded about a node. -/
structure Untold (b : Binding) (i : NodeInfo) : Prop where
  declOf : b.notes.declOf i = none
  nonLocal : b.notes.isNonLocal i = false

/-- A name in the statements of `r` is marked if and only if it denotes a variable or parameter of a
routine around `r`. -/
structure Told (fs : List CallableDecl) (b : Binding) (r : CallableDecl) (i : NodeInfo) : Prop where
  marked : b.notes.isNonLocal i = true ↔ ∃ d, b.notes.declOf i = some d ∧
    ∃ q ∈ fs, r ∈ blockRoutines q.body ∧ q.Owns b.implicit d
  dated : ∀ v, b.notes.declOf i = some (.var v) → b.Dated v

/-- A method with a body is bound to no heading. -/
structure Unbound (b : Binding) (m : CallableDecl) : Prop where
  owner : m.owner.isEmpty = false
  body : m.body.isSome = true
  heading : ∀ h, b.notes.declOf m.info ≠ some (.callable h)

/-- All names that are watched are marked as they should be, unless a method is bound to no
heading. -/
def Known (fs : List CallableDecl) (b : Binding) (ws : List Watch) : Prop :=
  (∃ m, .routine m ∈ ws ∧ Unbound b m) ∨ ∀ r i, .name r i ∈ ws → Told fs b r i

/-- Nothing is recorded about what is watched, and each of it is one node. -/
def Blank (b : Binding) (ns : List Node) (ws : List Watch) : Prop :=
  ∀ w ∈ ws, Once w.info.id ns ∧ Untold b w.info

section Later

variable {fs : List CallableDecl} {b c : Binding} {i : NodeInfo} {r : CallableDecl}
  {ns ns' : List Node} {ws ws' : List Watch}

theorem Untold.same (h : Untold b i) (hsame : b.notes.SameAt c.notes i) : Untold c i :=
  ⟨hsame.declOf.trans h.declOf, hsame.nonLocal.trans h.nonLocal⟩

/-- A name that is not bound denotes nothing. -/
theorem Untold.told (h : Untold b i) : Told fs b r i where
  marked := by simp [h.declOf, h.nonLocal]
  dated v hv := by simp [h.declOf] at hv

theorem Told.same {k : Nat} (h : Told fs b r i) (htouch : Touches b.notes.next k ns b c)
    (hsame : b.notes.SameAt c.notes i) : Told fs c r i where
  marked := by
    rw [hsame.nonLocal, hsame.declOf, h.marked]
    refine exists_congr fun d => and_congr_right fun hd => exists_congr fun q =>
      and_congr_right fun _ => and_congr_right fun _ => ?_
    cases d with
    | var v => exact or_congr Iff.rfl (htouch.mem_implicit_iff (h.dated v hd) q).symm
    | param p => exact Iff.rfl
    | _ => exact Iff.rfl
  dated v hv := htouch.dated (h.dated v (hsame.declOf ▸ hv))

theorem Known.same {k : Nat} (h : Known fs b ws) (htouch : Touches b.notes.next k ns b c)
    (hsame : ∀ w ∈ ws, b.notes.SameAt c.notes w.info) : Known fs c ws := by
  refine h.imp (fun ⟨m, hm, hunbound⟩ => ⟨m, hm, hunbound.owner, hunbound.body, fun h => ?_⟩)
    fun htold r i hi => (htold r i hi).same htouch (hsame _ hi)
  exact (hsame _ hm).declOf.trans_ne (hunbound.heading h)

/-- Nothing but notes matters. -/
theorem Known.of_eq (h : Known fs b ws) (hnotes : c.notes = b.notes)
    (himplicit : c.implicit = b.implicit) : Known fs c ws := by
  obtain ⟨m, hm, hunbound⟩ | htold := h
  · exact .inl ⟨m, hm, hunbound.owner, hunbound.body, hnotes ▸ hunbound.heading⟩
  · refine .inr fun r i hi => ⟨?_, fun v hv => ?_⟩
    · rw [hnotes, himplicit]
      exact (htold r i hi).marked
    · rw [Dated, hnotes]
      exact (htold r i hi).dated v (hnotes ▸ hv)

theorem Known.append (h : Known fs b ws) (h' : Known fs b ws') : Known fs b (ws ++ ws') := by
  obtain ⟨m, hm, hunbound⟩ | h := h
  · exact .inl ⟨m, List.mem_append_left _ hm, hunbound⟩
  obtain ⟨m, hm, hunbound⟩ | h' := h'
  · exact .inl ⟨m, List.mem_append_right _ hm, hunbound⟩
  · exact .inr fun r i hi => (List.mem_append.mp hi).elim (h r i) (h' r i)

theorem Known.perm (h : Known fs b ws) (hws : ws.Perm ws') : Known fs b ws' :=
  h.imp (fun ⟨m, hm, hunbound⟩ => ⟨m, hws.mem_iff.mp hm, hunbound⟩)
    fun h r i hi => h r i (hws.mem_iff.mpr hi)

theorem Known.of_nil (h : ws = []) : Known fs b ws := .inr fun _ _ hi => by simp [h] at hi

theorem Known.of_untold (h : ∀ w ∈ ws, Untold b w.info) : Known fs b ws :=
  .inr fun _ _ hi => (h _ hi).told

theorem Blank.subperm (h : Blank b ns ws) (hns : ns'.Subperm ns) : Blank b ns' ws :=
  fun w hw => ⟨(h w hw).1.subperm hns, (h w hw).2⟩

theorem Blank.of_eq (h : Blank b ns ws) (hnotes : c.notes = b.notes) : Blank c ns ws :=
  fun w hw => ⟨(h w hw).1, hnotes ▸ (h w hw).2.declOf, hnotes ▸ (h w hw).2.nonLocal⟩

/-- Nothing is recorded about what is watched while nodes are made. -/
theorem Blank.made {k : Nat} (h : Blank b ns ws) (htouch : Touches b.notes.next k [] b c)
    (hws : ∀ w ∈ ws, w.info.id < b.notes.next) : Blank c ns ws := fun w hw =>
  ⟨(h w hw).1, (h w hw).2.same (htouch.same _ (hws w hw) fun _ => nofun)⟩

end Later

/-- What stays true as long as the scopes do not change. -/
class Steady (C : Binding → Prop) : Prop where
  steady {r : Nat} {ns : List Node} {b c : Binding} :
    C b → c.scopes = b.scopes → Touches b.notes.next r ns b c → C c

/-- Where `C` is true, a step about `ns` leaves it true, and afterwards it is known what is watched
in `ns`. -/
structure Tells (last : Nat) (fs : List CallableDecl) (C : Binding → Prop) {α : Type} (m : Bind α)
    (ws : List Watch) (ns : List Node) : Prop where
  held : ∀ w ∈ ws, Held w.info.id ns
  ends : ∀ b, C b → Ready last ns b.notes → Blank b ns ws →
    Ends m b (fun _ c => C c ∧ Touches b.notes.next (3 * ns.length) ns b c ∧ Known fs c ws)
      fun _ _ => True

namespace Tells

variable {last : Nat} {fs : List CallableDecl} {C : Binding → Prop} {α β : Type} {m : Bind α}
  {k : α → Bind β} {ns ns' : List Node} {ws ws' : List Watch}

/-- What is watched lies within the source. -/
theorem watched_le {a : Annotations} (h : Tells last fs C m ws ns) (hready : Ready last ns a) :
    ∀ w ∈ ws, w.info.id ≤ last := by
  intro w hw
  obtain ⟨x, hx, hid⟩ := h.held w hw
  exact hid ▸ hready.numbers x hx

theorem subperm (h : Tells last fs C m ws ns) (hns : ns.Subperm ns') :
    Tells last fs C m ws ns' where
  held w hw := by
    obtain ⟨x, hx, hid⟩ := h.held w hw
    exact ⟨x, hns.subset hx, hid⟩
  ends b hC hready hblank :=
    (h.ends b hC (hready.subperm hns) (hblank.subperm hns)).mono (fun _ _ hc => ⟨hc.1,
      hc.2.1.mono (Nat.le_refl _) (Nat.mul_le_mul_left 3 hns.length_le) hns.subset, hc.2.2⟩)
      fun _ _ h => h

theorem node {x : Node} (h : Tells last fs C m ws ns) : Tells last fs C m ws (x :: ns) :=
  h.subperm (List.sublist_cons_self x ns).subperm

theorem of_eq (h : Tells last fs C m ws ns) (hns : ns' = ns) : Tells last fs C m ws ns' := hns ▸ h

theorem perm (h : Tells last fs C m ws ns) (hws : ws.Perm ws') : Tells last fs C m ws' ns where
  held w hw := h.held w (hws.mem_iff.mpr hw)
  ends b hC hready hblank :=
    (h.ends b hC hready fun w hw => hblank w (hws.mem_iff.mp hw)).mono
      (fun _ _ hc => ⟨hc.1, hc.2.1, hc.2.2.perm hws⟩) fun _ _ h => h

/-- Two steps, each of which tells of its own part. -/
theorem bind [Nonempty α] (hm : Tells last fs C m ws ns)
    (hk : ∀ a, Tells last fs C (k a) ws' ns') :
    Tells last fs C (m >>= k) (ws ++ ws') (ns ++ ns') where
  held w hw := by
    obtain hw | hw := List.mem_append.mp hw
    · obtain ⟨x, hx, hid⟩ := hm.held w hw
      exact ⟨x, List.mem_append_left _ hx, hid⟩
    · obtain ⟨x, hx, hid⟩ := (hk (Classical.arbitrary α)).held w hw
      exact ⟨x, List.mem_append_right _ hx, hid⟩
  ends b hC hready hblank := by
    have hfirst := hready.subperm (List.sublist_append_left ns ns').subperm
    have hsecond := hready.subperm (List.sublist_append_right ns ns').subperm
    rw [Ends.bind_iff]
    refine (hm.ends b hC hfirst fun w hw => ?_).mono (fun a c hc => ?_) fun _ _ h => h
    · exact (hblank w (List.mem_append_left _ hw)).imp_left Once.left
    obtain ⟨hC, htouch, hknown⟩ := hc
    have hlater := hready.later htouch (Nat.le_refl _)
    -- what the second step watches is no node of the first
    have hblank' : Blank c ns' ws' := by
      intro w hw
      obtain ⟨honce, huntold⟩ := hblank w (List.mem_append_right _ hw)
      have hle := (hk a).watched_le hsecond w hw
      refine ⟨honce.right, huntold.same (htouch.same _ (Nat.lt_of_le_of_lt hle hready.next) ?_)⟩
      exact fun x hx hid => honce.not_held ⟨x, hx, hid⟩ ((hk a).held w hw)
    refine ((hk a).ends c hC hlater hblank').mono (fun _ d hd => ?_) fun _ _ h => h
    obtain ⟨hC, htouch', hknown'⟩ := hd
    refine ⟨hC, ?_, (hknown.same htouch' fun w hw => ?_).append hknown'⟩
    · exact (htouch.trans (htouch'.mono htouch.next (Nat.le_refl _) (List.Subset.refl _))).mono
        (Nat.le_refl _) (by rw [List.length_append]; omega) (List.Subset.refl _)
    · have hle := hm.watched_le hfirst w hw
      refine htouch'.same _ (Nat.lt_of_le_of_lt hle hlater.next) fun x hx hid => ?_
      exact (hblank w (List.mem_append_left _ hw)).1.not_held (hm.held w hw) ⟨x, hx, hid⟩

/-- A step before in which nothing is watched. -/
theorem after [Nonempty α] (hm : Tells last fs C m [] ns) (hk : ∀ a, Tells last fs C (k a) ws ns') :
    Tells last fs C (m >>= k) ws (ns ++ ns') := bind hm hk

/-- A step behind in which nothing is watched. -/
theorem before [Nonempty α] (hm : Tells last fs C m ws ns)
    (hk : ∀ a, Tells last fs C (k a) [] ns') : Tells last fs C (m >>= k) ws (ns ++ ns') :=
  (bind hm hk).perm (.of_eq (List.append_nil ws))

/-- A step that leaves the scopes as they are. -/
theorem of_same [Steady C] (hm : ∀ n, Marks Eq n m ns) (held : ∀ w ∈ ws, Held w.info.id ns)
    (h : ∀ b, C b → Ready last ns b.notes → Blank b ns ws →
      Ends m b (fun _ c => Known fs c ws) fun _ _ => True) : Tells last fs C m ws ns where
  held := held
  ends b hC hready hblank :=
    ((hm _ b rfl (Nat.le_refl _) hready.room).and (h b hC hready hblank)).mono
      (fun _ _ hc => ⟨Steady.steady hC hc.1.1.symm hc.1.2, hc.1.2, hc.2⟩) fun _ _ _ => trivial

/-- A step in which nothing is watched. -/
theorem of_marks [Steady C] (hm : ∀ n, Marks Eq n m ns) : Tells last fs C m [] ns :=
  of_same hm (List.forall_mem_nil _) fun b _ _ _ => (Ends.of_true m b).mono
    (fun _ _ _ => .of_nil rfl) fun _ _ h => h

theorem silent [Steady C] (h : Silent m) : Tells last fs C m [] [] := of_marks fun _ => .silent h

theorem throw (e : Breach) (held : ∀ w ∈ ws, Held w.info.id ns) :
    Tells last fs C (throw e : Bind α) ws ns := ⟨held, fun _ _ _ _ => trivial⟩

end Tells

/-! Names. -/

section Names

variable {last : Nat} {fs : List CallableDecl} {r : CallableDecl} {b c : Binding}

/-- Whether a declaration is found in the frame of a routine that stands below the one being
bound. -/
theorem isNonLocal_eq {d : Decl} {above below : List Frame} {f : Frame} {k : Nat} {ρ : List Nat}
    (hframes : b.scopes.frames = above ++ f :: below) (hroutines : b.routines = k :: ρ) :
    b.isNonLocal d below.length =
      (d.isVariable && decide (below.length < k) && f.isRoutine) := by
  unfold isNonLocal
  rw [hroutines, Scopes.frame?_of_frames hframes]
  rfl

/-- Who owns what a frame declares. -/
theorem Suits.owns_iff {implicit : List (VarDecl × CallableDecl)} {dated : VarDecl → Prop}
    {o : Option CallableDecl} {d : Decl} (h : Suits fs implicit dated o d)
    (hd : d.isVariable = true) {q : CallableDecl} (hq : q ∈ fs) :
    q.Owns implicit d ↔ o = some q := by
  cases d with
  | var v => exact h.owner q hq
  | param p => exact h q hq
  | _ => cases hd

/-- Statements of a routine are being bound. -/
def Within (last : Nat) (fs : List CallableDecl) (r : CallableDecl) (b : Binding) : Prop :=
  ∃ n homes ρ, Stands last fs (List.replicate n none ++ some r :: homes) b ∧
    (∀ q, some q ∈ homes → r ∈ blockRoutines q.body) ∧ b.routines = homes.length :: ρ

instance : Steady (Within last fs r) where
  steady := by
    rintro k ns b c ⟨n, homes, ρ, hstands, haround, hroutines⟩ hscopes htouch
    exact ⟨n, homes, ρ, hstands.touched htouch hscopes, haround,
      htouch.routines.trans hroutines⟩

/-- What is found in the statements of a routine is a variable of a routine around if and only if it
counts as such. -/
theorem Within.isNonLocal_iff (h : Within last fs r b) {name : Text} {d : Decl} {place : Nat}
    (hfound : b.scopes.lookup? name = some (d, place)) :
    (b.isNonLocal d place = true ↔ ∃ q ∈ fs, r ∈ blockRoutines q.body ∧ q.Owns b.implicit d) ∧
      ∀ v, d = .var v → b.Dated v := by
  obtain ⟨n, homes, ρ, hstands, haround, hroutines⟩ := h
  obtain ⟨above, f, below, hframes, hfind, rfl⟩ := Scopes.frames_of_lookup? hfound
  obtain ⟨o, ho, hfits, hlength⟩ := hstands.exists_home hframes
  have hsuits := hfits.suits name d hfind
  have hmem : o ∈ List.replicate n none ++ some r :: homes := List.mem_of_getElem? ho
  rw [isNonLocal_eq hframes hroutines, Bool.and_eq_true, Bool.and_eq_true, decide_eq_true_iff,
    hfits.owner]
  simp only [List.length_append, List.length_replicate, List.length_cons] at hlength
  refine ⟨⟨fun ⟨⟨hvariable, hbelow⟩, hroutine⟩ => ?_, fun ⟨q, hq, hr, howns⟩ => ?_⟩, ?_⟩
  · obtain ⟨q, rfl⟩ := Option.isSome_iff_exists.mp hroutine
    have hq := hstands.routines q hmem
    refine ⟨q, hq, haround q (List.mem_of_getElem? (i := above.length - (n + 1)) ?_),
      (hsuits.owns_iff hvariable hq).mpr rfl⟩
    -- the frame stands below that of the routine
    rw [List.getElem?_append_right (by simp; omega), List.length_replicate,
      show above.length - n = above.length - (n + 1) + 1 by omega, List.getElem?_cons_succ] at ho
    exact ho
  · have hvariable := howns.isVariable
    obtain rfl := (hsuits.owns_iff hvariable hq).mp howns
    refine ⟨⟨hvariable, ?_⟩, rfl⟩
    have hindex : n + 1 ≤ above.length := by
      by_contra hlt
      obtain hlt | heq : above.length < n ∨ above.length = n := by omega
      · rw [List.getElem?_append_left (by simpa using hlt), List.getElem?_replicate,
          if_pos hlt] at ho
        cases ho
      · rw [List.getElem?_append_right (by simp [heq]), List.length_replicate, heq,
          Nat.sub_self, List.getElem?_cons_zero] at ho
        cases ho
        exact r.not_mem_blockRoutines hr
    omega
  · rintro v rfl
    exact hsuits.dated

/-- The watched names among nodes in the statements of a routine. -/
def namesIn (r : CallableDecl) (ns : List Node) : List Watch :=
  ns.filterMap fun
    | .expr (.name i _) => some (.name r i)
    | _ => none

theorem held_namesIn (r : CallableDecl) (ns : List Node) :
    ∀ w ∈ namesIn r ns, Held w.info.id ns := by
  intro w hw
  obtain ⟨x, hx, hw⟩ := List.mem_filterMap.mp hw
  split at hw
  · cases hw
    exact ⟨_, hx, rfl⟩
  · cases hw

/-- In the statements of a routine it is known of all names afterwards whether they are marked as
they should be. -/
abbrev Reads (last : Nat) (fs : List CallableDecl) (r : CallableDecl) {α : Type} (m : Bind α)
    (ns : List Node) : Prop :=
  Tells last fs (Within last fs r) m (namesIn r ns) ns

end Names

namespace Reads

variable {last : Nat} {fs : List CallableDecl} {r : CallableDecl} {α β : Type} {m : Bind α}
  {ns ns' : List Node}

theorem of_marks (hm : ∀ n, Marks Eq n m ns) (hns : namesIn r ns = [] := by rfl) :
    Reads last fs r m ns := by
  unfold Reads
  rw [hns]
  exact Tells.of_marks hm

theorem silent (h : Silent m) : Reads last fs r m [] := Tells.silent h

theorem pure (a : α) : Reads last fs r (Pure.pure a : Bind α) [] := silent (.pure a)

theorem of_eq (h : Reads last fs r m ns) (hns : ns' = ns) : Reads last fs r m ns' := hns ▸ h

theorem perm (h : Reads last fs r m ns) (hns : ns.Perm ns') : Reads last fs r m ns' :=
  (Tells.subperm h hns.subperm).perm (hns.filterMap _)

/-- A node that is no name. -/
theorem node {x : Node} (h : Reads last fs r m ns) (hx : namesIn r [x] = [] := by rfl) :
    Reads last fs r m (x :: ns) := by
  have hnames : namesIn r (x :: ns) = namesIn r ns := by
    rw [← List.singleton_append, namesIn, List.filterMap_append, ← namesIn, hx]
    rfl
  unfold Reads
  rw [hnames]
  exact Tells.node h

theorem bind [Nonempty α] {k : α → Bind β} (hm : Reads last fs r m ns)
    (hk : ∀ a, Reads last fs r (k a) ns') : Reads last fs r (m >>= k) (ns ++ ns') := by
  unfold Reads
  rw [show namesIn r (ns ++ ns') = namesIn r ns ++ namesIn r ns' from List.filterMap_append ..]
  exact Tells.bind hm hk

/-- A silent step before. -/
theorem after [Nonempty α] {k : α → Bind β} (hm : Silent m) (hk : ∀ a, Reads last fs r (k a) ns) :
    Reads last fs r (m >>= k) ns := bind (silent hm) hk

/-- A silent step behind. -/
theorem before [Nonempty α] {k : α → Bind β} (hm : Reads last fs r m ns)
    (hk : ∀ a, Silent (k a)) : Reads last fs r (m >>= k) ns :=
  (bind hm fun a => silent (hk a)).of_eq (List.append_nil ns).symm

theorem ite {p : Prop} [Decidable p] {m k : Bind α} (hm : Reads last fs r m ns)
    (hk : Reads last fs r k ns) : Reads last fs r (if p then m else k) ns := by
  split
  · exact hm
  · exact hk

/-- A step for each part in turn. -/
theorem foldlM {γ : Type} [Nonempty β] {f : β → γ → Bind β} {nodes : γ → List Node}
    (hf : ∀ acc x, Reads last fs r (f acc x) (nodes x)) (l : List γ) (acc : β) :
    Reads last fs r (l.foldlM f acc) (l.flatMap nodes) := by
  induction l generalizing acc with
  | nil => exact pure _
  | cons x l ih =>
    rw [List.foldlM_cons, List.flatMap_cons]
    exact (hf acc x).bind ih

theorem forM {γ : Type} {f : γ → Bind PUnit} {nodes : γ → List Node}
    (hf : ∀ x, Reads last fs r (f x) (nodes x)) (l : List γ) :
    Reads last fs r (l.forM f) (l.flatMap nodes) := by
  induction l with
  | nil => exact pure _
  | cons x l ih =>
    rw [List.flatMap_cons]
    exact (hf x).bind fun _ => ih

/-- A name is resolved. -/
theorem resolveName (i : NodeInfo) (name : Text) (called : Bool) :
    Reads last fs r (resolveName i name called) [.expr (.name i name)] := by
  refine Tells.of_same (fun _ => Marks.resolveName i name called) (held_namesIn r _)
    fun b hwithin hready hblank => ?_
  have huntold : Untold b i := (hblank (.name r i) (List.mem_singleton.mpr rfl)).2
  cases hfound : b.scopes.lookup? name with
  | none =>
    unfold Binding.resolveName
    rw [Ends.bind_iff, getScopes_iff]
    simp only [hfound]
    refine ((Silent.unresolved i.line name) b (.refl b)).mono (fun _ c hc => ?_)
      fun _ _ _ => trivial
    exact .of_untold fun w hw => (hblank w hw).2.same (hc.notes.sameAt _)
  | some found =>
    obtain ⟨d, place⟩ := found
    have hi : i.id < b.notes.next :=
      Nat.lt_of_le_of_lt (hready.numbers (.expr (.name i name)) List.mem_cons_self) hready.next
    have htouch := Marks.resolveName i name called b rfl (Nat.le_refl _) hready.room
    refine ((resolveName_found hfound hi called).and htouch).mono (fun _ c hc => .inr ?_)
      fun _ _ _ => trivial
    obtain ⟨hc, -, htouch⟩ := hc
    obtain ⟨hmarked, hdated⟩ := hwithin.isNonLocal_iff hfound
    rintro r' i' hi'
    cases List.mem_singleton.mp hi'
    have himplicit : c.implicit = b.implicit := by rw [hc.eq]
    refine ⟨?_, fun v hv => htouch.dated (hdated v ?_)⟩
    · rw [hc.marked, huntold.nonLocal, Bool.false_or, hmarked, hc.declared, himplicit]
      simp
    · exact Option.some.inj (hc.declared.symm.trans hv)

mutual

theorem visitExpr : (e : Expr) → Reads last fs r (visitExpr e) e.nodes
  | .int .. | .real .. | .char .. | .string .. | .bool .. | .nil .. | .result .. =>
    node (pure _)
  | .name .. => resolveName _ _ _
  | .ident .. => of_marks fun _ => Marks.bindIdent _ _
  | .call info callee args => by
    -- the type of the call is recorded last
    have hrest := bind (visitArgs args) fun _ =>
      of_marks (r := r) fun _ => Marks.bindCall (.call info callee args) callee
    have hperm {ns : List Node} : (ns ++ (argsNodes args ++
        [Node.expr (.call info callee args)])).Perm
          (.expr (.call info callee args) :: (ns ++ argsNodes args)) := by
      rw [← List.append_assoc]
      exact List.perm_append_singleton _ _
    unfold Binding.visitExpr
    dsimp only
    split
    · exact perm (bind (resolveName _ _ _) fun _ => hrest) hperm
    · exact perm (bind (visitExpr callee) fun _ => hrest) hperm
  | .field info object name =>
    perm (bind (visitExpr object) fun _ => of_marks fun _ =>
      Marks.bindField (.field info object name) object name) (List.perm_append_singleton _ _)
  | .index _ array indexes => node (bind (visitExpr array) fun _ => visitExprs indexes)
  | .deref _ pointer => node (visitExpr pointer)
  | .unary _ _ operand => node (visitExpr operand)
  | .binary _ _ l e => node (bind (visitExpr l) fun _ => visitExpr e)
  | .range _ l e => node (bind (visitExpr l) fun _ => visitExpr e)
  | .set _ es => node (visitExprs es)
  | .array _ es => node (visitExprs es)
  | .record _ fields => node (visitFieldInits fields)
  | .inherited info method args =>
    perm (bind (visitArgs args) fun _ => of_marks fun _ =>
      Marks.bindInherited (.inherited info method args) method) (List.perm_append_singleton _ _)

theorem visitExprs : (es : List Expr) → Reads last fs r (visitExprs es) (exprsNodes es)
  | [] => pure _
  | e :: es => bind (visitExpr e) fun _ => visitExprs es

theorem visitArgs : (args : Option (List Expr)) → Reads last fs r (visitArgs args) (argsNodes args)
  | none => pure _
  | some es => visitExprs es

theorem visitFieldInits : (fields : List FieldInit) →
    Reads last fs r (visitFieldInits fields) (fieldInitsNodes fields)
  | [] => pure _
  | ⟨_, _, value⟩ :: fields => node (bind (visitExpr value) fun _ => visitFieldInits fields)

end

theorem visitOptExpr (e : Option Expr) : Reads last fs r (visitOptExpr e) (optExprNodes e) :=
  visitExprs e.toList

/-! Statements. -/

theorem visitTarget (e : Expr) : Reads last fs r (visitTarget e) e.nodes := by
  refine Tells.of_same (fun _ => Marks.visitTarget e) (held_namesIn r _)
    fun b hwithin hready hblank => ?_
  unfold Binding.visitTarget
  rw [Ends.bind_iff, getScopes_iff, Ends.bind_iff, getNotes_iff]
  split
  · trivial
  · -- the target is replaced as a whole, and names in it are not bound
    rename_i ref notes hresult
    obtain ⟨_, -, -, -, -, hsame, -⟩ := rewriteResult_eq hresult
    refine .of_untold fun w hw => ?_
    obtain ⟨x, hx, hid⟩ := held_namesIn r _ w hw
    have hle := hready.numbers x hx
    have hlast := hready.next
    exact (hblank w hw).2.same (c := { b with notes }) (hsame _ (by omega))
  · exact ((visitExpr e).ends b hwithin hready hblank).mono (fun _ _ hc => hc.2.2) fun _ _ h => h

theorem caseRange (label : Expr) : Reads last fs r (caseRange label) label.nodes := by
  unfold Binding.caseRange
  split
  · rename_i info low high
    refine node (bind (visitExpr low) fun _ => before (visitExpr high) fun _ => ?_)
    refine .bind (Silent.caseValue low) fun l => .bind (Silent.caseValue high) fun h => ?_
    split
    · split
      · exact .bind (Silent.complain _ _) fun _ => .pure _
      · exact .pure _
    · exact .pure _
  · exact before (visitExpr _) fun _ => .bind (Silent.caseValue _) fun _ => .pure _

theorem caseLabels (seen : List CaseRange) (labels : List Expr) :
    Reads last fs r (caseLabels seen labels) (exprsNodes labels) := by
  rw [exprsNodes_eq_flatMap]
  refine foldlM (fun seen label => before (caseRange label) fun l => ?_) labels seen
  split
  · exact .pure _
  · exact .bind (Silent.checkRepeated _ _ _) fun _ => .pure _

/-- The frames that the objects of a `with` statement push belong to no routine. -/
theorem openObjects (objects : List Expr) :
    Reads last fs r (openObjects objects) (exprsNodes objects) := by
  rw [exprsNodes_eq_flatMap]
  refine forM (fun e => ?_) objects
  refine (bind (visitExpr e) fun _ => (?_ : Reads last fs r _ [])).of_eq (List.append_nil _).symm
  refine after (Silent.compositeOf e) fun type => ?_
  split
  · exact pure _
  · refine ⟨List.forall_mem_nil _, fun b hwithin hready hblank => ?_⟩
    rw [Ends.bind_iff, getScopes_iff]
    split
    · rename_i s _ hload
      obtain ⟨n, homes, ρ, hstands, haround, hroutines⟩ := hwithin
      obtain ⟨k, hloaded⟩ := hstands.loaded hload
      rw [← List.append_assoc, List.replicate_append_replicate] at hloaded
      exact ⟨⟨k + n, homes, ρ, hloaded, haround, hroutines⟩,
        (Touches.refl _ b).with_scopes b.scopes s, .of_nil rfl⟩
    · exact (silent (.lookupFailed _ _)).ends b hwithin hready hblank

/-- A step that leaves its frames again. -/
theorem of_still {m : Bind Unit} (hm : ∀ n, Marks Scopes.FirmTo n m ns) (hstill : Still m)
    (h : ∀ b, Within last fs r b → Ready last ns b.notes → Blank b ns (namesIn r ns) →
      Ends m b (fun _ c => Known fs c (namesIn r ns)) fun _ _ => True) :
    Reads last fs r m ns where
  held := held_namesIn r ns
  ends b hwithin hready hblank := by
    have hinner : b.scopes.inner ≠ [] := by
      obtain ⟨_, _, _, hstands, -⟩ := hwithin
      exact hstands.inner
    have hmarked := hm _ b (.refl hinner) (Nat.le_refl _) hready.room
    refine ((hmarked.and (hstill b rfl)).and (h b hwithin hready hblank)).mono (fun _ c hc => ?_)
      fun _ _ _ => trivial
    obtain ⟨⟨⟨-, htouch⟩, hscopes⟩, hknown⟩ := hc
    exact ⟨Steady.steady hwithin hscopes htouch, htouch, hknown⟩

/-- What is opened for a statement is closed after it. -/
theorem withObjects (objects : List Expr) {body : Bind Unit}
    (hm : ∀ n, Marks Scopes.FirmTo n body ns) (hstill : Still body)
    (hbody : Reads last fs r body ns) :
    Reads last fs r (do
      let depth := (← getScopes).depth
      Binding.openObjects objects
      body
      setScopes ((← getScopes).unwindTo depth)) (exprsNodes objects ++ ns) := by
  refine of_still (fun _ => Marks.withObjects objects (hm _)) (Still.withObjects objects hstill)
    fun b hwithin hready hblank => ?_
  have hopened := (bind (openObjects objects) fun _ => hbody).ends b hwithin hready hblank
  rw [Ends.bind_iff] at hopened
  rw [Ends.bind_iff, getScopes_iff, Ends.bind_iff]
  refine hopened.mono (fun _ c hc => ?_) fun _ _ h => h
  rw [Ends.bind_iff]
  refine hc.mono (fun _ d hd => ?_) fun _ _ h => h
  rw [Ends.bind_iff, getScopes_iff, setScopes_iff]
  exact hd.2.2.of_eq rfl rfl

/-- The variable of a handler belongs to no routine. -/
theorem handled (h : Handler) {body : Bind Unit} (hm : ∀ n, Marks Scopes.FirmTo n body ns)
    (hlawful : Lawful body) (hbody : Reads last fs r body ns) : Reads last fs r (do
      enter ("on " ++ h.var)
      let i ← newInfo h.info.line
      discard (register h.info.line h.var
        (.var { info := i, name := h.var, type := some (.named h.type) }))
      body
      leave) (.handler h :: ns) := by
  refine of_still (fun _ => Marks.handled h (hm _)) (Still.handled h.info h.var h.type hlawful)
    fun b hwithin hready hblank => ?_
  obtain ⟨n, homes, ρ, hstands, haround, hroutines⟩ := hwithin
  have hentered := hstands.enter ("on " ++ h.var) none (o := none) rfl nofun
  rw [Ends.bind_iff]
  change Ends _ { b with scopes := b.scopes.enter ("on " ++ h.var) none } _ _
  -- the variable is made and declared in the frame of the handler
  have hroom : b.notes.next + 1 < Annotations.numberCount := by
    have hroom := hready.room
    rw [List.length_cons] at hroom
    omega
  have hmade := makes_ends hentered.inner hroom h.info.line h.info.line h.var
    (fun i => { info := i, name := h.var, type := some (.named h.type) }) fun _ => rfl
  rw [Ends.bind_iff] at hmade
  rw [Ends.bind_iff]
  refine hmade.mono (fun i c hc => ?_) fun _ _ h => h
  rw [Ends.bind_iff]
  refine hc.mono (fun _ c ⟨hmakes, hfirm, htouch⟩ => ?_) fun _ _ h => h
  have hdeclared := hentered.makes htouch hfirm hmakes fun _ _ => by simp
  have hwithin : Within last fs r c :=
    ⟨n + 1, homes, ρ, hdeclared, haround, htouch.routines.trans hroutines⟩
  have htouch : Touches b.notes.next 1 [] b c := htouch.with_scopes b.scopes c.scopes
  -- so the body is bound, and the frame is left
  have hall : Ready last ([.handler h] ++ ns) b.notes := hready
  have hlater : Ready last ns c.notes := hall.later
    (htouch.mono (Nat.le_refl _) (Nat.le_refl _) (List.nil_subset _)) (by simp)
  have hblank : Blank c ns (namesIn r ns) :=
    (hblank.subperm (List.sublist_cons_self _ ns).subperm).made htouch fun w hw =>
      Nat.lt_of_le_of_lt (hbody.watched_le (hready.subperm
        (List.sublist_cons_self _ ns).subperm) w hw) hready.next
  rw [Ends.bind_iff]
  refine (hbody.ends c hwithin hlater hblank).mono (fun _ e he => ?_) fun _ _ h => h
  unfold leave
  rw [Ends.bind_iff, getScopes_iff]
  split
  · exact he.2.2.of_eq rfl rfl
  · trivial

theorem inHandler (h : Handler) {body : Bind Unit} (hm : ∀ n, Marks Scopes.FirmTo n body ns)
    (hlawful : Lawful body) (hbody : Reads last fs r body ns) :
    Reads last fs r (inHandler h.info h.var h.type body)
      (.handler h :: .type (.named h.type) :: ns) :=
  perm (bind (of_marks fun _ => Marks.resolveType h.type) fun _ =>
    ite (node hbody) (handled h hm hlawful hbody)) (.swap _ _ _)

mutual

theorem visitStmt : (s : Stmt) → Reads last fs r (visitStmt s) s.nodes
  | .empty _ | .breakLoop _ | .continueLoop _ | .asm .. => node (pure _)
  | .compound _ ss => node (visitStmts ss)
  | .assign _ target value => node (bind (visitTarget target) fun _ => visitExpr value)
  | .call _ e => node (visitExpr e)
  | .cond _ test yes no =>
    have h := bind (visitExpr test) fun _ => bind (visitStmt yes) fun _ => visitOptStmt no
    node (h.of_eq (by simp))
  | .caseOf _ selector arms rest =>
    have h := bind (visitExpr selector) fun _ => bind (visitArms [] arms) fun _ => visitStmts rest
    node (h.of_eq (by simp))
  | .forTo info var low high _ body =>
    have h := after (.loopVariable info.line var) fun _ => bind (visitExpr low) fun _ =>
      bind (visitExpr high) fun _ => visitStmt body
    node (h.of_eq (by simp))
  | .forIn info var coll body =>
    node (after (.loopVariable info.line var) fun _ => bind (visitExpr coll) fun _ =>
      visitStmt body)
  | .whileDo _ test body => node (bind (visitExpr test) fun _ => visitStmt body)
  | .repeatUntil _ body test => node (bind (visitStmts body) fun _ => visitExpr test)
  | .withDo _ objects body =>
    node (withObjects objects (fun _ => Marks.visitStmt body) (Still.visitStmt body)
      (visitStmt body))
  | .tryExcept _ body handlers rest plain =>
    have h := bind (visitStmts body) fun _ => bind (visitHandlers handlers) fun _ =>
      bind (visitStmts rest) fun _ => visitStmts plain
    node (h.of_eq (by simp))
  | .tryFinally _ body finish => node (bind (visitStmts body) fun _ => visitStmts finish)
  | .raise _ e place => node (bind (visitOptExpr e) fun _ => visitOptExpr place)
  | .goto info label => node (silent (.checkLabel info.line label))
  | .labeled info label s => node (after (.checkLabel info.line label) fun _ => visitStmt s)

theorem visitStmts : (ss : List Stmt) → Reads last fs r (visitStmts ss) (stmtsNodes ss)
  | [] => pure _
  | s :: ss => bind (visitStmt s) fun _ => visitStmts ss

theorem visitOptStmt : (s : Option Stmt) → Reads last fs r (visitOptStmt s) (optStmtNodes s)
  | none => pure _
  | some s => visitStmt s

theorem visitArms (seen : List CaseRange) : (arms : List CaseArm) →
    Reads last fs r (visitArms seen arms) (armsNodes arms)
  | [] => pure _
  | ⟨i, labels, body⟩ :: arms =>
    have h := bind (caseLabels seen labels) fun seen => bind (visitStmt body) fun _ =>
      visitArms seen arms
    node (h.of_eq (by simp))

theorem visitHandlers : (handlers : List Handler) →
    Reads last fs r (visitHandlers handlers) (handlersNodes handlers)
  | [] => pure _
  | ⟨i, var, type, body⟩ :: handlers =>
    have h := bind (inHandler ⟨i, var, type, body⟩ (fun _ => Marks.visitStmt body)
      (Lawful.visitStmt body) (visitStmt body)) fun _ =>
        visitHandlers handlers
    h.of_eq (by simp [handlersNodes])

end

end Reads

end ObjectPascal.Binding
