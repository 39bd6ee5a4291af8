import ObjectPascal.Proofs.Binding.Later
import ObjectPascal.Proofs.Scope.Variables

/-!
What a step of binding can change. It records declarations and stand-ins for the nodes that it is
about and for nodes that it makes, and for no others; it hands out new numbers, at most three for
each of its nodes; and the variables of the innermost frame stay what they are. What was found
before about other nodes is therefore found afterwards.
-/

namespace ObjectPascal.Binding

variable {α β : Type}

/-- From `b` to `c` at most `r` numbers are handed out. Nothing stands in anew for other expressions
than those among `ns`, and nothing is recorded anew about other nodes with numbers below `n`. What
stands in anew, and a new variable that no source declares, has a number from `n` on; such a
variable is no field. -/
structure Touches (n r : Nat) (ns : List Node) (b c : Binding) : Prop where
  next : b.notes.next ≤ c.notes.next
  made : c.notes.next ≤ b.notes.next + r
  substitutes : ∀ k, (∀ x ∈ ns, x.info.id ≠ k) →
    c.notes.substitutes[k]? = b.notes.substitutes[k]?
  standIns : ∀ (k : Nat) (e : Expr), c.notes.substitutes[k]? = some e →
    b.notes.substitutes[k]? = some e ∨ n ≤ e.info.id ∧ e.info.id < c.notes.next
  same : ∀ i : NodeInfo, i.id < n → (∀ x ∈ ns, x.info.id ≠ i.id) → b.notes.SameAt c.notes i
  routines : c.routines = b.routines
  implicit : b.implicit ⊆ c.implicit
  recent : ∀ p ∈ c.implicit, p ∈ b.implicit ∨
    n ≤ p.1.info.id ∧ p.1.info.id < c.notes.next ∧ p.1.kind ≠ .field
  path : c.path = b.path
  errors : ∀ f ∈ b.errors, f ∈ c.errors

namespace Touches

variable {n n' r r' : Nat} {ns ns' : List Node} {b c d : Binding}

/-- Only what is recorded about nodes has changed. -/
theorem of_notes {notes : Annotations} (hnext : b.notes.next ≤ notes.next)
    (hmade : notes.next ≤ b.notes.next + r)
    (hsubstitutes : ∀ k, (∀ x ∈ ns, x.info.id ≠ k) →
      notes.substitutes[k]? = b.notes.substitutes[k]?)
    (hstandIns : ∀ (k : Nat) (e : Expr), notes.substitutes[k]? = some e →
      b.notes.substitutes[k]? = some e ∨ n ≤ e.info.id ∧ e.info.id < notes.next)
    (hsame : ∀ i : NodeInfo, i.id < n → (∀ x ∈ ns, x.info.id ≠ i.id) → b.notes.SameAt notes i) :
    Touches n r ns b { b with notes } :=
  ⟨hnext, hmade, hsubstitutes, hstandIns, hsame, rfl, List.Subset.refl _, fun _ h => .inl h, rfl,
    fun _ h => h⟩

/-- What is recorded about a node that was made touches nothing from before. -/
theorem of_update {notes : Annotations} {x : Node} {f : Annotation → Annotation}
    (hx : x ∈ ns ∨ n ≤ x.info.id) (h : b.notes.update x f = .ok notes) :
    Touches n 0 ns b { b with notes } := by
  have hnext := Annotations.next_of_update h
  have hsubstitutes := (Annotations.get?_of_update h).1
  refine of_notes (Nat.le_of_eq hnext.symm) (Nat.le_of_eq hnext) (fun k _ => ?_)
    (fun k e he => .inl ?_) fun i hi hk => ?_
  · rw [hsubstitutes]
  · rwa [hsubstitutes] at he
  · exact .of_update h (hx.elim (fun hx => hk x hx) fun hx => by omega)

theorem refl (n : Nat) (b : Binding) : Touches n 0 [] b b :=
  of_notes (Nat.le_refl _) (Nat.le_refl _) (fun _ _ => rfl) (fun _ _ h => .inl h)
    fun _ _ _ => .refl _ _

theorem trans (h : Touches n r ns b c) (k : Touches n r' ns' c d) :
    Touches n (r + r') (ns ++ ns') b d where
  next := Nat.le_trans h.next k.next
  made := by
    have hmade := h.made
    have kmade := k.made
    omega
  substitutes := fun i hi => by
    rw [k.substitutes i fun x hx => hi x (List.mem_append_right _ hx),
      h.substitutes i fun x hx => hi x (List.mem_append_left _ hx)]
  standIns := fun i e he => (k.standIns i e he).elim
    (fun he => (h.standIns i e he).imp id fun ⟨hn, hlt⟩ => ⟨hn, Nat.lt_of_lt_of_le hlt k.next⟩) .inr
  same := fun i hn hi =>
    (h.same i hn fun x hx => hi x (List.mem_append_left _ hx)).trans
      (k.same i hn fun x hx => hi x (List.mem_append_right _ hx))
  routines := k.routines.trans h.routines
  implicit := List.Subset.trans h.implicit k.implicit
  recent := fun p hp => (k.recent p hp).elim
    (fun hp => (h.recent p hp).imp id fun ⟨hn, hlt, hkind⟩ =>
      ⟨hn, Nat.lt_of_lt_of_le hlt k.next, hkind⟩) .inr
  path := k.path.trans h.path
  errors := fun f hf => k.errors f (h.errors f hf)

/-- Less may be said about what was left alone. -/
theorem mono (h : Touches n r ns b c) (hn : n' ≤ n) (hr : r ≤ r') (hns : ns ⊆ ns') :
    Touches n' r' ns' b c where
  next := h.next
  made := Nat.le_trans h.made (Nat.add_le_add_left hr _)
  substitutes := fun k hk => h.substitutes k fun x hx => hk x (hns hx)
  standIns := fun k e he => (h.standIns k e he).imp id (And.imp_left (Nat.le_trans hn))
  same := fun i hi hk => h.same i (Nat.lt_of_lt_of_le hi hn) fun x hx => hk x (hns hx)
  routines := h.routines
  implicit := h.implicit
  recent := fun p hp => (h.recent p hp).imp id (And.imp_left (Nat.le_trans hn))
  path := h.path
  errors := h.errors

/-- Scopes do not matter. -/
theorem of_scopes {s t : Scopes}
    (h : Touches n r ns { b with scopes := s } { c with scopes := t }) : Touches n r ns b c :=
  ⟨h.next, h.made, h.substitutes, h.standIns, h.same, h.routines, h.implicit, h.recent, h.path,
    h.errors⟩

theorem with_scopes (h : Touches n r ns b c) (s t : Scopes) :
    Touches n r ns { b with scopes := s } { c with scopes := t } :=
  ⟨h.next, h.made, h.substitutes, h.standIns, h.same, h.routines, h.implicit, h.recent, h.path,
    h.errors⟩

/-- Routines that are entered between two states do not matter if they are left again. -/
theorem with_routines {ρ : List Nat} (h : Touches n r ns { b with routines := ρ } c) :
    Touches n r ns b { c with routines := b.routines } :=
  ⟨h.next, h.made, h.substitutes, h.standIns, h.same, rfl, h.implicit, h.recent, h.path, h.errors⟩

end Touches

/-! Relations between scopes: they are the same, or the innermost frame has grown, or frames are
pushed. -/

/-- Relations between the scopes before and after steps that can follow each other. -/
class Chained (R : Scopes → Scopes → Prop) : Prop where
  trans {s t u : Scopes} : R s t → R t u → R s u
  reached {s t : Scopes} : R s t → R t t

instance : Chained Eq := ⟨Eq.trans, fun _ => rfl⟩

instance : Chained Scopes.FirmTo := ⟨.trans, .reached⟩

/-- Frames are pushed. -/
def Pushes (s t : Scopes) : Prop := ∃ pushed, t = s.withInner (pushed ++ s.inner)

theorem Pushes.refl (s : Scopes) : Pushes s s := ⟨[], rfl⟩

instance : Chained Pushes where
  trans := by
    rintro s _ _ ⟨first, rfl⟩ ⟨second, rfl⟩
    exact ⟨second ++ first, by simp⟩
  reached _ := .refl _

/-- A step that leads to related scopes and touches nothing but some nodes and nodes that it makes,
of which there are at most `r`. Numbers from `n` on belong to nodes that were made, those from `u`
on are left. -/
def MarksWithin (R : Scopes → Scopes → Prop) (n u r : Nat) (m : Bind α) (ns : List Node) : Prop :=
  ∀ b, R b.scopes b.scopes → u ≤ b.notes.next → b.notes.next + r < Annotations.numberCount →
    Ends m b (fun _ c => R b.scopes c.scopes ∧ Touches n r ns b c) fun _ _ => True

/-- A step that makes at most three nodes for each of those that it is about. -/
abbrev Marks (R : Scopes → Scopes → Prop) (n : Nat) (m : Bind α) (ns : List Node) : Prop :=
  MarksWithin R n n (3 * ns.length) m ns

theorem Quiet.touches {b c : Binding} (h : Quiet b c) (n : Nat) : Touches n 0 [] b c where
  next := Nat.le_of_eq h.notes.next.symm
  made := Nat.le_of_eq h.notes.next
  substitutes := fun _ _ => by rw [h.notes.substitutes]
  standIns := fun _ _ he => .inl (h.notes.substitutes ▸ he)
  same := fun i _ _ => h.notes.sameAt i
  routines := h.routines
  implicit := by rw [h.implicit]; exact List.Subset.refl _
  recent := fun p hp => .inl (h.implicit ▸ hp)
  path := h.path
  errors := h.errors

/-! Steps that are put together. -/

namespace MarksWithin

variable {R : Scopes → Scopes → Prop} {n u u' r r' : Nat} {m : Bind α} {k : α → Bind β}
  {ns ns' : List Node}

theorem of_silent (h : Silent m) : MarksWithin R n u 0 m [] := fun b hR _ _ =>
  (h b (.refl b)).mono (fun _ _ hc => ⟨hc.scopes ▸ hR, hc.touches n⟩) fun _ _ h => h

/-- Scopes that are not changed are related as they are to themselves. -/
theorem lift (h : MarksWithin Eq n u r m ns) : MarksWithin R n u r m ns := fun b hR hu hr =>
  (h b rfl hu hr).mono (fun _ _ hc => ⟨hc.1 ▸ hR, hc.2⟩) fun _ _ h => h

theorem mono (h : MarksWithin R n u r m ns) (hr : r ≤ r') (hns : ns ⊆ ns') :
    MarksWithin R n u r' m ns' := fun b hR hu hroom =>
  (h b hR hu (by omega)).mono (fun _ _ hc => ⟨hc.1, hc.2.mono (Nat.le_refl n) hr hns⟩)
    fun _ _ h => h

/-- A step may come when more numbers are handed out. -/
theorem raise (h : MarksWithin R n u r m ns) (hu : u ≤ u') : MarksWithin R n u' r m ns :=
  fun b hR hu' hroom => h b hR (Nat.le_trans hu hu') hroom

theorem bind [Chained R] (hm : MarksWithin R n u r m ns)
    (hk : ∀ a, MarksWithin R n u r' (k a) ns') :
    MarksWithin R n u (r + r') (m >>= k) (ns ++ ns') := by
  intro b hR hu hroom
  rw [Ends.bind_iff]
  refine (hm b hR hu (by omega)).mono (fun a c hc => ?_) fun _ _ h => h
  obtain ⟨hbc, htouch⟩ := hc
  have hmade := htouch.made
  have hnext := htouch.next
  refine (hk a c (Chained.reached hbc) (by omega) (by omega)).mono (fun _ d hd => ?_)
    fun _ _ h => h
  exact ⟨Chained.trans hbc hd.1, htouch.trans hd.2⟩

/-- A silent step before. -/
theorem after [Chained R] (hm : Silent m) (hk : ∀ a, MarksWithin R n u r (k a) ns) :
    MarksWithin R n u r (m >>= k) ns :=
  (bind (of_silent hm) hk).mono (Nat.le_of_eq (Nat.zero_add r)) (List.Subset.refl _)

/-- A new node, with a number that no node had before. -/
theorem made [Chained R] (line : Nat) {k : NodeInfo → Bind β}
    (hk : ∀ i : NodeInfo, u ≤ i.id → MarksWithin R n (i.id + 1) r (k i) ns) :
    MarksWithin R n u (r + 1) (newInfo line >>= k) ns := by
  intro b hR hu hroom
  rw [Ends.bind_iff]
  let notes : Annotations := (b.notes.newInfo line).2
  have hnext : notes.next = b.notes.next + 1 := Nat.mod_eq_of_lt (by omega)
  have htouch : Touches n 1 [] b { b with notes } :=
    .of_notes (by omega) (by omega) (fun _ _ => rfl) (fun _ _ h => .inl h)
      fun _ _ _ => .of_get? rfl
  change Ends (k (b.notes.newInfo line).1) { b with notes } _ _
  refine (hk _ hu { b with notes } hR (Nat.le_of_eq hnext.symm) ?_).mono
    (fun _ c hc => ⟨hc.1, ?_⟩) fun _ _ h => h
  · simp only [hnext]
    omega
  · exact (htouch.trans hc.2).mono (Nat.le_refl n) (by omega) (List.Subset.refl _)

theorem annotate {f : Annotations → Except Breach Annotations}
    (hf : ∀ b notes, u ≤ b.notes.next → f b.notes = .ok notes →
      Touches n 0 ns b { b with notes }) :
    MarksWithin R n u 0 (annotate f) ns := by
  intro b hR hu _
  unfold Binding.annotate
  rw [Ends.bind_iff, getNotes_iff]
  split
  · exact ⟨hR, hf _ _ hu ‹_›⟩
  · trivial

/-- What is recorded about a node touches this node, which does not count if it was made. -/
theorem update {x : Node} (hx : x ∈ ns ∨ n ≤ x.info.id) (f : Annotation → Annotation) :
    MarksWithin R n u 0 (Binding.annotate (·.update x f)) ns :=
  annotate fun _ _ _ h => .of_update hx h

theorem bindTo (x : Node) (d : Decl) :
    MarksWithin R n u 0 (Binding.annotate (·.bind x d)) [x] := update (.inl List.mem_cons_self) _

theorem setConst (x : Node) (type : Option TypeExpr) (v : Constant) :
    MarksWithin R n u 0 (Binding.annotate (·.setConst x type v)) [x] :=
  annotate fun _ _ _ h => .of_update (.inl List.mem_cons_self) (Annotations.update_of_setConst h)

/-- Only a node that was made stands in for another. -/
theorem substitute (e : Expr) {s : Expr} (hs : n ≤ s.info.id) (hu : s.info.id < u) :
    MarksWithin R n u 0 (Binding.annotate fun a => .ok (a.substitute e s)) [.expr e] := by
  refine annotate fun b notes hnext h => ?_
  cases h
  refine .of_notes (Nat.le_refl _) (Nat.le_refl _) (fun k hk => ?_) (fun k r hr => ?_)
    fun _ _ _ => .of_get? rfl
  · have hne : e.info.id ≠ k := hk _ List.mem_cons_self
    rw [Annotations.getElem?_substitute, if_neg hne]
  · rw [Annotations.getElem?_substitute] at hr
    split at hr
    · cases hr
      exact .inr ⟨hs, Nat.lt_of_lt_of_le hu hnext⟩
    · exact .inl hr

end MarksWithin

namespace Marks

variable {R : Scopes → Scopes → Prop} {n : Nat} {m : Bind α} {ns ns' : List Node}

/-- The nodes of a step pay for those that it makes. -/
theorem paid {r : Nat} (h : MarksWithin R n n r m ns) (hr : r ≤ 3 * ns.length) : Marks R n m ns :=
  h.mono hr (List.Subset.refl ns)

theorem silent (h : Silent m) : Marks R n m [] := MarksWithin.of_silent h

theorem pure (a : α) : Marks R n (Pure.pure a : Bind α) [] := silent (Keeps.pure a)

theorem throw (e : Breach) : Marks R n (throw e : Bind α) ns := fun _ _ _ _ => trivial

theorem lift (h : Marks Eq n m ns) : Marks R n m ns := MarksWithin.lift h

theorem of_eq (h : Marks R n m ns) (hns : ns' = ns) : Marks R n m ns' := hns ▸ h

theorem subperm (h : Marks R n m ns) (hns : ns.Subperm ns') : Marks R n m ns' :=
  h.mono (Nat.mul_le_mul_left 3 hns.length_le) hns.subset

/-- A step may be about less than what is said. -/
theorem widen (h : Marks R n m ns) (hns : ns.Sublist ns') : Marks R n m ns' := h.subperm hns.subperm

theorem node {x : Node} (h : Marks R n m ns) : Marks R n m (x :: ns) :=
  h.widen (List.sublist_cons_self x ns)

theorem bind [Chained R] {k : α → Bind β} (hm : Marks R n m ns) (hk : ∀ a, Marks R n (k a) ns') :
    Marks R n (m >>= k) (ns ++ ns') :=
  (MarksWithin.bind hm hk).mono (by rw [List.length_append]; omega) (List.Subset.refl _)

/-- A silent step before. -/
theorem after [Chained R] {k : α → Bind β} (hm : Silent m) (hk : ∀ a, Marks R n (k a) ns) :
    Marks R n (m >>= k) ns := MarksWithin.after hm hk

/-- A silent step behind. -/
theorem before [Chained R] {k : α → Bind β} (hm : Marks R n m ns) (hk : ∀ a, Silent (k a)) :
    Marks R n (m >>= k) ns :=
  (bind hm fun a => silent (hk a)).of_eq (List.append_nil ns).symm

theorem discard (h : Marks R n m ns) : Marks R n (Functor.discard m) ns := by
  intro b hR hn hroom
  rw [Ends.discard_iff]
  exact h b hR hn hroom

theorem ite {p : Prop} [Decidable p] {m k : Bind α} (hm : Marks R n m ns) (hk : Marks R n k ns) :
    Marks R n (if p then m else k) ns := by
  split
  · exact hm
  · exact hk

/-- A step for each part in turn. -/
theorem foldlM [Chained R] {γ : Type} {f : β → γ → Bind β} {nodes : γ → List Node}
    (hf : ∀ acc x, Marks R n (f acc x) (nodes x)) (l : List γ) (acc : β) :
    Marks R n (l.foldlM f acc) (l.flatMap nodes) := by
  induction l generalizing acc with
  | nil => exact pure _
  | cons x l ih =>
    rw [List.foldlM_cons, List.flatMap_cons]
    exact (hf acc x).bind ih

theorem forM [Chained R] {γ : Type} {f : γ → Bind PUnit} {nodes : γ → List Node}
    (hf : ∀ x, Marks R n (f x) (nodes x)) (l : List γ) :
    Marks R n (l.forM f) (l.flatMap nodes) := by
  induction l with
  | nil => exact pure _
  | cons x l ih =>
    rw [List.flatMap_cons]
    exact (hf x).bind fun _ => ih

end Marks

end ObjectPascal.Binding

/-!
What is recorded about a name that is found: the declaration that it denotes, a mark if that is a
variable of a routine around, and an identifier or a call that stands in for the name.
-/

namespace ObjectPascal.Binding

/-- A change of what is known about one node is a change of notes only. The node must have a
number. -/
theorem update_ends (b : Binding) (x : Node) (f : Annotation → Annotation) :
    Ends (annotate (·.update x f)) b
      (fun _ c => ∃ notes, b.notes.update x f = .ok notes ∧ c = { b with notes })
      fun _ _ => x.info.id = 0 := by
  unfold annotate
  rw [Ends.bind_iff, getNotes_iff]
  split
  · rename_i notes hnotes
    exact ⟨notes, hnotes, rfl⟩
  · rename_i hnotes
    rw [Ends.throw_iff]
    by_contra hx
    obtain ⟨notes, hupdate⟩ := b.notes.exists_update hx f
    cases hnotes.symm.trans hupdate

/-- Only notes have changed, but not what they say about declarations and marks, nor what stands in
for expressions. -/
structure Undisturbed (b c : Binding) : Prop where
  eq : c = { b with notes := c.notes }
  declOf : ∀ i, c.notes.declOf i = b.notes.declOf i
  nonLocal : ∀ i, c.notes.isNonLocal i = b.notes.isNonLocal i
  substitutes : c.notes.substitutes = b.notes.substitutes

theorem Undisturbed.refl (b : Binding) : Undisturbed b b := ⟨rfl, fun _ => rfl, fun _ => rfl, rfl⟩

theorem Undisturbed.trans {b c d : Binding} (h : Undisturbed b c) (k : Undisturbed c d) :
    Undisturbed b d where
  eq := by
    rw [k.eq, h.eq]
  declOf i := (k.declOf i).trans (h.declOf i)
  nonLocal i := (k.nonLocal i).trans (h.nonLocal i)
  substitutes := k.substitutes.trans h.substitutes

/-- The type of an expression disturbs nothing. -/
theorem recordType_undisturbed (b : Binding) (e : Expr) (t : Option TypeExpr) :
    Ends (recordType e t) b (fun _ c => Undisturbed b c) fun _ _ => e.info.id = 0 := by
  cases t with
  | none => exact .refl b
  | some t =>
    refine (update_ends b _ _).mono (fun _ c ⟨notes, hnotes, hc⟩ => ?_) fun _ _ h => h
    subst hc
    exact ⟨rfl, Annotations.declOf_of_update_same hnotes fun _ => rfl,
      Annotations.isNonLocal_of_update_same hnotes fun _ => rfl,
      (Annotations.get?_of_update hnotes).1⟩

/-- A new node disturbs nothing. -/
theorem newInfo_undisturbed (b : Binding) (line : Nat) :
    Ends (newInfo line) b (fun i c => i.id = b.notes.next ∧ Undisturbed b c) fun _ _ => False :=
  ⟨rfl, rfl, fun _ => rfl, fun _ => rfl, rfl⟩

/-- A name and its identifier are marked if the declaration is a variable of a routine around. -/
theorem noteNonLocal_ends (b : Binding) (e ident : Expr) (d : Decl) (place : Nat) :
    Ends (noteNonLocal e ident d place) b
      (fun _ c => c = { b with notes := c.notes } ∧ (∀ i, c.notes.declOf i = b.notes.declOf i) ∧
        c.notes.isNonLocal e.info = (b.notes.isNonLocal e.info || b.isNonLocal d place) ∧
        c.notes.substitutes = b.notes.substitutes)
      fun _ _ => e.info.id = 0 ∨ ident.info.id = 0 := by
  unfold noteNonLocal
  rw [Ends.bind_iff, Ends.get_iff]
  split
  · rename_i hmark
    rw [Ends.bind_iff]
    refine (update_ends b (.expr ident) _).mono (fun _ c ⟨notes, hnotes, hc⟩ => ?_)
      fun _ _ h => .inr h
    subst hc
    refine (update_ends _ (.expr e) _).mono (fun _ c ⟨notes', hnotes', hc⟩ => ?_)
      fun _ _ h => .inl h
    subst hc
    refine ⟨rfl, fun i => ?_, ?_, ?_⟩
    · rw [Annotations.declOf_of_update_same hnotes' fun _ => rfl,
        Annotations.declOf_of_update_same hnotes fun _ => rfl]
    · rw [hmark, Bool.or_true]
      exact Annotations.isNonLocal_of_mark hnotes'
    · rw [(Annotations.get?_of_update hnotes').1, (Annotations.get?_of_update hnotes).1]
  · rename_i hmark
    exact ⟨rfl, fun _ => rfl, by rw [eq_false_of_ne_true hmark, Bool.or_false], rfl⟩

/-- An identifier stands in for a name, or a call of the routine that it denotes. -/
theorem standIn_ends (b : Binding) (s : Scopes) (ident : Expr) (d : Decl) (called : Bool) :
    Ends (standIn s ident d called) b (fun r c => Undisturbed b c ∧
      ((∀ f, d ≠ .callable f) → r = ident)) fun _ _ => ∃ f, d = .callable f := by
  unfold standIn
  split
  · rename_i f
    rw [Ends.bind_iff]
    refine (newInfo_undisturbed b _).mono (fun i c hc => ?_) fun _ _ h => h.elim
    dsimp only
    rw [Ends.bind_iff]
    refine (recordType_undisturbed c _ _).mono (fun _ e he => ?_) fun _ _ _ => ⟨f, rfl⟩
    exact ⟨hc.2.trans he, fun h => absurd rfl (h f)⟩
  · exact ⟨.refl b, fun _ => rfl⟩

/-- A name that is found refers to what it denotes, and is marked if that is a variable of a routine
around. Unless it denotes a routine, a new identifier with this declaration stands in for it. -/
structure Found (i : NodeInfo) (name : Text) (d : Decl) (place : Nat) (b c : Binding) : Prop where
  eq : c = { b with notes := c.notes }
  declared : c.notes.declOf i = some d
  marked : c.notes.isNonLocal i = (b.notes.isNonLocal i || b.isNonLocal d place)
  replaced : (∀ f, d ≠ .callable f) → ∃ j : NodeInfo, j.id = b.notes.next ∧
    c.notes.declOf j = some d ∧ ∀ k, c.notes.substitutes[k]? =
      if i.id = k then some (.ident j name) else b.notes.substitutes[k]?

theorem resolveName_found {b : Binding} {i : NodeInfo} {name : Text} {d : Decl} {place : Nat}
    (hfound : b.scopes.lookup? name = some (d, place)) (hi : i.id < b.notes.next) (called : Bool) :
    Ends (resolveName i name called) b (fun _ c => Found i name d place b c)
      fun _ _ => i.id = 0 ∨ b.notes.next = 0 ∨ ∃ f, d = .callable f := by
  unfold resolveName
  rw [Ends.bind_iff, getScopes_iff]
  simp only [hfound]
  rw [Ends.bind_iff]
  refine (newInfo_undisturbed b _).mono (fun j b₁ ⟨hj, h₁⟩ => ?_) fun _ _ h => h.elim
  have hunnumbered (h : j.id = 0) : i.id = 0 ∨ b.notes.next = 0 ∨ ∃ f, d = .callable f :=
    .inr (.inl (hj ▸ h))
  have hne : j.id ≠ i.id := by omega
  -- both nodes refer to the declaration
  rw [Ends.bind_iff]
  refine (update_ends b₁ (.expr (.ident j name)) _).mono (fun _ b₂ ⟨n₂, hn₂, h₂⟩ => ?_)
    fun _ _ => hunnumbered
  rw [Ends.bind_iff]
  refine (update_ends b₂ (.expr (.name i name)) _).mono (fun _ b₃ ⟨n₃, hn₃, h₃⟩ => ?_)
    fun _ _ => .inl
  subst h₂ h₃
  have hdeclared : n₃.declOf i = some d := Annotations.declOf_of_bind hn₃
  have hident : n₃.declOf j = some d :=
    (Annotations.declOf_of_update hn₃ (m := j) (Ne.symm hne)).trans (Annotations.declOf_of_bind hn₂)
  have hmarks : n₃.isNonLocal i = b.notes.isNonLocal i := by
    rw [Annotations.isNonLocal_of_update_same hn₃ fun _ => rfl,
      Annotations.isNonLocal_of_update_same hn₂ fun _ => rfl, h₁.nonLocal]
  have hsubstitutes : n₃.substitutes = b.notes.substitutes := by
    rw [(Annotations.get?_of_update hn₃).1, (Annotations.get?_of_update hn₂).1, h₁.substitutes]
  -- then the type, the mark and what stands in follow
  rw [Ends.bind_iff]
  refine (recordType_undisturbed _ _ _).mono (fun _ b₄ h₄ => ?_) fun _ _ => hunnumbered
  rw [Ends.bind_iff]
  refine (noteNonLocal_ends b₄ (.name i name) (.ident j name) d place).mono
    (fun _ b₅ ⟨h₅, hdeclOf, hmark, hsub⟩ => ?_) fun _ _ h => h.elim .inl hunnumbered
  rw [Ends.bind_iff]
  refine (standIn_ends b₅ _ _ d called).mono (fun r b₆ ⟨h₆, hr⟩ => ?_)
    fun _ _ h => .inr (.inr h)
  have hscopes : b₆ = { b with notes := b₆.notes } := by
    rw [h₆.eq, h₅, h₄.eq, h₁.eq]
  have hsame : b₄.isNonLocal d place = b.isNonLocal d place := by
    rw [h₄.eq, h₁.eq]
    rfl
  refine ⟨?_, ?_, ?_, fun hd => ⟨j, hj, ?_, fun k => ?_⟩⟩
  · rw [hscopes]
  · exact (h₆.declOf i).trans ((hdeclOf i).trans ((h₄.declOf i).trans hdeclared))
  · refine (h₆.nonLocal i).trans (hmark.trans ?_)
    rw [hsame]
    exact congrArg (· || _) ((h₄.nonLocal i).trans hmarks)
  · exact (h₆.declOf j).trans ((hdeclOf j).trans ((h₄.declOf j).trans hident))
  · change (b₆.notes.substitute (.name i name) r).substitutes[k]? = _
    rw [Annotations.getElem?_substitute, hr hd, h₆.substitutes, hsub, h₄.substitutes, hsubstitutes]
    rfl

end ObjectPascal.Binding
