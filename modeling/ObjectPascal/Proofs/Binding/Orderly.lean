import ObjectPascal.Proofs.Binding.Marks
import ObjectPascal.Proofs.Folding.Depth
import ObjectPascal.Proofs.Scope.Contents

/-!
What binding keeps in order. Nodes refer only to declarations of a known kind, and each expression
that is replaced, and each variable that no source declares, has a new number of its own. Numbers
are handed out in a circle, so a step may rely on it only while there are enough left; it pays for
them with its nodes.
-/

namespace ObjectPascal

/-- A node refers to what it did before, or to what it is bound to. -/
theorem Annotations.declOf_of_bound {a b : Annotations} {x : Node} {d e : Decl} {i : NodeInfo}
    (h : a.bind x d = .ok b) (he : b.declOf i = some e) : a.declOf i = some e ∨ d = e := by
  by_cases hi : x.info.id = i.id
  · have hget := (get?_of_update h).2 i
    rw [if_pos hi] at hget
    have hdecl : b.declOf i = some d := by
      rw [declOf, hget]
      rfl
    exact .inr (Option.some.inj (hdecl.symm.trans he))
  · exact .inl (declOf_of_update h hi ▸ he)

namespace Binding

variable {α β : Type} {last : Nat} {A : Decl → Prop} {b c d : Binding}

/-- All is in order: what names mean or can mean is of one kind; what stands in for expressions has
no parts to be folded and has a number of its own behind those of the source, and so has each
variable that no source declares. -/
structure InOrder (last : Nat) (A : Decl → Prop) (b : Binding) : Prop where
  sight : b.scopes.Holds A
  meant : ∀ i d, b.notes.declOf i = some d → A d
  next : last < b.notes.next
  bare : b.notes.Bare
  standIns : ∀ (k : Nat) (e : Expr), b.notes.substitutes[k]? = some e →
    last < e.info.id ∧ e.info.id < b.notes.next
  apart : ∀ (k k' : Nat) (e e' : Expr), b.notes.substitutes[k]? = some e →
    b.notes.substitutes[k']? = some e' → e.info.id = e'.info.id → k = k'
  implicit : ∀ p ∈ b.implicit, p.1.info.id < b.notes.next
  distinct : b.implicit.Pairwise fun p q => p.1.info.id ≠ q.1.info.id

/-- Between two states nothing changed but what is recorded about nodes and the numbers that are
left, and nothing stands in anew. What nodes refer to anew is of one kind. -/
structure Recorded (A : Decl → Prop) (b c : Binding) : Prop where
  scopes : c.scopes = b.scopes
  implicit : c.implicit = b.implicit
  substitutes : c.notes.substitutes = b.notes.substitutes
  next : b.notes.next ≤ c.notes.next
  meant : ∀ i d, c.notes.declOf i = some d → b.notes.declOf i = some d ∨ A d

theorem Recorded.refl (A : Decl → Prop) (b : Binding) : Recorded A b b :=
  ⟨rfl, rfl, rfl, Nat.le_refl _, fun _ _ => .inl⟩

theorem Recorded.trans (h : Recorded A b c) (k : Recorded A c d) : Recorded A b d where
  scopes := k.scopes.trans h.scopes
  implicit := k.implicit.trans h.implicit
  substitutes := k.substitutes.trans h.substitutes
  next := Nat.le_trans h.next k.next
  meant i e he := (k.meant i e he).elim (h.meant i e) .inr

theorem Quiet.recorded (h : Quiet b c) : Recorded A b c :=
  ⟨h.scopes, h.implicit, h.notes.substitutes, Nat.le_of_eq h.notes.next.symm,
    fun i _ hd => .inl (h.notes.declOf i ▸ hd)⟩

namespace InOrder

theorem recorded (h : InOrder last A b) (k : Recorded A b c) : InOrder last A c where
  sight := k.scopes ▸ h.sight
  meant i d hd := (k.meant i d hd).elim (h.meant i d) id
  next := Nat.lt_of_lt_of_le h.next k.next
  bare e he := by
    rw [k.substitutes]
    exact h.bare e he
  standIns e he := by
    rw [k.substitutes]
    exact fun hs => (h.standIns e he hs).imp_right fun hlt => Nat.lt_of_lt_of_le hlt k.next
  apart := by
    rw [k.substitutes]
    exact h.apart
  implicit p hp := Nat.lt_of_lt_of_le (h.implicit p (k.implicit ▸ hp)) k.next
  distinct := k.implicit ▸ h.distinct

theorem rescoped (h : InOrder last A b) {s : Scopes} (hs : s.Holds A) :
    InOrder last A { b with scopes := s } :=
  ⟨hs, h.meant, h.next, h.bare, h.standIns, h.apart, h.implicit, h.distinct⟩

theorem rerouted (h : InOrder last A b) (ρ : List Nat) :
    InOrder last A { b with routines := ρ } :=
  ⟨h.sight, h.meant, h.next, h.bare, h.standIns, h.apart, h.implicit, h.distinct⟩

/-- What was made since `b` may stand in for an expression. -/
theorem substituted (h : InOrder last A b) (k : Recorded A b c) (e : Expr) {r : Expr}
    (hr : r.isBare = true) (hnew : b.notes.next ≤ r.info.id) (hmade : r.info.id < c.notes.next) :
    InOrder last A { c with notes := c.notes.substitute e r } := by
  have hc := h.recorded k
  -- nothing that stood in before has the number of what stands in now
  have hfresh (j : Nat) (q : Expr) (hq : c.notes.substitutes[j]? = some q) :
      q.info.id < r.info.id := by
    rw [k.substitutes] at hq
    exact Nat.lt_of_lt_of_le (h.standIns j q hq).2 hnew
  have hone {j : Nat} {q : Expr}
      (hq : (c.notes.substitute e r).substitutes[j]? = some q) :
      j = e.info.id ∧ q = r ∨ c.notes.substitutes[j]? = some q := by
    rw [Annotations.getElem?_substitute] at hq
    split at hq
    · rename_i hj
      exact .inl ⟨hj.symm, (Option.some.inj hq).symm⟩
    · exact .inr hq
  refine ⟨hc.sight, hc.meant, hc.next, fun j q hq => ?_, fun j q hq => ?_,
    fun j j' r₁ r₂ h₁ h₂ hid => ?_, hc.implicit, hc.distinct⟩
  · obtain ⟨-, rfl⟩ | hq := hone hq
    · exact hr
    · exact hc.bare j q hq
  · obtain ⟨-, rfl⟩ | hq := hone hq
    · exact ⟨Nat.lt_of_lt_of_le h.next hnew, hmade⟩
    · exact hc.standIns j q hq
  · obtain ⟨hj, hr₁⟩ | h₁ := hone h₁ <;> obtain ⟨hj', hr₂⟩ | h₂ := hone h₂
    · exact hj.trans hj'.symm
    · exact absurd (hr₁ ▸ hid) (Nat.ne_of_gt (hfresh _ _ h₂))
    · exact absurd (hr₂ ▸ hid) (Nat.ne_of_lt (hfresh _ _ h₁))
    · exact hc.apart j j' r₁ r₂ h₁ h₂ hid

/-- A variable that was made since `b` may be declared without a source. -/
theorem declared (h : InOrder last A b) (hc : InOrder last A c) (himplicit : c.implicit = b.implicit)
    {v : VarDecl} (hnew : b.notes.next ≤ v.info.id) (hmade : v.info.id < c.notes.next)
    (f : CallableDecl) : InOrder last A { c with implicit := c.implicit ++ [(v, f)] } := by
  refine ⟨hc.sight, hc.meant, hc.next, hc.bare, hc.standIns, hc.apart, fun p hp => ?_, ?_⟩
  · obtain hp | hp := List.mem_append.mp hp
    · exact hc.implicit p hp
    · rw [List.mem_singleton.mp hp]
      exact hmade
  · refine List.pairwise_append.mpr ⟨hc.distinct, List.pairwise_singleton _ _, ?_⟩
    intro p hp q hq
    rw [List.mem_singleton.mp hq]
    exact Nat.ne_of_lt (Nat.lt_of_lt_of_le (h.implicit p (himplicit ▸ hp)) hnew)

end InOrder

/-! Steps that only record. -/

/-- A step that only records, and that makes at most `r` nodes. -/
def Records (A : Decl → Prop) (r : Nat) (m : Bind α) : Prop :=
  ∀ b, b.notes.next + r < Annotations.numberCount →
    Ends m b (fun _ c => Recorded A b c ∧ c.notes.next ≤ b.notes.next + r) fun _ _ => True

namespace Records

theorem silent {m : Bind α} (h : Silent m) : Records A 0 m := fun b _ =>
  (h b (.refl b)).mono (fun _ _ hc => ⟨hc.recorded, Nat.le_of_eq hc.notes.next⟩) fun _ _ _ => trivial

theorem bind {m : Bind α} {k : α → Bind β} {r q : Nat} (hm : Records A r m)
    (hk : ∀ a, Records A q (k a)) : Records A (r + q) (m >>= k) := by
  intro b hroom
  rw [Ends.bind_iff]
  refine (hm b (by omega)).mono (fun a c hc => ?_) fun _ _ h => h
  have hnext := hc.2
  refine (hk a c (by omega)).mono (fun _ d hd => ⟨hc.1.trans hd.1, ?_⟩) fun _ _ h => h
  have hnext' := hd.2
  omega

/-- A change of what is known about a node that is not about declarations. -/
theorem update (x : Node) {f : Annotation → Annotation} (hf : ∀ an, (f an).decl = an.decl) :
    Records A 0 (annotate (·.update x f)) := by
  intro b _
  refine (update_ends b x f).mono (fun _ c hc => ?_) fun _ _ _ => trivial
  obtain ⟨notes, hnotes, rfl⟩ := hc
  have hnext := Annotations.next_of_update hnotes
  exact ⟨⟨rfl, rfl, (Annotations.get?_of_update hnotes).1, Nat.le_of_eq hnext.symm,
    fun i d hd => .inl (Annotations.declOf_of_update_same hnotes hf i ▸ hd)⟩, Nat.le_of_eq hnext⟩

theorem bindTo (x : Node) {d : Decl} (hd : A d) : Records A 0 (annotate (·.bind x d)) := by
  intro b _
  refine (update_ends b x _).mono (fun _ c hc => ?_) fun _ _ _ => trivial
  obtain ⟨notes, hnotes, rfl⟩ := hc
  have hnext := Annotations.next_of_update hnotes
  exact ⟨⟨rfl, rfl, (Annotations.get?_of_update hnotes).1, Nat.le_of_eq hnext.symm,
    fun i e he => (Annotations.declOf_of_bound hnotes he).imp_right fun (heq : d = e) => heq ▸ hd⟩,
    Nat.le_of_eq hnext⟩

theorem setConst (x : Node) (type : Option TypeExpr) (v : Constant) :
    Records A 0 (annotate (·.setConst x type v)) := by
  by_cases hfits : v.fits type = true
  · simp only [Annotations.setConst, hfits, if_true]
    exact update x fun _ => rfl
  · simp only [Annotations.setConst, hfits]
    exact fun _ _ => trivial

theorem recordType (e : Expr) (t : Option TypeExpr) : Records A 0 (recordType e t) := by
  cases t with
  | none => exact silent (.pure _)
  | some t => exact update _ fun _ => rfl

theorem noteNonLocal (e ident : Expr) (d : Decl) (place : Nat) :
    Records A 0 (noteNonLocal e ident d place) := by
  refine bind (q := 0) (silent .get) fun b => ?_
  split
  · exact bind (q := 0) (update _ fun _ => rfl) fun _ => update _ fun _ => rfl
  · exact silent (.pure _)

end Records

/-- A new node has the number that is next. -/
theorem newInfo_ends (A : Decl → Prop) (hroom : b.notes.next + 1 < Annotations.numberCount)
    (line : Nat) : Ends (newInfo line) b (fun i c => i.id = b.notes.next ∧
      c.notes.next = b.notes.next + 1 ∧ Recorded A b c) fun _ _ => True := by
  have hnext : ((b.notes.newInfo line).2).next = b.notes.next + 1 := Nat.mod_eq_of_lt hroom
  have hmore : b.notes.next ≤ (b.notes.newInfo line).2.next := by omega
  exact ⟨rfl, hnext, rfl, rfl, rfl, hmore, fun _ _ => .inl⟩

/-- What stands in for a name was made for it. -/
theorem standIn_made (A : Decl → Prop) (hroom : b.notes.next + 1 < Annotations.numberCount)
    (s : Scopes) (ident : NodeInfo) (name : Text) (e : Decl) (called : Bool) :
    Ends (standIn s (.ident ident name) e called) b (fun r c => Recorded A b c ∧
      c.notes.next ≤ b.notes.next + 1 ∧ r.isBare = true ∧
      (r.info = ident ∨ r.info.id = b.notes.next ∧ b.notes.next < c.notes.next)) fun _ _ => True := by
  unfold standIn
  split
  · rw [Ends.bind_iff]
    refine (newInfo_ends A hroom _).mono (fun j c hc => ?_) fun _ _ h => h
    obtain ⟨hj, hnext, hrecorded⟩ := hc
    dsimp only
    rw [Ends.bind_iff]
    refine (Records.recordType (A := A) _ _ c (by omega)).mono (fun _ e he => ?_) fun _ _ h => h
    have hmore := he.1.next
    have hless := he.2
    exact ⟨hrecorded.trans he.1, by omega, rfl, .inr ⟨hj, by omega⟩⟩
  · exact ⟨.refl A b, Nat.le_succ _, rfl, .inl rfl⟩

/-- A reference to a result is made, it refers to what the innermost frame calls the result, and it
replaces the target. -/
theorem rewriteResult_steps {s : Scopes} {a a' : Annotations} {target ref : Expr}
    (h : s.rewriteResult a target = .ok (some (ref, a'))) : ∃ (f : CallableDecl) (b : Annotations),
      ref = .result (a.newInfo target.info.line).1 f.name ∧ b.substitutes = a.substitutes ∧
      b.next = a.newId.2.next ∧ (∀ i d, b.declOf i = some d →
        a.declOf i = some d ∨ s.top.find? "Result" = some d) ∧ a' = b.substitute target ref := by
  unfold Scopes.rewriteResult at h
  split at h
  · cases h
  · rename_i f _
    obtain ⟨a₁, hbind, h⟩ := bind_eq_ok.mp h
    obtain ⟨a₂, htype, h⟩ := bind_eq_ok.mp h
    cases h
    obtain ⟨hsub, hnext, hmeant⟩ : a₁.substitutes = a.substitutes ∧ a₁.next = a.newId.2.next ∧
        ∀ i d, a₁.declOf i = some d →
          a.declOf i = some d ∨ s.top.find? "Result" = some d := by
      cases hd : s.top.find? "Result" with
      | none =>
        rw [hd] at hbind
        cases hbind
        exact ⟨rfl, rfl, fun _ _ => .inl⟩
      | some d =>
        rw [hd] at hbind
        have hbound : a.newId.2.bind (.expr (.result (a.newInfo target.info.line).1 f.name)) d =
            .ok a₁ := hbind
        refine ⟨(Annotations.get?_of_update hbound).1, Annotations.next_of_update hbound,
          fun i e he => ?_⟩
        exact (Annotations.declOf_of_bound hbound he).imp id (congrArg some)
    exact ⟨f, a₂, rfl, (Annotations.get?_of_update htype).1.trans hsub,
      (Annotations.next_of_update htype).trans hnext, fun i d hd => hmeant i d
        (Annotations.declOf_of_update_same htype (fun _ => rfl) i ▸ hd), rfl⟩

/-! Steps that keep all in order. -/

/-- A step that keeps all in order, and that makes at most `r` nodes. -/
def OrderlyWithin (last : Nat) (A : Decl → Prop) (r : Nat) (m : Bind α) : Prop :=
  ∀ b, InOrder last A b → b.notes.next + r < Annotations.numberCount →
    Ends m b (fun _ c => InOrder last A c ∧ c.notes.next ≤ b.notes.next + r) fun _ _ => True

/-- A step about some nodes that keeps all in order, if the constants and members of enumerations
among them are of one kind with all other declarations. It makes at most three nodes for each. -/
def Orderly (last : Nat) (A : Decl → Prop) (m : Bind α) (ns : List Node) : Prop :=
  (∀ d : Decl, d.isValued = false ∨ .decl d ∈ ns → A d) → OrderlyWithin last A (3 * ns.length) m

namespace OrderlyWithin

variable {m : Bind α} {k : α → Bind β} {r q : Nat}

theorem records (h : Records A r m) : OrderlyWithin last A r m := fun b hb hroom =>
  (h b hroom).mono (fun _ _ hc => ⟨hb.recorded hc.1, hc.2⟩) fun _ _ h => h

theorem mono (h : OrderlyWithin last A r m) (hr : r ≤ q) : OrderlyWithin last A q m :=
  fun b hb hroom => (h b hb (by omega)).mono (fun _ _ hc => ⟨hc.1, Nat.le_trans hc.2 (by omega)⟩)
    fun _ _ h => h

theorem bind (hm : OrderlyWithin last A r m) (hk : ∀ a, OrderlyWithin last A q (k a)) :
    OrderlyWithin last A (r + q) (m >>= k) := by
  intro b hb hroom
  rw [Ends.bind_iff]
  refine (hm b hb (by omega)).mono (fun a c hc => ?_) fun _ _ h => h
  have hnext := hc.2
  refine (hk a c hc.1 (by omega)).mono (fun _ e he => ⟨he.1, ?_⟩) fun _ _ h => h
  have hnext' := he.2
  omega

/-- The scopes are changed into others that hold the same kind of declarations. -/
theorem setScopes {f : Scopes → Scopes} (hf : ∀ s : Scopes, s.Holds A → (f s).Holds A) :
    OrderlyWithin last A 0 (do setScopes (f (← getScopes))) :=
  fun b hb _ => ⟨hb.rescoped (hf b.scopes hb.sight), Nat.le_refl _⟩

theorem modifyRoutines (f : List Nat → List Nat) :
    OrderlyWithin last A 0 (modify fun b => { b with routines := f b.routines }) :=
  fun _ hb _ => ⟨hb.rerouted _, Nat.le_refl _⟩

end OrderlyWithin

namespace Orderly

variable {m : Bind α} {k : α → Bind β} {ns ns' : List Node} {r : Nat}

theorem within (h : OrderlyWithin last A r m) (hr : r ≤ 3 * ns.length) : Orderly last A m ns :=
  fun _ => h.mono hr

/-- What is known of declarations without a value may be used. -/
theorem plain (h : (∀ d : Decl, d.isValued = false → A d) → Orderly last A m ns) :
    Orderly last A m ns := fun hA => h (fun d hd => hA d (.inl hd)) hA

theorem silent (h : Silent m) : Orderly last A m ns := within (.records (.silent h)) (Nat.zero_le _)

theorem pure (a : α) : Orderly last A (Pure.pure a : Bind α) ns := silent (.pure a)

theorem throw (e : Breach) : Orderly last A (throw e : Bind α) ns := fun _ _ _ _ => trivial

theorem mono (h : Orderly last A m ns) (hlength : ns.length ≤ ns'.length) (hns : ns ⊆ ns') :
    Orderly last A m ns' :=
  fun hA => (h fun d hd => hA d (hd.imp_right fun h => hns h)).mono (Nat.mul_le_mul_left 3 hlength)

theorem subperm (h : Orderly last A m ns) (hns : ns.Subperm ns') : Orderly last A m ns' :=
  h.mono hns.length_le hns.subset

theorem widen (h : Orderly last A m ns) (hns : ns.Sublist ns') : Orderly last A m ns' :=
  h.subperm hns.subperm

theorem node {x : Node} (h : Orderly last A m ns) : Orderly last A m (x :: ns) :=
  h.widen (List.sublist_cons_self x ns)

theorem of_eq (h : Orderly last A m ns) (hns : ns' = ns) : Orderly last A m ns' := hns ▸ h

theorem bind (hm : Orderly last A m ns) (hk : ∀ a, Orderly last A (k a) ns') :
    Orderly last A (m >>= k) (ns ++ ns') := by
  intro hA
  have hfirst := hm fun d hd => hA d (hd.imp_right (List.mem_append_left _))
  have hsecond (a : α) := hk a fun d hd => hA d (hd.imp_right (List.mem_append_right _))
  exact (hfirst.bind hsecond).mono (by rw [List.length_append]; omega)

/-- A step about no nodes before. -/
theorem ahead (hm : Orderly last A m []) (hk : ∀ a, Orderly last A (k a) ns) :
    Orderly last A (m >>= k) ns := bind hm hk

/-- A step about no nodes behind. -/
theorem behind (hm : Orderly last A m ns) (hk : ∀ a, Orderly last A (k a) []) :
    Orderly last A (m >>= k) ns := (bind hm hk).of_eq (List.append_nil ns).symm

/-- A silent step before. -/
theorem after (hm : Silent m) (hk : ∀ a, Orderly last A (k a) ns) : Orderly last A (m >>= k) ns :=
  ahead (silent hm) hk

/-- A silent step behind. -/
theorem before (hm : Orderly last A m ns) (hk : ∀ a, Silent (k a)) :
    Orderly last A (m >>= k) ns := behind hm fun a => silent (hk a)

theorem discard (hm : Orderly last A m ns) : Orderly last A (Functor.discard m) ns := by
  have h : Functor.discard m = m >>= fun _ => Pure.pure PUnit.unit := by
    rw [bind_pure_comp]
    rfl
  rw [h]
  exact before hm fun _ => .pure _

theorem ite {p : Prop} [Decidable p] {m k : Bind α} (hm : Orderly last A m ns)
    (hk : Orderly last A k ns) : Orderly last A (if p then m else k) ns := by
  split
  · exact hm
  · exact hk

/-- A step for each part in turn. -/
theorem foldlM {γ : Type} {f : β → γ → Bind β} {nodes : γ → List Node}
    (hf : ∀ acc x, Orderly last A (f acc x) (nodes x)) (l : List γ) (acc : β) :
    Orderly last A (l.foldlM f acc) (l.flatMap nodes) := by
  induction l generalizing acc with
  | nil => exact pure _
  | cons x l ih =>
    rw [List.foldlM_cons, List.flatMap_cons]
    exact bind (hf acc x) fun acc => ih acc

theorem forM {γ : Type} {f : γ → Bind PUnit} {nodes : γ → List Node}
    (hf : ∀ x, Orderly last A (f x) (nodes x)) (l : List γ) :
    Orderly last A (l.forM f) (l.flatMap nodes) := by
  induction l with
  | nil => exact pure _
  | cons x l ih =>
    rw [List.flatMap_cons]
    exact bind (hf x) fun _ => ih

/-! Expressions. -/

theorem update {x : Node} {f : Annotation → Annotation} (hf : ∀ an, (f an).decl = an.decl) :
    Orderly last A (annotate (·.update x f)) ns :=
  within (.records (.update x hf)) (Nat.zero_le _)

theorem bindTo (x : Node) {d : Decl} (hd : A d) : Orderly last A (annotate (·.bind x d)) ns :=
  within (.records (.bindTo x hd)) (Nat.zero_le _)

/-- The type of a call is recorded. -/
theorem bindCall (e callee : Expr) : Orderly last A (bindCall e callee) ns := by
  refine after Silent.getNotes fun a => ?_
  split
  · exact after Silent.getScopes fun s => update fun _ => rfl
  · exact pure _

/-- What a name is bound to is in sight. -/
theorem bindIdent (e : Expr) (name : Text) : Orderly last A (bindIdent e name) ns := by
  intro hA b hb hroom
  unfold Binding.bindIdent
  rw [Ends.bind_iff, getNotes_iff]
  split
  · rw [Ends.bind_iff, getScopes_iff]
    split
    · rename_i d hd
      exact (bindTo _ (hb.sight.find? hd) : Orderly last A _ ns) hA b hb hroom
    · exact pure _ hA b hb hroom
  · exact pure _ hA b hb hroom

/-- A name that is found makes an identifier and perhaps a call, one of which stands in for it. -/
theorem resolveName (i : NodeInfo) (name : Text) (called : Bool) :
    Orderly last A (resolveName i name called) [.expr (.name i name)] := by
  intro hA b hb hroom
  have hroom : b.notes.next + 3 < Annotations.numberCount := hroom
  unfold Binding.resolveName
  rw [Ends.bind_iff, getScopes_iff]
  split
  · exact (silent (.unresolved _ _) : Orderly last A _ [.expr (.name i name)]) hA b hb hroom
  · rename_i d place hfound
    have hd : A d := hb.sight.find? (by rw [Scopes.find?, hfound]; rfl)
    rw [Ends.bind_iff]
    refine (newInfo_ends A (by omega) _).mono (fun j c hc => ?_) fun _ _ h => h
    obtain ⟨hj, hnext, hmade⟩ := hc
    have hnoted : Records A 0 (do
        annotate (·.bind (.expr (.ident j name)) d)
        annotate (·.bind (.expr (.name i name)) d)
        recordType (.ident j name) (typeOfDecl b.scopes d)
        noteNonLocal (.name i name) (.ident j name) d place) :=
      .bind (q := 0) (.bindTo _ hd) fun _ => .bind (q := 0) (.bindTo _ hd) fun _ =>
        .bind (q := 0) (.recordType _ _) fun _ => .noteNonLocal _ _ _ _
    have hends := hnoted c (by omega)
    simp only [Ends.bind_iff] at hends ⊢
    refine hends.mono (fun _ c₁ hc₁ => ?_) fun _ _ h => h
    refine hc₁.mono (fun _ c₂ hc₂ => ?_) fun _ _ h => h
    refine hc₂.mono (fun _ c₃ hc₃ => ?_) fun _ _ h => h
    refine hc₃.mono (fun _ c₄ hc₄ => ?_) fun _ _ h => h
    obtain ⟨hrecorded, hless⟩ := hc₄
    have hmore := hrecorded.next
    refine (standIn_made A (by omega) _ _ _ _ _).mono (fun r c₅ hc₅ => ?_) fun _ _ h => h
    obtain ⟨hstood, hless', hbare, hr⟩ := hc₅
    have hmore' := hstood.next
    refine ⟨hb.substituted ((hmade.trans hrecorded).trans hstood) _ hbare ?_ ?_, ?_⟩
    · obtain hr | hr := hr
      · rw [hr]
        omega
      · omega
    · obtain hr | hr := hr
      · rw [hr]
        omega
      · omega
    · change c₅.notes.next ≤ _
      rw [List.length_singleton]
      omega

end Orderly
end Binding
end ObjectPascal
