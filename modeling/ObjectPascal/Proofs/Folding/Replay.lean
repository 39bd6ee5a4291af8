import ObjectPascal.Proofs.Folding.Meaning

/-!
Folding again. Folding records nothing but what expressions mean, so it finds the same whenever it
is repeated, as long as each expression that it comes to has a number of its own. And then it
records nothing that is not there already.
-/

namespace ObjectPascal

/-- The operator of an expression with two operands. -/
def Expr.operator? : Expr → Option BinaryOp
  | .binary _ op _ _ => some op
  | _ => none

namespace Annotations

variable {a b c d : Annotations} {n : Node} {e : Expr}

/-- The same is recorded about every node. -/
structure Alike (a b : Annotations) : Prop where
  get? : ∀ i, b.get? i = a.get? i
  substitutes : b.substitutes = a.substitutes
  next : b.next = a.next
  origin : b.origin = a.origin

theorem Alike.refl (a : Annotations) : a.Alike a := ⟨fun _ => rfl, rfl, rfl, rfl⟩

theorem Alike.trans (h : a.Alike b) (k : b.Alike c) : a.Alike c :=
  ⟨fun i => (k.get? i).trans (h.get? i), k.substitutes.trans h.substitutes, k.next.trans h.next,
    k.origin.trans h.origin⟩

theorem Alike.valueOf (h : a.Alike b) (i : NodeInfo) : b.valueOf i = a.valueOf i := by
  rw [Annotations.valueOf, h.get?, Annotations.valueOf]

theorem Alike.typeOf (h : a.Alike b) (i : NodeInfo) : b.typeOf i = a.typeOf i := by
  rw [Annotations.typeOf, h.get?, Annotations.typeOf]

theorem Alike.spared (h : a.Alike b) : Folding.Spared a b where
  substitutes := h.substitutes
  kept i _ hv := ⟨(h.valueOf i).trans hv, h.typeOf i⟩
  declOf i := by rw [Annotations.declOf, h.get?, Annotations.declOf]
  nonLocal i := by rw [isNonLocal, h.get?, isNonLocal]
  next := h.next

/-- A change that changes nothing. -/
theorem alike_of_update {f : Annotation → Annotation} (h : a.update n f = .ok b)
    {an : Annotation} (hget : a.get? n.info = some an) (hf : f an = an) : a.Alike b := by
  refine ⟨fun i => ?_, (get?_of_update h).1, next_of_update h, ?_⟩
  · rw [(get?_of_update h).2]
    split
    · rename_i hi
      have hi : a.get? i = some an := by rw [← hget, Annotations.get?, Annotations.get?, hi]
      rw [hi, Option.getD_some, hf]
    · rfl
  · unfold update at h
    split at h
    · cases h
    · cases h
      rfl

/-- The operator that is recorded for an expression. -/
def signOf (a : Annotations) (e : Expr) : Option BinaryOp := (a.get? e.info).bind (·.op)

end Annotations

namespace Folding

open Annotations

variable {α β : Type} {s : Scopes} {a σ σ' σ₁ τ : Annotations} {U : Expr → Prop}
  {S : List NodeInfo} {e x y : Expr} {b c d : Annotations}

/-- Expressions that folding does not leave. Each has a number of its own, which is no number of a
member of an enumeration; and constants can be told apart. -/
structure Enclosed (a : Annotations) (U : Expr → Prop) : Prop where
  bare : a.Bare
  operands : ∀ e, U e → ∀ x ∈ e.operands, U x
  standIns : ∀ (k : Nat) (e : Expr), a.substitutes[k]? = some e → U e
  values : ∀ i d v, a.declOf i = some (.const d) → d.value = some v → U v
  apart : ∀ e f, U e → U f → e.info.id = f.info.id → e = f
  members : ∀ i m e, a.declOf i = some (.enumMember m) → U e → e.info.id ≠ m.info.id
  consts : ∀ i j c d, a.declOf i = some (.const c) → a.declOf j = some (.const d) →
    c.info = d.info → c = d

theorem Enclosed.effective (ha : Enclosed a U) (he : U e) : U (a.effective e) := by
  have hwithin (n : Nat) : U (a.effectiveWithin n e) := by
    induction n generalizing e with
    | zero => exact he
    | succ n ih =>
      rw [effectiveWithin]
      split
      · exact he
      · exact ih (ha.standIns _ _ ‹_›)
  exact hwithin 8

/-- What is recorded since `a` is what expressions mean, and it is recorded about nothing else. -/
structure Faithful (s : Scopes) (a : Annotations) (U : Expr → Prop) (σ : Annotations) : Prop
    extends Spared a σ where
  told : ∀ e, U e → ∀ v, σ.valueOf e.info = some v → Means s a e (.ok (some (σ.typeOf e.info, v)))
  rest : ∀ i : NodeInfo, (∀ e, U e → e.info.id ≠ i.id) → σ.get? i = a.get? i

theorem Faithful.refl (s : Scopes) (a : Annotations) (U : Expr → Prop) : Faithful s a U a :=
  ⟨.refl a, fun _ _ _ => means_of_valueOf, fun _ _ => rfl⟩

theorem Faithful.sameNames (h : Faithful s a U σ) : a.SameNames σ := h.toSpared.sameNames

theorem Faithful.effective (h : Faithful s a U σ) (e : Expr) : σ.effective e = a.effective e :=
  h.sameNames.effective e

theorem Faithful.valueOf_eq_none (h : Faithful s a U σ) {i : NodeInfo} (hi : σ.valueOf i = none) :
    a.valueOf i = none := by
  cases hv : a.valueOf i with
  | none => rfl
  | some v =>
    rw [(h.kept i v hv).1] at hi
    cases hi

theorem Faithful.alike (h : Faithful s a U σ) (k : σ.Alike τ) : Faithful s a U τ where
  toSpared := h.toSpared.trans k.spared
  told e he v hv := by
    rw [k.valueOf] at hv
    rw [k.typeOf]
    exact h.told e he v hv
  rest i hi := (k.get? i).trans (h.rest i hi)

/-- Values stay with their types, and so do the operators that are recorded for expressions as
those of signed numbers. -/
structure Covers (U : Expr → Prop) (b c : Annotations) : Prop extends b.Extends c where
  ops : ∀ e op, U e → e.operator? = some op → b.signOf e = some op.signed →
    c.signOf e = some op.signed

theorem Covers.refl (U : Expr → Prop) (b : Annotations) : Covers U b b :=
  ⟨.refl b, fun _ _ _ _ h => h⟩

theorem Covers.trans (h : Covers U b c) (k : Covers U c d) : Covers U b d :=
  ⟨h.toExtends.trans k.toExtends, fun e op he hop hb => k.ops e op he hop (h.ops e op he hop hb)⟩

theorem Covers.of_alike (h : b.Alike c) : Covers U b c where
  toExtends := h.spared.toExtends
  ops e op _ _ hb := by rwa [signOf, h.get?]

/-- What an expression means is recorded for it. Where it is recorded already nothing changes. -/
theorem Faithful.setConst (ha : Enclosed a U) (h : Faithful s a U σ) (he : U e)
    {t : Option TypeExpr} {v : Constant} (hv : Means s a e (.ok (some (t, v))))
    (hset : σ.setConst (.expr e) t v = .ok τ) :
    Faithful s a U τ ∧ Covers U σ τ ∧ τ.valueOf e.info = some v := by
  have hupdate := update_of_setConst hset
  have htype : τ.typeOf e.info = t := typeOf_of_setConst hset
  have hself : τ.valueOf e.info = some v := by
    rw [valueOf, (get?_of_update hupdate).2]
    exact congrArg (Option.bind · _) (if_pos rfl)
  have hother {i : NodeInfo} (hi : e.info.id ≠ i.id) : τ.get? i = σ.get? i := by
    rw [(get?_of_update hupdate).2]
    exact if_neg hi
  have hsame {i : NodeInfo} (hi : e.info.id = i.id) (b : Annotations) : b.get? i = b.get? e.info := by
    rw [Annotations.get?, Annotations.get?, hi]
  have hextends : σ.Extends τ := by
    refine ⟨(get?_of_update hupdate).1, fun i w hw => ?_⟩
    by_cases hi : e.info.id = i.id
    · rw [valueOf, hsame hi] at hw
      have htold := (h.told e he w hw).unique hv
      rw [valueOf, hsame hi, Annotations.typeOf, hsame hi, Annotations.typeOf, hsame hi]
      cases htold
      exact ⟨hself, htype⟩
    · rw [valueOf, hother hi, Annotations.typeOf, hother hi]
      exact ⟨hw, rfl⟩
  have hspared : Spared σ τ := ⟨hextends, declOf_of_update_same hupdate fun _ => rfl,
    isNonLocal_of_update_same hupdate fun _ => rfl, next_of_update hupdate⟩
  refine ⟨⟨h.toSpared.trans hspared, fun f hf w hw => ?_, fun i hi => ?_⟩,
    ⟨hextends, fun f op hf hop hs => ?_⟩, hself⟩
  · by_cases hid : e.info.id = f.info.id
    · obtain rfl := ha.apart e f he hf hid
      rw [hself] at hw
      rw [htype, ← Option.some.inj hw]
      exact hv
    · rw [valueOf, hother hid] at hw
      rw [Annotations.typeOf, hother hid]
      exact h.told f hf w hw
  · rw [hother (hi e he)]
    exact h.rest i hi
  · rw [signOf, (get?_of_update hupdate).2]
    split
    · rename_i hid
      obtain rfl := ha.apart e f he hf hid
      obtain ⟨an, han, hsign⟩ := Option.bind_eq_some_iff.mp hs
      rw [han]
      exact hsign
    · exact hs

/-- A comparison is recorded as one of signed numbers. -/
theorem Faithful.refine (ha : Enclosed a U) (h : Faithful s a U σ) (he : U e) {op : BinaryOp}
    (hop : e.operator? = some op) (hrefine : σ.refine e op.signed = .ok τ) :
    Faithful s a U τ ∧ Covers U σ τ ∧ τ.signOf e = some op.signed := by
  have hsign : τ.signOf e = some op.signed := by
    rw [signOf, (get?_of_update hrefine).2]
    exact congrArg (Option.bind · _) (if_pos rfl)
  have hget {i : NodeInfo} (hi : e.info.id ≠ i.id) : τ.get? i = σ.get? i := by
    rw [(get?_of_update hrefine).2]
    exact if_neg hi
  -- values and types are left as they are, also those of the expression
  have hsame (i : NodeInfo) : τ.valueOf i = σ.valueOf i ∧ τ.typeOf i = σ.typeOf i := by
    rw [valueOf, Annotations.typeOf, (get?_of_update hrefine).2]
    split
    · rw [valueOf, Annotations.typeOf]
      cases σ.get? i <;> exact ⟨rfl, rfl⟩
    · exact ⟨rfl, rfl⟩
  refine ⟨⟨h.toSpared.trans (.of_refine hrefine), fun f hf w hw => ?_, fun i hi => ?_⟩,
    ⟨extends_of_refine hrefine, fun f op' hf hop' hs => ?_⟩, hsign⟩
  · rw [(hsame f.info).1] at hw
    rw [(hsame f.info).2]
    exact h.told f hf w hw
  · rw [hget (hi e he)]
    exact h.rest i hi
  · by_cases hid : e.info.id = f.info.id
    · obtain rfl := ha.apart e f he hf hid
      rw [hop] at hop'
      rw [hsign, Option.some.inj hop']
    · rw [signOf, hget hid]
      exact hs

/-! Steps that can be repeated. -/

/-- A fold ends so, and wherever what it recorded is kept it ends in the same way and records
nothing new. -/
structure Repeats (s : Scopes) (a : Annotations) (U : Expr → Prop) (m : Fold α) (σ : Annotations)
    (r : Except Stop α) (σ' : Annotations) : Prop where
  run : m.run.run σ = (r, σ')
  faithful : Faithful s a U σ'
  covers : Covers U σ σ'
  again : ∀ τ, Faithful s a U τ → Covers U σ' τ → ∃ τ', m.run.run τ = (r, τ') ∧ τ.Alike τ'

namespace Repeats

variable {m k : Fold α} {f : α → Fold β}

theorem pure (h : Faithful s a U σ) (r : α) : Repeats s a U (Pure.pure r) σ (.ok r) σ :=
  ⟨rfl, h, .refl U σ, fun τ _ _ => ⟨τ, rfl, .refl τ⟩⟩

theorem throw (h : Faithful s a U σ) (stop : Stop) :
    Repeats s a U (throw stop : Fold α) σ (.error stop) σ :=
  ⟨rfl, h, .refl U σ, fun τ _ _ => ⟨τ, rfl, .refl τ⟩⟩

/-- Folds that do the same wherever they can be repeated. -/
theorem of_same (hsame : ∀ τ, Faithful s a U τ → Covers U σ τ → m.run.run τ = k.run.run τ)
    (hσ : Faithful s a U σ) {r : Except Stop α} (h : Repeats s a U k σ r σ') :
    Repeats s a U m σ r σ' :=
  ⟨(hsame σ hσ (.refl U σ)).trans h.run, h.faithful, h.covers, fun τ hτ hcovers => by
    rw [hsame τ hτ (h.covers.trans hcovers)]
    exact h.again τ hτ hcovers⟩

theorem bind {r₁ : α} {r : Except Stop β} (h : Repeats s a U m σ (.ok r₁) σ₁)
    (hf : Repeats s a U (f r₁) σ₁ r σ') : Repeats s a U (m >>= f) σ r σ' := by
  refine ⟨?_, hf.faithful, h.covers.trans hf.covers, fun τ hτ hcovers => ?_⟩
  · rw [ExceptT.run_bind, StateT.run_bind, h.run]
    exact hf.run
  · obtain ⟨τ₁, hrun, halike⟩ := h.again τ hτ (hf.covers.trans hcovers)
    obtain ⟨τ', hrun', halike'⟩ := hf.again τ₁ (hτ.alike halike)
      (hcovers.trans (.of_alike halike))
    refine ⟨τ', ?_, halike.trans halike'⟩
    rw [ExceptT.run_bind, StateT.run_bind, hrun]
    exact hrun'

theorem bind_error {stop : Stop} (h : Repeats s a U m σ (.error stop) σ') :
    Repeats s a U (m >>= f) σ (.error stop) σ' := by
  refine ⟨?_, h.faithful, h.covers, fun τ hτ hcovers => ?_⟩
  · rw [ExceptT.run_bind, StateT.run_bind, h.run]
    rfl
  · obtain ⟨τ', hrun, halike⟩ := h.again τ hτ hcovers
    refine ⟨τ', ?_, halike⟩
    rw [ExceptT.run_bind, StateT.run_bind, hrun]
    rfl

/-- A fold whose next step does not change anything. -/
theorem silent {r₁ : α} (hsilent : ∀ τ, Faithful s a U τ → Covers U σ τ →
      m.run.run τ = (.ok r₁, τ)) (hσ : Faithful s a U σ) {r : Except Stop β}
    (hf : Repeats s a U (f r₁) σ r σ') : Repeats s a U (m >>= f) σ r σ' :=
  of_same (fun τ hτ hcovers => by
    rw [ExceptT.run_bind, StateT.run_bind, hsilent τ hτ hcovers]
    rfl) hσ hf

end Repeats

theorem run_of_ok {m : Fold α} {f : α → Fold β} {r : α} (h : m.run.run σ = (.ok r, τ)) :
    (m >>= f).run.run σ = (f r).run.run τ := by
  rw [ExceptT.run_bind, StateT.run_bind, h]
  rfl

theorem run_typeOf (e : Expr) (τ : Annotations) :
    (typeOf e).run.run τ = (.ok (τ.typeOf (τ.effective e).info), τ) := rfl

theorem run_declOf (h : a.SameNames τ) (e : Expr) :
    (declOf e).run.run τ = (.ok (a.declOf (a.effective e).info), τ) := by
  rw [← h.effective, ← h.declOf]
  rfl

theorem run_typeArg (h : a.SameNames τ) (e : Expr) :
    (typeArg s e).run.run τ = (.ok (typeNamed s a e), τ) := by
  unfold typeArg typeNamed
  rw [run_of_ok (run_declOf h e)]
  obtain _ | d := a.declOf (a.effective e).info
  · rfl
  · cases d <;> rfl

/-- The type of what has a value stays the same. -/
theorem Repeats.typeOf (hσ : Faithful s a U σ) {v : Constant}
    (hv : σ.valueOf (a.effective e).info = some v) {f : Option TypeExpr → Fold β}
    {r : Except Stop β} (hf : Repeats s a U (f (σ.typeOf (a.effective e).info)) σ r σ') :
    Repeats s a U (typeOf e >>= f) σ r σ' :=
  .silent (fun τ hτ hcovers => by
    rw [run_typeOf, hτ.effective, (hcovers.kept _ _ hv).2]) hσ hf

end Folding
end ObjectPascal
