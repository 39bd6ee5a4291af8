import ObjectPascal.Folding.Fold
import ObjectPascal.Proofs.Annotations
import ObjectPascal.Proofs.Constant
import ObjectPascal.Proofs.Effect

/-!
Folding touches annotations only, and it only adds to them: a value that is recorded stays, with its
type. What it finds for an expression is recorded there, and it fits its type as long as all
recorded values fit theirs. So the rules that folding can break are those about nodes without a
number, and those about values and types once some recorded value does not fit.
-/

namespace ObjectPascal

/-- A frame is left that should not be, or not where it was entered. -/
def Breach.OfFrames : Breach → Prop
  | .bottomLeft | .methodDepth .. | .methodFrame .. => True
  | _ => False

/-- A breach that can come about, and only for a reason if it is about a constant value. -/
def Breach.Needs (reason : Prop) : Breach → Prop
  | .unnumbered _ | .unexpectedDecl _ | .endless => True
  | .unfit .. | .noIntegralValue _ => reason
  | .noIntegralType _ | .range _ | .bottomLeft | .methodDepth .. | .methodFrame .. => False

theorem Breach.Needs.not_ofFrames {e : Breach} {reason : Prop} (h : e.Needs reason) :
    ¬e.OfFrames := by
  cases e <;> first | exact id | exact h.elim

theorem Breach.Needs.imp {e : Breach} {reason reason' : Prop} (h : e.Needs reason)
    (hr : reason → reason') : e.Needs reason' := by
  cases e <;> first | exact h | exact hr h

namespace Annotations

variable {a b c : Annotations} {n : Node} {e : Breach} {reason : Prop}

/-- Some recorded value does not fit the type that is recorded with it. -/
def Unfit (a : Annotations) : Prop :=
  ∃ (n : NodeInfo) (v : Constant), a.valueOf n = some v ∧ v.fits (a.typeOf n) = false

theorem fits_of_valueOf {n : NodeInfo} {v : Constant} (h : a.valueOf n = some v) (ha : ¬a.Unfit) :
    v.fits (a.typeOf n) = true := by
  cases hv : v.fits (a.typeOf n) with
  | true => rfl
  | false => exact absurd ⟨n, v, h, hv⟩ ha

/-- The same annotations with more: nothing stands in for another expression than before, and each
recorded value stays with its type. -/
structure Extends (a b : Annotations) : Prop where
  substitutes : b.substitutes = a.substitutes
  kept : ∀ n v, a.valueOf n = some v → b.valueOf n = some v ∧ b.typeOf n = a.typeOf n

theorem Extends.refl (a : Annotations) : a.Extends a := ⟨rfl, fun _ _ h => ⟨h, rfl⟩⟩

theorem Extends.trans (h : a.Extends b) (k : b.Extends c) : a.Extends c := by
  refine ⟨k.substitutes.trans h.substitutes, fun n v hv => ?_⟩
  obtain ⟨hb, htype⟩ := h.kept n v hv
  obtain ⟨hc, htype'⟩ := k.kept n v hb
  exact ⟨hc, htype'.trans htype⟩

theorem effective_congr (h : b.substitutes = a.substitutes) (x : Expr) :
    b.effective x = a.effective x := by
  have hwithin (k : Nat) (x : Expr) : b.effectiveWithin k x = a.effectiveWithin k x := by
    induction k generalizing x with
    | zero => rfl
    | succ k ih => simp only [effectiveWithin, h, ih]
  exact hwithin 8 x

theorem effective_of_not_contains {x : Expr} (h : a.substitutes.contains x.info.id = false) :
    a.effective x = x := by
  have hnone : a.substitutes[x.info.id]? = none := by
    rw [← Option.not_isSome_iff_eq_none, Std.TreeMap.isSome_getElem?_eq_contains, h]
    simp
  rw [effective, effectiveWithin, hnone]

theorem breach_of_update {f : Annotation → Annotation} (h : a.update n f = .error e) :
    e.Needs reason := by
  unfold update at h
  split at h
  · cases h
    trivial
  · cases h

theorem breach_of_bindFound {d : Option Decl} (h : a.bindFound n d = .error e) :
    e.Needs reason := by
  cases d with
  | none => cases h
  | some d =>
    have hbind : a.bind n d = .error e := h
    exact breach_of_update hbind

theorem breach_of_setConst {type : Option TypeExpr} {v : Constant}
    (h : a.setConst n type v = .error e) (hv : v.fits type = false → reason) :
    e.Needs reason := by
  unfold setConst at h
  split at h
  · exact breach_of_update h
  · cases h
    exact hv (Bool.eq_false_iff.mpr ‹_›)

/-- A value is recorded for a node that has none yet. -/
theorem extends_of_setConst {a₀ : Annotations} {type : Option TypeExpr} {v : Constant}
    (ha : a₀.Extends a) (hnone : a₀.valueOf n.info = none) (h : a.setConst n type v = .ok b) :
    a₀.Extends b ∧ b.valueOf n.info = some v := by
  unfold setConst at h
  split at h
  · obtain ⟨hsub, hget⟩ := get?_of_update h
    refine ⟨⟨hsub.trans ha.substitutes, fun m w hw => ?_⟩, by simp [valueOf, hget]⟩
    have hne : n.info.id ≠ m.id := by
      intro heq
      have hsame : a₀.valueOf n.info = a₀.valueOf m := by simp [valueOf, get?, heq]
      rw [hsame, hw] at hnone
      cases hnone
    simpa [valueOf, typeOf, hget, hne] using ha.kept m w hw
  · cases h

theorem extends_of_refine {x : Expr} {op : BinaryOp} (h : a.refine x op = .ok b) :
    a.Extends b := by
  obtain ⟨hsub, hget⟩ := get?_of_update h
  refine ⟨hsub, fun m w hw => ?_⟩
  simp only [valueOf, typeOf, hget]
  split
  · obtain ⟨an, han, hconst⟩ := Option.bind_eq_some_iff.mp hw
    simp [han, hconst]
  · exact ⟨hw, rfl⟩

/-- An expression with an ordinal type and a value that is not ordinal has a value that does not fit
its type. -/
theorem breach_of_integralOf {x : Expr} {v : Constant} {t : TypeExpr}
    (ht : a.typeOf (a.effective x).info = some t) (ho : t.isOrdinal = true)
    (hv : a.valueOf (a.effective x).info = some v) (h : a.integralOf x = .error e) :
    e.Needs a.Unfit := by
  obtain ⟨an, han, htype⟩ := Option.bind_eq_some_iff.mp ht
  have hconst : an.const = some v := by simpa [valueOf, han] using hv
  simp only [integralOf, han, htype, Option.map_some, ho, Option.getD_some, ↓reduceIte,
    hconst] at h
  split at h
  · cases h
  · rename_i hne
    cases h
    refine ⟨_, v, hv, ?_⟩
    have hsort : t.valueSort = .integral := by simpa [TypeExpr.isOrdinal] using ho
    cases v with
    | integral i => exact absurd rfl (hne i)
    | string _ => simp [Constant.fits, ht, hsort, Constant.sort]
    | real _ => simp [Constant.fits, ht, hsort, Constant.sort]

end Annotations

namespace Folding

variable {α β : Type} {s : Scopes}

/-- Where folding ends early with a breach, some value does not fit its type if the breach is about
a value. -/
def Broken (s : Scopes) (stop : Stop) (a : Annotations) : Prop :=
  ∀ e, stop = .breach e → e.Needs (s.Standard → a.Unfit)

/-- A fold that only adds to the annotations. -/
abbrev Adds (s : Scopes) (m : Fold α) : Prop :=
  Keeps Annotations.Extends (fun stop _ b => Broken s stop b) m

/-- A fold whose result, if there is one, is the recorded value of a node. -/
def Records (s : Scopes) (n : NodeInfo) (m : Fold (Option Constant)) (a : Annotations) : Prop :=
  Ends m a (fun v b => a.Extends b ∧ ∀ w, v = some w → b.valueOf n = some w) (Broken s)

/-- A fold whose result, if there is one, is the recorded value of what stands in for an
expression. -/
def Finds (s : Scopes) (e : Expr) (m : Fold (Option Constant)) : Prop :=
  ∀ a, Records s (a.effective e).info m a

/-- A fold whose result fits its type if all recorded values fit theirs. -/
def Fitting (s : Scopes) (m : Fold (Option Typed)) (a : Annotations) : Prop :=
  Ends m a (fun x b => a.Extends b ∧ (s.Standard → ¬b.Unfit → ∀ y, x = some y → Fits y)) (Broken s)

instance : Composes Annotations.Extends (fun stop (_ b : Annotations) => Broken s stop b) where
  trans := .trans
  reached _ := .refl _
  broken _ h := h

theorem broken_complaint (c : Complaint) (a : Annotations) : Broken s (.complaint c) a :=
  fun _ h => nomatch h

theorem broken_breach {e : Breach} {a : Annotations} (h : e.Needs (s.Standard → a.Unfit)) :
    Broken s (.breach e) a := by
  intro e' he
  cases he
  exact h

/-- What is found stays recorded while more is added. -/
theorem Finds.ends {e : Expr} {m : Fold (Option Constant)} (hm : Finds s e m) (a : Annotations) :
    Ends m a (fun v b => a.Extends b ∧ ∀ w, v = some w → ∀ c, b.Extends c →
      c.valueOf (c.effective e).info = some w) (Broken s) := by
  refine (hm a).mono (fun v b hb => ⟨hb.1, fun w hw c hc => ?_⟩) fun _ _ h => h
  rw [Annotations.effective_congr (hb.1.trans hc).substitutes]
  exact (hc.kept _ _ (hb.2 w hw)).1

theorem Finds.adds {e : Expr} {m : Fold (Option Constant)} (hm : Finds s e m) : Adds s m :=
  fun a _ => (hm a).mono (fun _ _ h => h.1) fun _ _ h => h

/-! Steps that add to the annotations. -/

namespace Adds

variable {a : Annotations}

/-- A fold goes on from where its first part has led. -/
theorem goesOn {m : Fold α} {f : α → Fold β} {Q : β → Annotations → Prop} (hm : Adds s m)
    (hf : ∀ r b, a.Extends b → Ends (f r) b Q (Broken s)) : Ends (m >>= f) a Q (Broken s) := by
  rw [Ends.bind_iff]
  exact (hm a (.refl a)).mono (fun r b hb => hf r b hb) fun _ _ h => h

theorem declOf (e : Expr) : Adds s (Folding.declOf e) := .bind .get fun _ => .pure _

theorem typeArg (e : Expr) : Adds s (Folding.typeArg s e) := by
  refine .bind (declOf e) fun d => ?_
  split <;> exact .pure _

end Adds

theorem typeOf_iff {e : Expr} {a : Annotations} {Q : Option TypeExpr → Annotations → Prop}
    {E : Stop → Annotations → Prop} :
    Ends (typeOf e) a Q E ↔ Q (a.typeOf (a.effective e).info) a := Iff.rfl

/-! Results that fit their types. -/

namespace Fitting

variable {a b : Annotations}

theorem nothing : Fitting s (pure none) a := ⟨.refl a, fun _ _ _ h => nomatch h⟩

theorem of_forall {x : Option Typed} (h : s.Standard → ¬a.Unfit → ∀ y, x = some y → Fits y) :
    Fitting s (pure x) a := ⟨.refl a, h⟩

theorem ofStandard {x : Typed} (h : s.Standard → Fits x) : Fitting s (pure (some x)) a :=
  of_forall fun hs _ y hy => by
    cases hy
    exact h hs

/-- What is found from an extended state on is found from the first state on. -/
theorem from_extended {m : Fold (Option Typed)} (h : a.Extends b) (hm : Fitting s m b) :
    Ends m b (fun x c => a.Extends c ∧ (s.Standard → ¬c.Unfit → ∀ y, x = some y → Fits y))
      (Broken s) :=
  hm.mono (fun _ _ hc => ⟨h.trans hc.1, hc.2⟩) fun _ _ h => h

theorem bind {m : Fold α} {k : α → Fold (Option Typed)} (hm : Adds s m)
    (hk : ∀ r b, Fitting s (k r) b) : Fitting s (m >>= k) a :=
  hm.goesOn fun r b hb => from_extended hb (hk r b)

theorem bind_typeOf {e : Expr} {k : Option TypeExpr → Fold (Option Typed)}
    (hk : Fitting s (k (a.typeOf (a.effective e).info)) a) :
    Fitting s (Folding.typeOf e >>= k) a := hk

/-- A fold of an operand and what follows, which may use that the value of the operand is
recorded. -/
theorem bind_found {e : Expr} {m : Fold (Option Constant)}
    {k : Option Constant → Fold (Option Typed)} (hm : Finds s e m)
    (hnone : ∀ b, Fitting s (k none) b)
    (hsome : ∀ v b, a.Extends b → (∀ c, b.Extends c → c.valueOf (c.effective e).info = some v) →
      Fitting s (k (some v)) b) : Fitting s (m >>= k) a := by
  unfold Fitting
  rw [Ends.bind_iff]
  refine (hm.ends a).mono (fun v b hb => from_extended hb.1 ?_) fun _ _ h => h
  cases v with
  | none => exact hnone b
  | some v => exact hsome v b hb.1 (hb.2 v rfl)

end Fitting

section Steps

variable {again : Elsewhere} {active : List NodeInfo} {a : Annotations}

theorem fitting_named (ha : ∀ active e, Finds s e (again active e)) (e : Expr) :
    Fitting s (named again active e) a := by
  refine .bind .get fun _ b => ?_
  split
  · split
    · exact .nothing
    · split
      · exact .nothing
      · refine .bind_found (ha _ _) (fun _ => .nothing) fun v b _ hv => ?_
        refine .bind_typeOf (.of_forall fun _ hfit y hy => ?_)
        cases hy
        exact Annotations.fits_of_valueOf (hv b (.refl b)) hfit
  · refine .of_forall fun _ hfit y hy => ?_
    obtain ⟨v, hv, rfl⟩ := Option.map_eq_some_iff.mp hy
    exact Annotations.fits_of_valueOf hv hfit
  · exact .nothing

theorem fitting_comparison (e : Expr) (op : BinaryOp) (l r : Constant) :
    Fitting s (comparison s e op l r) a := by
  have htruth (b : Annotations) :
      Fitting s (pure ((l.compare? r).map fun o => truth s (op.holds o))) b := by
    refine .of_forall fun hs _ y hy => ?_
    obtain ⟨o, -, rfl⟩ := Option.map_eq_some_iff.mp hy
    exact fits_truth hs _
  have hrecord : Adds s (record (·.refine e op.signed)) := by
    intro a _
    unfold record
    rw [Ends.bind_iff, Ends.get_iff]
    split
    · exact Annotations.extends_of_refine ‹_›
    · exact broken_breach (Annotations.breach_of_update ‹_›)
  unfold comparison
  split
  · split
    · exact .bind hrecord fun _ b => htruth b
    · exact htruth _
  · exact htruth _

theorem fitting_binary (e : Expr) (op : BinaryOp) {lt : Option TypeExpr} (rt : Option TypeExpr)
    {l : Constant} (r : Constant) (hl : ¬a.Unfit → l.fits lt = true) :
    Fitting s (binary s e op lt rt l r) a := by
  have harith : Fitting s (given (arithmetic s op lt rt l r)) a := by
    unfold given
    split
    · exact .of_forall fun hs hfit y hy => by
        cases hy
        exact fits_arithmetic hs (hl hfit) ‹_›
    · exact broken_complaint _ _
  unfold binary
  split
  · exact fitting_comparison e op l r
  · exact harith
  · exact harith
  · exact .nothing
  · exact .nothing

theorem fitting_call (callee arg : Expr) {folded : Fold (Option Constant)}
    (hf : Finds s arg folded) : Fitting s (call s callee arg folded) a := by
  refine .bind (.declOf callee) fun d b => ?_
  split
  · split
    · exact .nothing
    · dsimp only
      split
      · refine .bind (.typeArg arg) fun t b => ?_
        split
        · exact .nothing
        · exact .ofStandard fun hs => fits_literal hs _
      · split
        · refine .bind (.typeArg arg) fun t b => ?_
          refine .of_forall fun _ _ y hy => ?_
          obtain ⟨t, -, ht⟩ := Option.bind_eq_some_iff.mp hy
          exact fits_bound ht
        · refine .bind_found hf (fun _ => .nothing) fun v b _ hv => ?_
          exact .bind_typeOf (.of_forall fun hs hfit y hy =>
            fits_function hs (Annotations.fits_of_valueOf (hv b (.refl b)) hfit) hy)
  · exact .nothing

theorem records_recorded (e : Expr) {eval : Fold (Option Typed)} (he : ∀ a, Fitting s eval a) :
    Records s e.info (recorded e eval) a := by
  unfold Records recorded
  rw [Ends.bind_iff, Ends.get_iff]
  split
  · rename_i v hv
    exact ⟨.refl a, fun w hw => hw ▸ hv⟩
  · rename_i hnone
    rw [Ends.bind_iff]
    refine (he a).mono (fun x b hb => ?_) fun _ _ h => h
    obtain ⟨hab, hfits⟩ := hb
    split
    · exact ⟨hab, fun _ h => nomatch h⟩
    · rename_i type v
      unfold record
      rw [Ends.bind_iff, Ends.bind_iff, Ends.get_iff]
      split
      · rename_i c hc
        obtain ⟨hac, hv⟩ := Annotations.extends_of_setConst (n := .expr e) hab hnone hc
        exact ⟨hac, fun w hw => hw ▸ hv⟩
      · rename_i e' he'
        refine broken_breach (Annotations.breach_of_setConst he' fun hunfit hs => ?_)
        -- a value that does not fit comes from values that do not
        refine Classical.byContradiction fun hfit => ?_
        have hv : v.fits type = true := hfits hs hfit _ rfl
        rw [hv] at hunfit
        cases hunfit

theorem finds_part (ha : ∀ active e, Finds s e (again active e)) (e : Expr)
    {itself : Fold (Option Constant)} (hi : ∀ a, Records s e.info itself a) :
    Finds s e (part again active e itself) := by
  intro a
  unfold Records part
  rw [Ends.bind_iff, Ends.get_iff]
  split
  · exact ha active e a
  · rename_i hsub
    rw [Annotations.effective_of_not_contains (Bool.eq_false_iff.mpr hsub)]
    exact hi a

/-- The value that is found for an expression is recorded for it. -/
theorem records_visit (ha : ∀ active e, Finds s e (again active e)) (e : Expr) :
    Records s e.info (visit s again active e) a := by
  induction e using Folding.visit.induct generalizing a with
  | case1 e ih =>
    unfold visit
    refine records_recorded e fun a => ?_
    split
    · exact .ofStandard fun hs => fits_literal hs _
    · exact .ofStandard fun hs => fits_integral hs (by simp)
    · exact .ofStandard fun hs => fits_truth hs _
    · exact .ofStandard fun hs => fits_stringResult hs _
    · exact .ofStandard fun hs => fits_of_gives hs.real
    · exact fitting_named ha _
    · exact fitting_named ha _
    · rename_i x
      refine .bind_found (finds_part ha x fun a => ih) (fun _ => .nothing) fun v b _ hv => ?_
      exact .bind_typeOf (.of_forall fun hs hfit y hy =>
        fits_unary hs (Annotations.fits_of_valueOf (hv b (.refl b)) hfit) hy)
    · rename_i x y
      refine .bind_found (finds_part ha x fun a => ih.1) (fun _ => .nothing) fun l b _ hl => ?_
      refine .bind_found (finds_part ha y fun a => ih.2) (fun _ => .nothing) fun r c hbc _ => ?_
      exact .bind_typeOf (.bind_typeOf (fitting_binary _ _ _ _ fun h =>
        Annotations.fits_of_valueOf (hl c hbc) h))
    · exact fitting_call _ _ (finds_part ha _ fun a => ih)
    · exact .nothing

theorem finds_foldWithin (n : Nat) (active : List NodeInfo) (e : Expr) :
    Finds s e (foldWithin s n active e) := by
  induction n generalizing active e with
  | zero => exact fun a => ⟨.refl a, fun _ h => nomatch h⟩
  | succ n ih =>
    intro a
    unfold Records foldWithin
    rw [Ends.bind_iff, Ends.get_iff]
    exact records_visit ih (a.effective e)

theorem finds_fold (e : Expr) : Finds s e (fold s e) := by
  intro a
  unfold Records fold
  rw [Ends.bind_iff, Ends.get_iff]
  exact finds_foldWithin _ _ e a

/-- A bound with a value and an ordinal type is ordinal, unless a value does not fit its type. -/
theorem adds_subrangeBound (e : Expr) : Adds s (subrangeBound s e) := by
  intro a _
  unfold subrangeBound
  rw [Ends.bind_iff]
  refine ((finds_fold e).ends a).mono (fun v b hb => ?_) fun _ _ h => h
  rw [Ends.bind_iff, typeOf_iff]
  dsimp only
  split
  · exact broken_complaint _ _
  · rename_i hok
    rw [Ends.bind_iff, Ends.get_iff]
    split
    · exact hb.1
    · rename_i e' he'
      obtain ⟨hsome, hordinal⟩ : v.isSome = true ∧
          ((b.typeOf (b.effective e).info).map TypeExpr.isOrdinal).getD false = true := by
        simpa [Option.ne_none_iff_isSome] using hok
      obtain ⟨w, rfl⟩ := Option.isSome_iff_exists.mp hsome
      obtain ⟨t, ht⟩ : ∃ t, b.typeOf (b.effective e).info = some t := by
        cases htype : b.typeOf (b.effective e).info with
        | none =>
          rw [htype] at hordinal
          cases hordinal
        | some t => exact ⟨t, rfl⟩
      have hbreach : e'.Needs b.Unfit :=
        Annotations.breach_of_integralOf ht (by simpa [ht] using hordinal) (hb.2 w rfl b (.refl b))
          he'
      exact broken_breach (hbreach.imp fun h _ => h)

theorem range_eq_ok {l h : Integral} (hok : ¬(!l.sameKind h || h.less l) = true) :
    l.range h = .ok (h.bits - l.bits) := by
  simp only [Bool.or_eq_true, not_or, Bool.not_eq_true, Bool.not_eq_eq_eq_not, Bool.not_true]
    at hok
  simp [Integral.range, hok]

theorem adds_subrangeSize (low high : Expr) : Adds s (subrangeSize s low high) := by
  refine .bind (adds_subrangeBound low) fun l => .bind (adds_subrangeBound high) fun h => ?_
  dsimp only
  split
  · exact .throw fun a _ => broken_complaint _ a
  · rw [range_eq_ok ‹_›]
    exact .pure _

end Steps

end Folding

/-!
Folding leaves names as they are: the same expressions stand in for others and the same declarations
are meant, wherever it ends.
-/

/-- The value of an expression is recorded with an ordinal type. -/
theorem Annotations.integralOf_eq_ok {a : Annotations} {e : Expr} {v : Integral} :
    a.integralOf e = .ok v ↔ ∃ t, a.typeOf (a.effective e).info = some t ∧ t.isOrdinal = true ∧
      a.valueOf (a.effective e).info = some (.integral v) := by
  unfold integralOf typeOf valueOf
  cases a.get? (a.effective e).info with
  | none => simp
  | some an =>
    obtain ⟨type, const, -⟩ := an
    cases type with
    | none => simp
    | some t =>
      cases hordinal : t.isOrdinal with
      | false => simp [hordinal]
      | true =>
        cases const with
        | none => simp [hordinal]
        | some c => cases c <;> simp [hordinal]

namespace Folding

variable {α : Type} {s : Scopes}

/-- The same expressions have the same stand-ins, the same nodes refer to the same declarations and
have the same marks, values stay with their types, and the same numbers are left. -/
structure Spared (a b : Annotations) : Prop extends a.Extends b where
  declOf : ∀ n, b.declOf n = a.declOf n
  nonLocal : ∀ n, b.isNonLocal n = a.isNonLocal n
  next : b.next = a.next

theorem Spared.refl (a : Annotations) : Spared a a := ⟨.refl a, fun _ => rfl, fun _ => rfl, rfl⟩

theorem Spared.trans {a b c : Annotations} (h : Spared a b) (k : Spared b c) : Spared a c :=
  ⟨h.toExtends.trans k.toExtends, fun n => (k.declOf n).trans (h.declOf n),
    fun n => (k.nonLocal n).trans (h.nonLocal n), k.next.trans h.next⟩

theorem Spared.of_refine {a b : Annotations} {e : Expr} {op : BinaryOp}
    (h : a.refine e op = .ok b) : Spared a b :=
  ⟨Annotations.extends_of_refine h, Annotations.declOf_of_update_same h fun _ => rfl,
    Annotations.isNonLocal_of_update_same h fun _ => rfl, Annotations.next_of_update h⟩

/-- A value is recorded for a node that has none yet. -/
theorem Spared.of_setConst {a₀ a b : Annotations} {n : Node} {type : Option TypeExpr}
    {v : Constant} (ha : Spared a₀ a) (hnone : a₀.valueOf n.info = none)
    (h : a.setConst n type v = .ok b) : Spared a₀ b := by
  have hextends := (Annotations.extends_of_setConst ha.toExtends hnone h).1
  have hupdate := Annotations.update_of_setConst h
  refine ⟨hextends, fun m => ?_, fun m => ?_, (Annotations.next_of_update hupdate).trans ha.next⟩
  · exact (Annotations.declOf_of_update_same hupdate (fun _ => rfl) m).trans (ha.declOf m)
  · exact (Annotations.isNonLocal_of_update_same hupdate (fun _ => rfl) m).trans (ha.nonLocal m)

theorem Spared.sameAt {a b : Annotations} (h : Spared a b) (i : NodeInfo) : a.SameAt b i :=
  ⟨h.declOf i, h.nonLocal i, h.kept i⟩

/-- A fold that leaves stand-ins and declarations alone, wherever it ends. -/
abbrev Spares (m : Fold α) : Prop := Keeps Spared (fun _ => Spared) m

instance : Composes Spared (fun (_ : Stop) => Spared) where
  trans := .trans
  reached _ := .refl _
  broken := .trans

namespace Spares

theorem complaint (c : Complaint) : Spares (throw (.complaint c) : Fold α) := .throw fun _ h => h

theorem breach (e : Breach) : Spares (throw (.breach e) : Fold α) := .throw fun _ h => h

theorem record {f : Annotations → Except Breach Annotations}
    (hf : ∀ a b, f a = .ok b → Spared a b) : Spares (record f) := by
  intro a _
  unfold Folding.record
  rw [Ends.bind_iff, Ends.get_iff]
  split
  · exact hf _ _ ‹_›
  · exact .refl a

theorem given (x : Except Complaint α) : Spares (given x) := by
  cases x with
  | ok v => exact .pure v
  | error c => exact complaint c

theorem typeOf (e : Expr) : Spares (Folding.typeOf e) := .bind .get fun _ => .pure _

theorem declOf (e : Expr) : Spares (Folding.declOf e) := .bind .get fun _ => .pure _

theorem typeArg (e : Expr) : Spares (Folding.typeArg s e) := by
  refine .bind (declOf e) fun d => ?_
  split <;> exact .pure _

section Steps

variable {again : Elsewhere} {active : List NodeInfo}

theorem named (ha : ∀ active e, Spares (again active e)) (e : Expr) :
    Spares (named again active e) := by
  refine .bind .get fun a => ?_
  split
  · split
    · exact .pure _
    · split
      · exact .pure _
      · refine .bind (ha _ _) fun v => ?_
        split
        · exact .pure _
        · exact .bind (typeOf _) fun _ => .pure _
  · exact .bind .get fun _ => .pure _
  · exact .pure _

theorem comparison (e : Expr) (op : BinaryOp) (l r : Constant) :
    Spares (comparison s e op l r) := by
  have hrecord : Spares (Folding.record (·.refine e op.signed)) :=
    record fun _ _ h => .of_refine h
  unfold Folding.comparison
  split
  · split
    · exact .bind hrecord fun _ => .pure _
    · exact .pure _
  · exact .pure _

theorem binary (e : Expr) (op : BinaryOp) (lt rt : Option TypeExpr) (l r : Constant) :
    Spares (binary s e op lt rt l r) := by
  unfold Folding.binary
  split
  · exact comparison e op l r
  · exact given _
  · exact given _
  · exact .pure _
  · exact .pure _

theorem call (callee arg : Expr) {folded : Fold (Option Constant)} (hf : Spares folded) :
    Spares (call s callee arg folded) := by
  refine .bind (declOf callee) fun d => ?_
  split
  · split
    · exact .pure _
    · dsimp only
      split
      · refine .bind (typeArg arg) fun t => ?_
        split <;> exact .pure _
      · split
        · exact .bind (typeArg arg) fun t => .pure _
        · refine .bind hf fun v => ?_
          split
          · exact .pure _
          · exact .bind (typeOf arg) fun _ => .pure _
  · exact .pure _

theorem recorded (e : Expr) {eval : Fold (Option Typed)} (he : Spares eval) :
    Spares (recorded e eval) := by
  intro a _
  unfold Folding.recorded
  rw [Ends.bind_iff, Ends.get_iff]
  split
  · exact .refl a
  · rename_i hnone
    rw [Ends.bind_iff]
    refine (he a (.refl a)).mono (fun x b hb => ?_) fun _ _ h => h
    split
    · exact hb
    · unfold Folding.record
      rw [Ends.bind_iff, Ends.bind_iff, Ends.get_iff]
      split
      · exact hb.of_setConst (n := .expr e) hnone ‹_›
      · exact hb

theorem part (ha : ∀ active e, Spares (again active e)) (e : Expr)
    {itself : Fold (Option Constant)} (hi : Spares itself) : Spares (part again active e itself) :=
  .bind .get fun _ => .ite (ha _ _) hi

theorem visit (ha : ∀ active e, Spares (again active e)) (e : Expr) :
    Spares (visit s again active e) := by
  induction e using Folding.visit.induct with
  | case1 e ih =>
    unfold Folding.visit
    refine recorded e ?_
    split
    · exact .pure _
    · exact .pure _
    · exact .pure _
    · exact .pure _
    · exact .pure _
    · exact named ha _
    · exact named ha _
    · refine .bind (part ha _ ih) fun v => ?_
      split
      · exact .pure _
      · exact .bind (typeOf _) fun _ => .pure _
    · refine .bind (part ha _ ih.1) fun l => ?_
      split
      · exact .pure _
      · refine .bind (part ha _ ih.2) fun r => ?_
        split
        · exact .pure _
        · exact .bind (typeOf _) fun _ => .bind (typeOf _) fun _ => binary _ _ _ _ _ _
    · exact call _ _ (part ha _ ih)
    · exact .pure _

end Steps

theorem foldWithin (n : Nat) (active : List NodeInfo) (e : Expr) :
    Spares (foldWithin s n active e) := by
  induction n generalizing active e with
  | zero => exact .pure _
  | succ n ih => exact .bind .get fun a => visit ih (a.effective e)

theorem fold (e : Expr) : Spares (fold s e) := .bind .get fun _ => foldWithin _ _ e

theorem subrangeBound (e : Expr) : Spares (subrangeBound s e) := by
  refine .bind (fold e) fun v => .bind (typeOf e) fun t => ?_
  dsimp only
  split
  · exact complaint _
  · refine .bind .get fun a => ?_
    split
    · exact .pure _
    · exact breach _

theorem subrangeSize (low high : Expr) : Spares (subrangeSize s low high) := by
  refine .bind (subrangeBound low) fun l => .bind (subrangeBound high) fun h => ?_
  dsimp only
  split
  · exact complaint _
  · split
    · exact .pure _
    · exact breach _

end Spares
end Folding
end ObjectPascal
