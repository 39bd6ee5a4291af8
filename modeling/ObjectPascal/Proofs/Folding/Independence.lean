import ObjectPascal.Proofs.Folding.Replay

/-!
Folding finds what expressions mean. So it finds the same in whatever order expressions are folded,
and however often. The one place where it depends on what goes on is a constant that is being folded
already. But then the constant is needed to find out what it means itself, so it means nothing.
-/

namespace ObjectPascal.Folding

open Annotations

variable {α β : Type} {s : Scopes} {a σ σ' σ₁ τ : Annotations} {U : Expr → Prop}
  {S : List NodeInfo} {e x y : Expr}

/-- The values of the constants that are being folded need an expression. -/
def Wanted (s : Scopes) (a : Annotations) (S : List NodeInfo) (x : Expr) : Prop :=
  ∀ i d value, a.declOf i = some (.const d) → d.info ∈ S → d.value = some value →
    Needs s a (a.effective value) x

theorem Wanted.mono (h : Wanted s a S e) (k : Needs s a e x) : Wanted s a S x :=
  fun i d value hd hactive hvalue => (h i d value hd hactive hvalue).trans k

theorem Wanted.cons (ha : Enclosed a U) (h : Wanted s a S e) {i : NodeInfo} {d : ConstDecl}
    {value : Expr} (hd : a.declOf i = some (.const d)) (hvalue : d.value = some value)
    (hneeds : Needs s a e (a.effective value)) :
    Wanted s a (d.info :: S) (a.effective value) := by
  intro j c other hc hactive hother
  obtain hself | hactive := List.mem_cons.mp hactive
  · obtain rfl := ha.consts j i c d hc hd hself
    rw [hvalue] at hother
    cases hother
    exact .refl _
  · exact (h j c other hc hactive hother).trans hneeds

/-- What folding finds for an expression is what it means. It finds no value where nothing is
meant. -/
def Matches (s : Scopes) (a : Annotations) (e : Expr) (σ : Annotations) :
    Except Stop (Option Constant) → Prop
  | .ok (some v) => σ.valueOf e.info = some v
  | .ok none => Means s a e (.ok none) ∨ Endless s a e
  | .error stop => Means s a e (.error stop)

/-- A result of folding with the type that is recorded. -/
def typed (σ : Annotations) (e : Expr) : Except Stop (Option Constant) → Outcome
  | .ok v => .ok (v.map (σ.typeOf e.info, ·))
  | .error stop => .error stop

theorem eq_of_typed_eq {r r' : Except Stop (Option Constant)} (h : typed σ e r = typed τ e r') :
    r = r' := by
  obtain _ | _ | _ := r <;> obtain _ | _ | _ := r' <;> simp_all [typed]

theorem Matches.means (hσ : Faithful s a U σ) (he : U e) {r : Except Stop (Option Constant)}
    (h : Matches s a e σ r) : Means s a e (typed σ e r) ∨ r = .ok none ∧ Endless s a e := by
  obtain stop | _ | v := r
  · exact .inl h
  · exact h.imp id fun hendless => ⟨rfl, hendless⟩
  · exact .inl (hσ.told e he v h)

/-- There is one thing that folding can find. -/
theorem Matches.unique (hσ : Faithful s a U σ) (hτ : Faithful s a U τ) (he : U e)
    {r r' : Except Stop (Option Constant)} (h : Matches s a e σ r) (h' : Matches s a e τ r') :
    r = r' := by
  obtain hm | ⟨rfl, hendless⟩ := h.means hσ he <;> obtain hm' | ⟨rfl, hendless'⟩ := h'.means hτ he
  · exact eq_of_typed_eq (hm.unique hm')
  · exact absurd hendless' hm.not_endless
  · exact absurd hendless hm'.not_endless
  · rfl

/-- What means no value does not get one later. -/
theorem Matches.valueOf_eq_none (hσ : Faithful s a U σ) (he : U e)
    {r : Except Stop (Option Constant)} (h : Matches s a e σ r) (hne : ∀ w, r ≠ .ok (some w))
    (hτ : Faithful s a U τ) : τ.valueOf e.info = none := by
  cases hw : τ.valueOf e.info with
  | none => rfl
  | some w =>
    have hw' : Matches s a e τ (.ok (some w)) := hw
    exact absurd (h.unique hσ hτ he hw') (hne w)

/-- What is computed for an expression without a recorded value is what it means. -/
def Explains (s : Scopes) (a : Annotations) (e : Expr) (r : Outcome) : Prop :=
  Computes s a e r ∨ r = .ok none ∧ Endless s a e

theorem Explains.of_computed {r : Outcome}
    (h : computed s a (fun x => meaning s a 0 (a.effective x)) e = some r) : Explains s a e r :=
  .inl ⟨0, h⟩

/-- A fold that finds what an expression means, again and again. -/
def Refolds (s : Scopes) (a : Annotations) (U : Expr → Prop) (m : Fold (Option Constant))
    (e : Expr) : Prop :=
  ∀ σ, Faithful s a U σ → ∃ r σ', Repeats s a U m σ r σ' ∧ Matches s a e σ' r

/-! The steps of folding. -/

theorem setConst_error {n : Node} {t : Option TypeExpr} {v : Constant} {b : Breach}
    (h : a.setConst n t v = .error b) (c : Annotations) : c.setConst n t v = .error b := by
  unfold setConst update at h ⊢
  split at h
  · rw [if_pos ‹_›]
    split at h
    · rwa [if_pos ‹_›]
    · cases h
  · rwa [if_neg ‹_›]

theorem settled_value (a : Annotations) (e : Expr) (t : Option TypeExpr) (v : Constant) :
    settled a e (.ok (some (t, v))) = match a.setConst (.expr e) t v with
      | .ok _ => .ok (some (t, v))
      | .error b => .error (.breach b) := rfl

theorem settled_of_ok {t : Option TypeExpr} {v : Constant} {c d : Annotations}
    (h : c.setConst (.expr e) t v = .ok d) :
    settled a e (.ok (some (t, v))) = .ok (some (t, v)) := by
  rw [settled_value]
  split
  · rfl
  · rename_i b hb
    rw [setConst_error hb c] at h
    cases h

theorem settled_of_error {t : Option TypeExpr} {v : Constant} {c : Annotations} {b : Breach}
    (h : c.setConst (.expr e) t v = .error b) :
    settled a e (.ok (some (t, v))) = .error (.breach b) := by
  rw [settled_value, setConst_error h a]

theorem run_record {f : Annotations → Except Breach Annotations} (h : f σ = .ok τ) :
    (record f).run.run σ = (.ok (), τ) := by
  unfold record
  rw [Same.get_run, h]
  rfl

theorem run_record_error {f : Annotations → Except Breach Annotations} {b : Breach}
    (h : f σ = .error b) : (record f).run.run σ = (.error (.breach b), σ) := by
  unfold record
  rw [Same.get_run, h]
  rfl

theorem run_recorded {m : Fold (Option Typed)} {v : Constant} (h : σ.valueOf e.info = some v) :
    (recorded e m).run.run σ = (.ok (some v), σ) := by
  unfold recorded
  rw [Same.get_run, h]
  rfl

/-- What is found without a value is found again. -/
theorem Repeats.recorded {m : Fold (Option Typed)} {r : Outcome}
    {o : Except Stop (Option Constant)} (h : Repeats s a U m σ r σ₁) (he : U e)
    (ho : Matches s a e σ₁ o) (hne : ∀ w, o ≠ .ok (some w)) (hσ : Faithful s a U σ)
    (hrun : ∀ τ τ', τ.valueOf e.info = none → m.run.run τ = (r, τ') →
      (recorded e m).run.run τ = (o, τ')) : Repeats s a U (recorded e m) σ o σ₁ := by
  have hfree {τ : Annotations} (hτ : Faithful s a U τ) : τ.valueOf e.info = none :=
    ho.valueOf_eq_none h.faithful he hne hτ
  refine ⟨hrun _ _ (hfree hσ) h.run, h.faithful, h.covers, fun τ hτ hcovers => ?_⟩
  obtain ⟨τ', hτ', halike⟩ := h.again τ hτ hcovers
  exact ⟨τ', hrun _ _ (hfree hτ) hτ', halike⟩

/-- What is found is recorded. -/
theorem refolds_recorded (ha : Enclosed a U) (he : U e) {m : Fold (Option Typed)}
    (hm : a.valueOf e.info = none → ∀ σ, Faithful s a U σ →
      ∃ r σ', Repeats s a U m σ r σ' ∧ Explains s a e r) : Refolds s a U (recorded e m) e := by
  intro σ hσ
  cases hv : σ.valueOf e.info with
  | some v =>
    exact ⟨.ok (some v), σ, ⟨run_recorded hv, hσ, .refl U σ, fun τ _ hcovers =>
      ⟨τ, run_recorded (hcovers.kept _ _ hv).1, .refl τ⟩⟩, hv⟩
  | none =>
    have hnone := hσ.valueOf_eq_none hv
    obtain ⟨r, σ₁, hrep, hexplains⟩ := hm hnone σ hσ
    obtain stop | _ | ⟨t, v⟩ := r
    · have ho : Matches s a e σ₁ (.error stop) :=
        hexplains.elim (fun h => h.means hnone) fun h => nomatch h.1
      refine ⟨_, _, hrep.recorded he ho (fun _ h => nomatch h) hσ fun τ τ' hτ hrun => ?_, ho⟩
      unfold recorded
      rw [Same.get_run, hτ, ExceptT.run_bind, StateT.run_bind, hrun]
      rfl
    · have ho : Matches s a e σ₁ (.ok none) := hexplains.imp (fun h => h.means hnone) fun h => h.2
      refine ⟨_, _, hrep.recorded he ho (fun _ h => nomatch h) hσ fun τ τ' hτ hrun => ?_, ho⟩
      unfold recorded
      rw [Same.get_run, hτ, run_of_ok hrun]
      rfl
    · have hmeans := (hexplains.resolve_right fun h => nomatch h.1).means hnone
      cases hset : σ₁.setConst (.expr e) t v with
      | error b =>
        rw [settled_of_error hset] at hmeans
        have ho : Matches s a e σ₁ (.error (.breach b)) := hmeans
        refine ⟨_, _, hrep.recorded he ho (fun _ h => nomatch h) hσ fun τ τ' hτ hrun => ?_, ho⟩
        unfold recorded
        rw [Same.get_run, hτ, run_of_ok hrun, ExceptT.run_bind, StateT.run_bind,
          run_record_error (setConst_error hset τ')]
        rfl
      | ok σ' =>
        rw [settled_of_ok hset] at hmeans
        obtain ⟨hfaithful, hcovers, hself⟩ := hrep.faithful.setConst ha he hmeans hset
        refine ⟨.ok (some v), σ', ⟨?_, hfaithful, hrep.covers.trans hcovers, fun τ _ hτ =>
          ⟨τ, run_recorded (hτ.kept _ _ hself).1, .refl τ⟩⟩, hself⟩
        unfold recorded
        rw [Same.get_run, hv, run_of_ok hrep.run, run_of_ok (run_record hset)]
        rfl

/-- What follows from the value of a part. -/
theorem exists_following {m : Fold (Option Constant)} {f : Option Constant → Fold (Option Typed)}
    (hm : Refolds s a U m x) (hσ : Faithful s a U σ) (hneeds : Needs s a e x)
    (hfail : ∀ o, (∀ y, o ≠ .ok (some y)) → Means s a x o → Computes s a e o)
    (hnone : f none = pure none)
    (hsome : ∀ v σ₁, Faithful s a U σ₁ → Covers U σ σ₁ → σ₁.valueOf x.info = some v →
      ∃ r σ', Repeats s a U (f (some v)) σ₁ r σ' ∧ Explains s a e r) :
    ∃ r σ', Repeats s a U (m >>= f) σ r σ' ∧ Explains s a e r := by
  obtain ⟨stop | _ | v, σ₁, hrep, hmatches⟩ := hm σ hσ
  · exact ⟨_, _, hrep.bind_error, .inl (hfail _ (fun _ h => nomatch h) hmatches)⟩
  · refine ⟨.ok none, σ₁, hrep.bind (by rw [hnone]; exact .pure hrep.faithful none), ?_⟩
    exact hmatches.imp (hfail _ (fun _ h => nomatch h)) fun h => ⟨rfl, hneeds.endless h⟩
  · obtain ⟨r, σ', hrep', hexplains⟩ := hsome v σ₁ hrep.faithful hrep.covers hmatches
    exact ⟨r, σ', hrep.bind hrep', hexplains⟩

/-- Constants that are not being folded are folded for what their values mean. -/
def SettlesConsts (s : Scopes) (a : Annotations) (U : Expr → Prop) (again : Elsewhere)
    (S : List NodeInfo) : Prop :=
  ∀ i d value, a.declOf i = some (.const d) → d.value = some value → d.info ∉ S →
    Wanted s a (d.info :: S) (a.effective value) →
    Refolds s a U (again (d.info :: S) value) (a.effective value)

/-- What stands in for parts is folded for what it means. -/
def SettlesParts (s : Scopes) (a : Annotations) (U : Expr → Prop) (again : Elsewhere)
    (S : List NodeInfo) : Prop :=
  ∀ x, U x → a.substitutes.contains x.info.id = true → Wanted s a S (a.effective x) →
    Refolds s a U (again S x) (a.effective x)

section Steps

variable {again : Elsewhere}

/-- A constant that is being folded needs itself. -/
theorem Wanted.endless (hw : Wanted s a S e) {d : ConstDecl} {value : Expr}
    (hd : a.declOf e.info = some (.const d)) (hactive : d.info ∈ S) (hvalue : d.value = some value)
    (hmeaning : ∀ n, meaning s a n (a.effective value) = none → meaning s a (n + 1) e = none) :
    Endless s a e := by
  intro n
  induction n with
  | zero => rfl
  | succ n ih => exact hmeaning n (hw _ d value hd hactive hvalue n ih)

/-- What becomes of the value of a constant. -/
def valueOfConstant (value : Expr) : Option Constant → Fold (Option Typed)
  | none => return none
  | some v => return some (← typeOf value, v)

/-- How a constant is folded that is not in work. -/
def foldConstant (again : List NodeInfo → Expr → Fold (Option Constant)) (S : List NodeInfo)
    (d : ConstDecl) : Fold (Option Typed) :=
  match d.value with
  | none => pure none
  | some value => again (d.info :: S) value >>= valueOfConstant value

/-- A name is folded for the value of its constant. -/
theorem exists_named (ha : Enclosed a U) (h : SettlesConsts s a U again S)
    (hw : Wanted s a S e) (hcomputed : ∀ f, computed s a f e = meant a f e)
    (hnone : a.valueOf e.info = none) (hσ : Faithful s a U σ) :
    ∃ r σ', Repeats s a U (named again S e) σ r σ' ∧ Explains s a e r := by
  by_cases hconst : ∃ d, a.declOf e.info = some (.const d)
  · obtain ⟨d, hd⟩ := hconst
    have hrun {τ : Annotations} (hτ : Faithful s a U τ) : (named again S e).run.run τ =
        (if d.kind == .typed || S.contains d.info then pure none
        else foldConstant again S d : Fold (Option Typed)).run.run τ := by
      unfold named
      rw [Same.get_run, hτ.sameNames.declOf]
      exact hd ▸ rfl
    by_cases htyped : (d.kind == .typed) = true
    · refine ⟨_, _, .of_same (fun τ hτ _ => ?_) hσ (.pure hσ none), .of_computed ?_⟩
      · rw [hrun hτ, htyped]
        rfl
      · rw [hcomputed, meant, hd]
        exact if_pos htyped
    cases hvalue : d.value with
    | none =>
      refine ⟨_, _, .of_same (fun τ hτ _ => ?_) hσ (.pure hσ none), .of_computed ?_⟩
      · rw [hrun hτ, foldConstant, hvalue]
        split <;> rfl
      · rw [hcomputed, meant, hd]
        simp only [htyped, hvalue]
        rfl
    | some value =>
      have hstep (n : Nat) : computed s a (fun x => meaning s a n (a.effective x)) e =
          meaning s a n (a.effective value) := by
        rw [hcomputed, meant, hd]
        simp only [htyped, hvalue]
        rfl
      have hneeds : Needs s a e (a.effective value) :=
        .of_computed hnone fun n hn => by rw [hstep, hn]
      by_cases hactive : d.info ∈ S
      · refine ⟨_, _, .of_same (fun τ hτ _ => ?_) hσ (.pure hσ none), .inr ⟨rfl, ?_⟩⟩
        · rw [hrun hτ, if_pos (by simp [hactive])]
        · exact hw.endless hd hactive hvalue fun n hn =>
            meaning_succ_eq_none hnone (by rw [hstep, hn])
      · have hinner := h _ d value hd hvalue hactive (hw.cons ha hd hvalue hneeds)
        have hu : U (a.effective value) := ha.effective (ha.values _ d value hd hvalue)
        obtain ⟨r, σ', hrep, hexplains⟩ := exists_following
          (f := valueOfConstant value) hinner hσ hneeds
          (fun o _ hmeans => hmeans.imp fun n hn => (hstep n).trans hn) rfl
          fun v σ₁ hσ₁ _ hv => by
            obtain ⟨n, hn⟩ := hσ₁.told _ hu v hv
            exact ⟨_, _, .typeOf hσ₁ hv (.pure hσ₁ _), .inl ⟨n, (hstep n).trans hn⟩⟩
        refine ⟨r, σ', .of_same (fun τ hτ _ => ?_) hσ hrep, hexplains⟩
        rw [hrun hτ, if_neg (by simp [htyped, hactive]), foldConstant, hvalue]
  by_cases hmember : ∃ m, a.declOf e.info = some (.enumMember m)
  · obtain ⟨m, hm⟩ := hmember
    refine ⟨_, _, .of_same (fun τ hτ _ => ?_) hσ
      (.pure hσ ((a.valueOf m.info).map (a.typeOf m.info, ·))), .of_computed ?_⟩
    · have hrest := hτ.rest m.info fun f hf => ha.members _ m f hm hf
      unfold named
      rw [Same.get_run, hτ.sameNames.declOf, hm, valueOf, Annotations.typeOf, ← hrest]
      rfl
    · rw [hcomputed, meant, hm]
  · refine ⟨_, _, .of_same (fun τ hτ _ => ?_) hσ (.pure hσ none), .of_computed ?_⟩
    · unfold named
      rw [Same.get_run, hτ.sameNames.declOf]
      split
      · exact absurd ⟨_, ‹_›⟩ hconst
      · exact absurd ⟨_, ‹_›⟩ hmember
      · rfl
    · rw [hcomputed, meant]
      split
      · exact absurd ⟨_, ‹_›⟩ hconst
      · exact absurd ⟨_, ‹_›⟩ hmember
      · rfl

theorem comparison_eq (s : Scopes) (e : Expr) (op : BinaryOp) (l r : Constant) :
    comparison s e op l r = (do
      if isRefined l r then record (·.refine e op.signed)
      return (l.compare? r).map fun o => truth s (op.holds o)) := by
  cases l <;> cases r <;> rfl

theorem refine_error {op : BinaryOp} {b : Breach} (h : a.refine e op = .error b)
    (c : Annotations) : c.refine e op = .error b := by
  unfold refine update at h ⊢
  split at h
  · rwa [if_pos ‹_›]
  · cases h

/-- A comparison gives the same again, and it is recorded in the same way. -/
theorem exists_comparison (ha : Enclosed a U) (he : U e) {op : BinaryOp}
    (hop : e.operator? = some op) (l r : Constant) (hσ : Faithful s a U σ) :
    ∃ σ', Repeats s a U (comparison s e op l r) σ (compared s a e op l r) σ' := by
  rw [comparison_eq, compared]
  split
  · rename_i hrefined
    cases hrefine : σ.refine e op.signed with
    | error b =>
      rw [refine_error hrefine a]
      refine ⟨σ, .bind_error ?_⟩
      exact ⟨run_record_error hrefine, hσ, .refl U σ, fun τ _ _ =>
        ⟨τ, run_record_error (refine_error hrefine τ), .refl τ⟩⟩
    | ok σ' =>
      obtain ⟨hfaithful, hcovers, hsign⟩ := hσ.refine ha he hop hrefine
      have hrecord : Repeats s a U (record (·.refine e op.signed)) σ (.ok ()) σ' := by
        refine ⟨run_record hrefine, hfaithful, hcovers, fun τ _ hτ => ?_⟩
        have hτsign := hτ.ops e op he hop hsign
        obtain ⟨an, han, hsigned⟩ := Option.bind_eq_some_iff.mp hτsign
        cases hagain : τ.refine e op.signed with
        | error b =>
          rw [refine_error hagain σ] at hrefine
          cases hrefine
        | ok τ' =>
          exact ⟨τ', run_record hagain, alike_of_update hagain han (by rw [← hsigned])⟩
      cases hrefine' : a.refine e op.signed with
      | error b =>
        rw [refine_error hrefine' σ] at hrefine
        cases hrefine
      | ok a' => exact ⟨σ', hrecord.bind (.pure hfaithful _)⟩
  · exact ⟨σ, .pure hσ _⟩

/-- So does every operator. -/
theorem exists_joined (ha : Enclosed a U) (he : U e) {op : BinaryOp} (hop : e.operator? = some op)
    (l r : Typed) (hσ : Faithful s a U σ) :
    ∃ σ', Repeats s a U (binary s e op l.1 r.1 l.2 r.2) σ (joined s a e op l r) σ' := by
  unfold binary joined
  have hgiven (x : Except Complaint (Option Typed)) :
      Repeats s a U (given x) σ (outcomeOf x) σ := by
    cases x with
    | ok v => exact .pure hσ v
    | error c => exact .throw hσ _
  cases op.category with
  | comparison => exact exists_comparison ha he hop l.2 r.2 hσ
  | arithmetic => exact ⟨σ, hgiven _⟩
  | logical => exact ⟨σ, hgiven _⟩
  | membership => exact ⟨σ, .pure hσ none⟩
  | typeRelation => exact ⟨σ, .pure hσ none⟩

theorem following_of_no_value {o : Outcome} (h : ∀ x, o ≠ .ok (some x))
    (k : Typed → Option Outcome) : following (some o) k = some o := by
  obtain _ | _ | x := o
  · rfl
  · rfl
  · exact absurd rfl (h x)

/-- What a function of the language gives for the value of its argument. -/
def applied (s : Scopes) (name : Text) (x : Expr) : Option Constant → Fold (Option Typed)
  | none => return none
  | some v => return function s name (← typeOf x) v

/-- A call is folded for the value of its argument, if it depends on it. -/
theorem exists_call {i : NodeInfo} {callee : Expr} (hx : U (a.effective x))
    {folded : Fold (Option Constant)} (hnone : a.valueOf i = none)
    (hfolded : Needs s a (.call i callee (some [x])) (a.effective x) →
      Refolds s a U folded (a.effective x))
    (hσ : Faithful s a U σ) : ∃ r σ', Repeats s a U (call s callee x folded) σ r σ' ∧
      Explains s a (.call i callee (some [x])) r := by
  have hcomputed (n : Nat) :
      computed s a (fun x => meaning s a n (a.effective x)) (.call i callee (some [x])) =
        called s a callee x (meaning s a n (a.effective x)) := rfl
  by_cases hcallable : ∃ d, a.declOf (a.effective callee).info = some (.callable d)
  · obtain ⟨d, hd⟩ := hcallable
    have hrun {τ : Annotations} (hτ : Faithful s a U τ) {m : Fold (Option Typed)}
        (hm : (if !d.builtin then return none
          else if d.name.lower == "sizeof" then do
            let size := ((← typeArg s x).map (sizeOf s)).getD 0
            return if size = 0 then none else some (literal s size.toUInt64)
          else if d.name.lower == "low" || d.name.lower == "high" then
            return (← typeArg s x).bind (bound (d.name.lower == "high"))
          else folded >>= applied s d.name.lower x : Fold (Option Typed)) = m) :
        (call s callee x folded).run.run τ = m.run.run τ := by
      subst hm
      unfold call
      rw [run_of_ok (run_declOf hτ.sameNames callee)]
      exact hd ▸ rfl
    by_cases hbuiltin : (!d.builtin) = true
    · refine ⟨_, _, .of_same (fun τ hτ _ => hrun hτ (if_pos hbuiltin)) hσ (.pure hσ none),
        .of_computed ?_⟩
      rw [hcomputed, called, hd]
      exact if_pos hbuiltin
    by_cases hsize : (d.name.lower == "sizeof") = true
    · refine ⟨_, _, .of_same (fun τ hτ _ => hrun hτ ((if_neg hbuiltin).trans (if_pos hsize))) hσ
        (.silent (fun τ hτ _ => run_typeArg hτ.sameNames x) hσ (.pure hσ _)), .of_computed ?_⟩
      rw [hcomputed, called, hd]
      exact (if_neg hbuiltin).trans (if_pos hsize)
    by_cases hbound : (d.name.lower == "low" || d.name.lower == "high") = true
    · refine ⟨_, _, .of_same (fun τ hτ _ => hrun hτ ((if_neg hbuiltin).trans
        ((if_neg hsize).trans (if_pos hbound)))) hσ
        (.silent (fun τ hτ _ => run_typeArg hτ.sameNames x) hσ (.pure hσ _)), .of_computed ?_⟩
      rw [hcomputed, called, hd]
      exact (if_neg hbuiltin).trans ((if_neg hsize).trans (if_pos hbound))
    have hstep (n : Nat) : called s a callee x (meaning s a n (a.effective x)) =
        following (meaning s a n (a.effective x)) fun v =>
          some (.ok (function s d.name.lower v.1 v.2)) := by
      rw [called, hd]
      exact (if_neg hbuiltin).trans ((if_neg hsize).trans (if_neg hbound))
    have hneeds : Needs s a (.call i callee (some [x])) (a.effective x) :=
      .of_computed hnone fun n hn => by
        rw [hcomputed, hstep, hn]
        rfl
    obtain ⟨r, σ', hrep, hexplains⟩ := exists_following
      (f := applied s d.name.lower x) (hfolded hneeds) hσ hneeds
      (fun o ho hmeans => hmeans.imp fun n hn => by
        rw [hcomputed, hstep, hn, following_of_no_value ho]) rfl
      fun v σ₁ hσ₁ _ hv => by
        obtain ⟨n, hn⟩ := hσ₁.told _ hx v hv
        refine ⟨_, _, .typeOf hσ₁ hv (.pure hσ₁ _), .inl ⟨n, ?_⟩⟩
        rw [hcomputed, hstep, hn]
        rfl
    exact ⟨r, σ', .of_same (fun τ hτ _ => hrun hτ ((if_neg hbuiltin).trans
      ((if_neg hsize).trans (if_neg hbound)))) hσ hrep, hexplains⟩
  · refine ⟨_, _, .of_same (fun τ hτ _ => ?_) hσ (.pure hσ none), .of_computed ?_⟩
    · unfold call
      rw [run_of_ok (run_declOf hτ.sameNames callee)]
      split
      · exact absurd ⟨_, ‹_›⟩ hcallable
      · rfl
    · rw [hcomputed, called]
      split
      · exact absurd ⟨_, ‹_›⟩ hcallable
      · rfl

/-- A part is folded for what stands in for it, or else for itself. -/
theorem refolds_part (h : SettlesParts s a U again S) (hx : U x)
    (hw : Wanted s a S (a.effective x))
    {itself : Fold (Option Constant)} (hself : Wanted s a S x → Refolds s a U itself x) :
    Refolds s a U (part again S x itself) (a.effective x) := by
  intro σ hσ
  have hrun {τ : Annotations} (hτ : Faithful s a U τ) : (part again S x itself).run.run τ =
      (if a.substitutes.contains x.info.id then again S x else itself).run.run τ := by
    unfold part
    rw [Same.get_run, hτ.substitutes]
  by_cases hcontains : a.substitutes.contains x.info.id = true
  · obtain ⟨r, σ', hrep, hmatches⟩ := h x hx hcontains hw σ hσ
    exact ⟨r, σ', .of_same (fun τ hτ _ => by rw [hrun hτ, if_pos hcontains]) hσ hrep, hmatches⟩
  · have heffective : a.effective x = x :=
      effective_of_not_contains (Bool.eq_false_iff.mpr hcontains)
    rw [heffective] at hw ⊢
    obtain ⟨r, σ', hrep, hmatches⟩ := hself hw σ hσ
    exact ⟨r, σ', .of_same (fun τ hτ _ => by rw [hrun hτ, if_neg hcontains]) hσ hrep, hmatches⟩

/-- Two operands are folded for their values, the right one only if the left one has a value. -/
theorem exists_operands (ha : Enclosed a U) {i : NodeInfo} {op : BinaryOp}
    (he : U (.binary i op x y)) (hnone : a.valueOf i = none) (hw : Wanted s a S (.binary i op x y))
    {left right : Fold (Option Constant)}
    (hleft : Wanted s a S (a.effective x) → Refolds s a U left (a.effective x))
    (hright : Wanted s a S (a.effective y) → Refolds s a U right (a.effective y))
    (hσ : Faithful s a U σ) : ∃ r σ', Repeats s a U (do
      match ← left with
      | none => return none
      | some l =>
        match ← right with
        | none => return none
        | some r =>
          binary s (.binary i op x y) op (← typeOf x) (← typeOf y) l r) σ r σ' ∧
      Explains s a (.binary i op x y) r := by
  have hx : U (a.effective x) := ha.effective (ha.operands _ he x List.mem_cons_self)
  have hy : U (a.effective y) :=
    ha.effective (ha.operands _ he y (List.mem_cons_of_mem _ List.mem_cons_self))
  have hcomputed (n : Nat) :
      computed s a (fun x => meaning s a n (a.effective x)) (.binary i op x y) =
        following (meaning s a n (a.effective x)) fun l =>
          following (meaning s a n (a.effective y)) fun r =>
            some (joined s a (.binary i op x y) op l r) := rfl
  have hneeds : Needs s a (.binary i op x y) (a.effective x) :=
    .of_computed hnone fun n hn => by
      rw [hcomputed, hn]
      rfl
  refine exists_following (hleft (hw.mono hneeds)) hσ hneeds
    (fun o ho hmeans => hmeans.imp fun n hn => by
      rw [hcomputed, hn, following_of_no_value ho]) rfl
    fun l σ₁ hσ₁ _ hl => ?_
  have hlmeans := hσ₁.told _ hx l hl
  -- with a value on the left, the operator needs the right operand
  have hneedsRight : Needs s a (.binary i op x y) (a.effective y) :=
    .of_computed hnone fun n hn => by
      rw [hcomputed, hn]
      cases hxn : meaning s a n (a.effective x) with
      | none => rfl
      | some o =>
        rw [Means.unique ⟨n, hxn⟩ hlmeans]
        rfl
  refine exists_following (hright (hw.mono hneedsRight)) hσ₁ hneedsRight
    (fun o ho hmeans => ?_) rfl fun r σ₂ hσ₂ hcovers hr => ?_
  · obtain ⟨n, hn⟩ := hmeans
    obtain ⟨m, hm⟩ := hlmeans
    refine ⟨max m n, ?_⟩
    rw [hcomputed, meaning_mono hm (Nat.le_max_left m n), meaning_mono hn (Nat.le_max_right m n)]
    exact following_of_no_value ho _
  · have hl₂ := (hcovers.kept _ _ hl).1
    obtain ⟨m, hm⟩ := hσ₂.told _ hx l hl₂
    obtain ⟨n, hn⟩ := hσ₂.told _ hy r hr
    obtain ⟨σ', hrep⟩ := exists_joined ha he rfl (σ₂.typeOf (a.effective x).info, l)
      (σ₂.typeOf (a.effective y).info, r) hσ₂
    refine ⟨_, σ', .typeOf hσ₂ hl₂ (.typeOf hσ₂ hr hrep), .inl ⟨max m n, ?_⟩⟩
    rw [hcomputed, meaning_mono hm (Nat.le_max_left m n), meaning_mono hn (Nat.le_max_right m n)]
    rfl

/-- Folding what stands in for an expression asks for constants only. -/
theorem refolds_bare (ha : Enclosed a U) (h : SettlesConsts s a U again S) (he : U e)
    (hbare : e.isBare = true) (hw : Wanted s a S e) : Refolds s a U (visit s again S e) e := by
  unfold visit
  refine refolds_recorded ha he fun hnone σ hσ => ?_
  unfold Expr.isBare at hbare
  split at hbare
  · exact exists_named ha h hw (fun _ => rfl) hnone hσ
  · exact ⟨_, _, .pure hσ none, .of_computed rfl⟩
  · exact ⟨_, _, .pure hσ none, .of_computed rfl⟩
  · cases hbare

/-- Folding an expression finds what it means, if that is so for constants and for what stands in
for its parts. -/
theorem refolds_visit (ha : Enclosed a U) (hconsts : SettlesConsts s a U again S)
    (hparts : SettlesParts s a U again S) (he : U e) (hw : Wanted s a S e) :
    Refolds s a U (visit s again S e) e := by
  induction e using Folding.visit.induct with
  | case1 e ih =>
    unfold visit
    refine refolds_recorded ha he fun hnone σ hσ => ?_
    split
    · exact ⟨_, _, .pure hσ _, .of_computed rfl⟩
    · exact ⟨_, _, .pure hσ _, .of_computed rfl⟩
    · exact ⟨_, _, .pure hσ _, .of_computed rfl⟩
    · exact ⟨_, _, .pure hσ _, .of_computed rfl⟩
    · exact ⟨_, _, .pure hσ _, .of_computed rfl⟩
    · exact exists_named ha hconsts hw (fun _ => rfl) hnone hσ
    · exact exists_named ha hconsts hw (fun _ => rfl) hnone hσ
    · rename_i i op x
      have hx : U x := ha.operands _ he x List.mem_cons_self
      have hcomputed (n : Nat) :
          computed s a (fun x => meaning s a n (a.effective x)) (.unary i op x) =
            following (meaning s a n (a.effective x)) fun v => some (.ok (unary s op v.1 v.2)) :=
        rfl
      have hneeds : Needs s a (.unary i op x) (a.effective x) := .of_computed hnone fun n hn => by
        rw [hcomputed, hn]
        rfl
      refine exists_following (refolds_part hparts hx (hw.mono hneeds) (ih hx)) hσ hneeds
        (fun o ho hmeans => hmeans.imp fun n hn => by
      rw [hcomputed, hn, following_of_no_value ho]) rfl
        fun v σ₁ hσ₁ _ hv => ?_
      obtain ⟨n, hn⟩ := hσ₁.told _ (ha.effective hx) v hv
      refine ⟨_, _, .typeOf hσ₁ hv (.pure hσ₁ _), .inl ⟨n, ?_⟩⟩
      rw [hcomputed, hn]
      rfl
    · rename_i i op x y
      have hx : U x := ha.operands _ he x List.mem_cons_self
      have hy : U y := ha.operands _ he y (List.mem_cons_of_mem _ List.mem_cons_self)
      exact exists_operands ha he hnone hw (fun hwx => refolds_part hparts hx hwx (ih.1 hx))
        (fun hwy => refolds_part hparts hy hwy (ih.2 hy)) hσ
    · rename_i i callee x
      have hx : U x := ha.operands _ he x List.mem_cons_self
      exact exists_call (ha.effective hx) hnone
        (fun hneeds => refolds_part hparts hx (hw.mono hneeds) (ih hx)) hσ
    · refine ⟨_, _, .pure hσ none, .of_computed ?_⟩
      unfold computed
      split <;> first | rfl | (exfalso; solve_by_elim)

end Steps

/-- What is enough for folding is enough to find what expressions mean. Where something stands in
for the expression, it has been counted already. -/
theorem refolds_foldWithin (ha : Enclosed a U) (n : Nat) :
    (∀ S e, Enough a S n → U e → Wanted s a S (a.effective e) →
      Refolds s a U (foldWithin s n S e) (a.effective e)) ∧
    ∀ S (x : Expr), Enough a S (n + 1) → U x → a.substitutes.contains x.info.id = true →
      Wanted s a S (a.effective x) → Refolds s a U (foldWithin s n S x) (a.effective x) := by
  induction n with
  | zero =>
    refine ⟨fun S e h => ?_, fun S x h _ hx => ?_⟩
    · have hle := h.le
      have hpos := a.stride_pos
      omega
    · have hle := h.le
      rw [stride_of_contains hx] at hle
      omega
  | succ n ih =>
    obtain ⟨hself, hreplaced⟩ := ih
    have hvisit {S : List NodeInfo} {e : Expr}
        (h : Refolds s a U (visit s (foldWithin s n) S (a.effective e)) (a.effective e)) :
        Refolds s a U (foldWithin s (n + 1) S e) (a.effective e) := by
      intro σ hσ
      obtain ⟨r, σ', hrep, hmatches⟩ := h σ hσ
      refine ⟨r, σ', .of_same (fun τ hτ _ => ?_) hσ hrep, hmatches⟩
      unfold foldWithin
      rw [Same.get_run, hτ.effective]
    have hconsts {S : List NodeInfo} {k : Nat} (h : Enough a S k) (hk : k ≤ n + a.stride) :
        SettlesConsts s a U (foldWithin s n) S := fun i d value hd hvalue hfree hw =>
      hself _ _ ((h.cons hd hfree).mono (Nat.sub_le_of_le_add hk)) (ha.values _ d value hd hvalue) hw
    refine ⟨fun S e h he hw => hvisit (refolds_visit ha (hconsts h ?_)
      (fun x hx hcontains hwx => hreplaced S x h hx hcontains hwx) (ha.effective he) hw),
      fun S x h hx hcontains hw => hvisit (refolds_bare ha (hconsts h ?_) (ha.effective hx)
        (isBare_effective ha.bare hcontains) hw)⟩
    · have hpos := a.stride_pos
      omega
    · exact Nat.le_of_eq (by rw [stride_of_contains hcontains])

/-- Folding finds what an expression means, again and again. -/
theorem refolds_fold (ha : Enclosed a U) (he : U e) : Refolds s a U (fold s e) (a.effective e) := by
  intro σ hσ
  have hw : Wanted s a [] (a.effective e) := fun _ _ _ _ hactive => absurd hactive List.not_mem_nil
  obtain ⟨r, σ', hrep, hmatches⟩ :=
    (refolds_foldWithin ha (limit a)).1 [] e (enough_limit a) he hw σ hσ
  exact ⟨r, σ', .of_same (fun τ hτ _ => fold_eq ha.bare (enough_limit a) e τ hτ.sameNames) hσ hrep,
    hmatches⟩

/-- What is recorded once some expressions are folded in turn, whatever comes of it. -/
def foldAll (s : Scopes) (es : List Expr) (a : Annotations) : Annotations :=
  es.foldl (fun b e => ((fold s e).run.run b).2) a

theorem foldAll_append (es fs : List Expr) (a : Annotations) :
    foldAll s (es ++ fs) a = foldAll s fs (foldAll s es a) := List.foldl_append

theorem foldAll_cons (e : Expr) (es : List Expr) (a : Annotations) :
    foldAll s (e :: es) a = foldAll s es ((fold s e).run.run a).2 := rfl

/-- Whatever is folded, what is recorded stays true and is kept. -/
theorem Faithful.foldAll (ha : Enclosed a U) {es : List Expr} (hes : ∀ e ∈ es, U e)
    (hσ : Faithful s a U σ) :
    Faithful s a U (foldAll s es σ) ∧ Covers U σ (foldAll s es σ) := by
  induction es generalizing σ with
  | nil => exact ⟨hσ, .refl U σ⟩
  | cons e es ih =>
    obtain ⟨he, hes⟩ := List.forall_mem_cons.mp hes
    obtain ⟨r, σ', hrep, -⟩ := refolds_fold ha he σ hσ
    rw [foldAll_cons, hrep.run]
    obtain ⟨hfaithful, hcovers⟩ := ih hes hrep.faithful
    exact ⟨hfaithful, hrep.covers.trans hcovers⟩

/-- Whatever is folded before, folding finds the same. -/
theorem fold_foldAll (ha : Enclosed a U) {es : List Expr} (hes : ∀ e ∈ es, U e) (he : U e) :
    ((fold s e).run.run (foldAll s es a)).1 = ((fold s e).run.run a).1 := by
  have hσ := ((Faithful.refl s a U).foldAll ha hes).1
  obtain ⟨r, σ', hrep, hmatches⟩ := refolds_fold ha he _ hσ
  obtain ⟨r₀, σ₀, hrep₀, hmatches₀⟩ := refolds_fold ha he _ (.refl s a U)
  rw [hrep.run, hrep₀.run]
  exact hmatches.unique hrep.faithful hrep₀.faithful (ha.effective he) hmatches₀

/-- Folding an expression that was folded before records nothing new. -/
theorem alike_foldAll (ha : Enclosed a U) {es : List Expr} (hes : ∀ e ∈ es, U e) (he : e ∈ es) :
    (foldAll s es a).Alike ((fold s e).run.run (foldAll s es a)).2 := by
  obtain ⟨before, after, rfl⟩ := List.append_of_mem he
  obtain ⟨hbefore, hafter⟩ := List.forall_mem_append.mp hes
  obtain ⟨hself, hafter⟩ := List.forall_mem_cons.mp hafter
  obtain ⟨r, σ', hrep, -⟩ :=
    refolds_fold ha hself _ ((Faithful.refl s a U).foldAll ha hbefore).1
  rw [foldAll_append, foldAll_cons, hrep.run]
  obtain ⟨hfaithful, hcovers⟩ := hrep.faithful.foldAll ha hafter
  obtain ⟨τ, hrun, halike⟩ := hrep.again _ hfaithful hcovers
  rw [hrun]
  exact halike

end ObjectPascal.Folding
