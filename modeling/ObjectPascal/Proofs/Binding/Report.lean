import ObjectPascal.Binding.Declaration
import ObjectPascal.Proofs.Folding
import ObjectPascal.Proofs.Scope.Strictness

/-!
The reports of binding and what they weigh. An unknown name is an error if names are resolved
strictly, and else a warning; so is a class, interface or record that is not declared at all. All
other reports are errors or warnings in any case.
-/

namespace ObjectPascal

/-! What folding complains about. -/

namespace Folding

variable {α β : Type} {s : Scopes}

/-- A fold that never complains about scopes. -/
abbrev Unscoped (m : Fold α) : Prop :=
  Keeps (fun _ _ => True) (fun (stop : Stop) (_ _ : Annotations) =>
    ∀ e, stop ≠ .complaint (.scope e)) m

instance : Composes (fun (_ _ : Annotations) => True)
    (fun (stop : Stop) (_ _ : Annotations) => ∀ e, stop ≠ .complaint (.scope e)) where
  trans _ _ := trivial
  reached _ := trivial
  broken _ h := h

namespace Unscoped

theorem record (f : Annotations → Except Breach Annotations) : Unscoped (record f) := by
  refine .bind .get fun a => ?_
  split
  · exact fun _ _ => trivial
  · exact .throw fun _ _ _ => nofun

theorem typeOf (e : Expr) : Unscoped (Folding.typeOf e) := .bind .get fun _ => .pure _

theorem declOf (e : Expr) : Unscoped (Folding.declOf e) := .bind .get fun _ => .pure _

theorem typeArg (e : Expr) : Unscoped (Folding.typeArg s e) := by
  refine .bind (declOf e) fun d => ?_
  split <;> exact .pure _

theorem complaint_of_arithmetic {op : BinaryOp} {lt rt : Option TypeExpr} {l r : Constant}
    {c : Complaint} (h : arithmetic s op lt rt l r = .error c) : c = .divisionByZero := by
  have hmixed {l r : Constant} (h : mixed s op l r = .error c) : c = .divisionByZero := by
    unfold mixed at h
    repeat' split at h
    all_goals cases h
    rfl
  unfold arithmetic at h
  split at h
  · split at h
    · exact hmixed h
    · unfold integral at h
      repeat' split at h
      all_goals cases h
      rfl
  · exact hmixed h

theorem binary (e : Expr) (op : BinaryOp) (lt rt : Option TypeExpr) (l r : Constant) :
    Unscoped (binary s e op lt rt l r) := by
  have hgiven : Unscoped (given (arithmetic s op lt rt l r)) := by
    cases h : arithmetic s op lt rt l r with
    | ok v => exact .pure v
    | error c =>
      obtain rfl := complaint_of_arithmetic h
      exact .throw fun _ _ _ => nofun
  unfold Folding.binary
  split
  · unfold Folding.comparison
    split
    · dsimp only
      split
      · exact .bind (record _) fun _ => .pure _
      · exact .pure _
    · exact .pure _
  · exact hgiven
  · exact hgiven
  · exact .pure _
  · exact .pure _

theorem named {again : Elsewhere} (ha : ∀ active e, Unscoped (again active e))
    (active : List NodeInfo) (e : Expr) : Unscoped (named again active e) := by
  refine .bind .get fun a => ?_
  split
  · split
    · exact .pure _
    · split
      · exact .pure _
      · refine .bind (ha _ _) fun v => ?_
        split
        · exact .pure _
        · exact .bind (typeOf _) fun _ => .pure _
  · exact .bind .get fun _ => .pure _
  · exact .pure _

theorem call (callee arg : Expr) {folded : Fold (Option Constant)} (hf : Unscoped folded) :
    Unscoped (call s callee arg folded) := by
  refine .bind (declOf _) fun d => ?_
  split
  · split
    · exact .pure _
    · dsimp only
      split
      · exact .bind (typeArg _) fun _ => .pure _
      · split
        · exact .bind (typeArg _) fun _ => .pure _
        · refine .bind hf fun v => ?_
          split
          · exact .pure _
          · exact .bind (typeOf _) fun _ => .pure _
  · exact .pure _

theorem recorded (e : Expr) {eval : Fold (Option Typed)} (he : Unscoped eval) :
    Unscoped (recorded e eval) := by
  refine .bind .get fun a => ?_
  split
  · exact .pure _
  · refine .bind he fun r => ?_
    split
    · exact .pure _
    · exact .bind (record _) fun _ => .pure _

theorem part {again : Elsewhere} (ha : ∀ active e, Unscoped (again active e))
    (active : List NodeInfo) (e : Expr) {itself : Fold (Option Constant)} (hi : Unscoped itself) :
    Unscoped (part again active e itself) := .bind .get fun _ => .ite (ha _ _) hi

theorem visit {again : Elsewhere} (ha : ∀ active e, Unscoped (again active e))
    (active : List NodeInfo) (e : Expr) : Unscoped (visit s again active e) := by
  induction e using Folding.visit.induct with
  | case1 e ih =>
    unfold Folding.visit
    apply recorded
    split
    · exact .pure _
    · exact .pure _
    · exact .pure _
    · exact .pure _
    · exact .pure _
    · exact named ha _ _
    · exact named ha _ _
    · refine .bind (part ha _ _ ih) fun v => ?_
      split
      · exact .pure _
      · exact .bind (typeOf _) fun _ => .pure _
    · refine .bind (part ha _ _ ih.1) fun l => ?_
      split
      · exact .pure _
      · refine .bind (part ha _ _ ih.2) fun r => ?_
        split
        · exact .pure _
        · exact .bind (typeOf _) fun _ => .bind (typeOf _) fun _ => binary _ _ _ _ _ _
    · exact call _ _ (part ha _ _ ih)
    · exact .pure _

theorem fold (e : Expr) : Unscoped (fold s e) := by
  have hwithin (n : Nat) (active : List NodeInfo) (e : Expr) :
      Unscoped (foldWithin s n active e) := by
    induction n generalizing active e with
    | zero => exact .pure _
    | succ n ih => exact .bind .get fun _ => visit ih _ _
  exact .bind .get fun _ => hwithin _ _ _

theorem subrangeSize (low high : Expr) : Unscoped (subrangeSize s low high) := by
  have hbound (e : Expr) : Unscoped (subrangeBound s e) := by
    refine .bind (fold e) fun v => .bind (typeOf e) fun t => ?_
    dsimp only
    split
    · exact .throw fun _ _ _ => nofun
    · refine .bind .get fun a => ?_
      split
      · exact .pure _
      · exact .throw fun _ _ _ => nofun
  refine .bind (hbound low) fun l => .bind (hbound high) fun h => ?_
  dsimp only
  split
  · exact .throw fun _ _ _ => nofun
  · rw [range_eq_ok ‹_›]
    exact .pure _

end Unscoped
end Folding

/-! What binding reports. -/

namespace Binding

/-- How much a report weighs. -/
inductive Weight where
  | error
  | warning
  /-- An error if names are resolved strictly, else a warning. -/
  | unknown

/-- Whether a report of this weight is an error. -/
def Weight.isError (strict : Bool) : Weight → Bool
  | .error => true
  | .warning => false
  | .unknown => strict

/-- A report of binding. Only unknown names and types are of unknown weight, and unknown types
always are. -/
structure Report where
  finding : Finding
  weight : Weight
  name : weight = .unknown →
    ∃ e, finding.complaint = .scope e ∧ (e.fault = .notFound ∨ e.fault = .compositeNotFound)
  type : ∀ e, finding.complaint = .scope e → e.fault = .compositeNotFound → weight = .unknown

/-- Whether a report is an error. -/
def Report.isError (strict : Bool) (r : Report) : Bool := r.weight.isError strict

/-- The errors among some reports. -/
def errorsOf (strict : Bool) (log : List Report) : Array Finding :=
  ((log.filter (·.isError strict)).map (·.finding)).toArray

/-- The warnings among some reports. -/
def warningsOf (strict : Bool) (log : List Report) : Array Finding :=
  ((log.filter (!·.isError strict)).map (·.finding)).toArray

/-- The same state of binding with the given reports, and names resolved strictly or not. -/
def under (b : Binding) (log : List Report) (strict : Bool) : Binding :=
  { b with scopes := b.scopes.strictly strict, errors := errorsOf strict log,
           warnings := warningsOf strict log }

theorem errorsOf_append (strict : Bool) (log : List Report) (r : Report) :
    errorsOf strict (log ++ [r]) =
      if r.isError strict then (errorsOf strict log).push r.finding else errorsOf strict log := by
  unfold errorsOf
  rw [List.filter_append, List.map_append, List.filter_singleton]
  cases r.isError strict <;> simp

theorem warningsOf_append (strict : Bool) (log : List Report) (r : Report) :
    warningsOf strict (log ++ [r]) =
      if r.isError strict then warningsOf strict log
      else (warningsOf strict log).push r.finding := by
  unfold warningsOf
  rw [List.filter_append, List.map_append, List.filter_singleton]
  cases r.isError strict <;> simp

/-- What is an error in any case is one if names are resolved strictly. -/
theorem errorsOf_sublist (log : List Report) :
    (errorsOf false log).toList.Sublist (errorsOf true log).toList := by
  have himp : ∀ r : Report, r.isError false = true → r.isError true = true := by
    rintro ⟨finding, weight, _, _⟩ h
    cases weight with
    | error => rfl
    | warning => cases h
    | unknown => rfl
  exact (List.monotone_filter_right log himp).map _

end Binding
end ObjectPascal
