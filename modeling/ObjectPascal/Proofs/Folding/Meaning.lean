import ObjectPascal.Proofs.Folding.Depth

/-!
What expressions mean. The meaning of an expression depends on what was recorded at one time and on
nothing that is found later: it is found without recording anything, and no constant is kept from
being looked at twice. So some expressions mean nothing, however far one looks.
-/

namespace ObjectPascal

/-- The parts of an expression that its value can depend on. -/
def Expr.operands : Expr → List Expr
  | .unary _ _ x => [x]
  | .binary _ _ x y => [x, y]
  | .call _ _ (some [x]) => [x]
  | _ => []

namespace Folding

variable {s : Scopes} {a : Annotations} {e x y : Expr} {m n : Nat}

/-- What folding finds for an expression: a value with its type, or no value, unless it ends
early. -/
abbrev Outcome := Except Stop (Option Typed)

/-- What follows from the value of a part. Where there is none, there is none of the whole. -/
def following (o : Option Outcome) (k : Typed → Option Outcome) : Option Outcome :=
  match o with
  | some (.ok (some x)) => k x
  | o => o

/-- What remains of an outcome once it is to be recorded. -/
def settled (a : Annotations) (e : Expr) : Outcome → Outcome
  | .ok (some (t, v)) =>
    match a.setConst (.expr e) t v with
    | .ok _ => .ok (some (t, v))
    | .error b => .error (.breach b)
  | o => o

/-- The outcome of a computation that may complain. -/
def outcomeOf : Except Complaint (Option Typed) → Outcome
  | .ok x => .ok x
  | .error c => .error (.complaint c)

/-- Whether a comparison of two values is recorded as one of signed numbers. -/
def isRefined : Constant → Constant → Bool
  | .integral l, .integral r => l.kind = r.kind && (l.signed || r.signed)
  | _, _ => false

/-- What a comparison of two values gives. -/
def compared (s : Scopes) (a : Annotations) (e : Expr) (op : BinaryOp) (l r : Constant) : Outcome :=
  let result : Outcome := .ok ((l.compare? r).map fun o => truth s (op.holds o))
  if isRefined l r then
    match a.refine e op.signed with
    | .ok _ => result
    | .error b => .error (.breach b)
  else result

/-- What an operator gives for two values. -/
def joined (s : Scopes) (a : Annotations) (e : Expr) (op : BinaryOp) (l r : Typed) : Outcome :=
  match op.category with
  | .comparison => compared s a e op l.2 r.2
  | .arithmetic | .logical => outcomeOf (arithmetic s op l.1 r.1 l.2 r.2)
  | .membership | .typeRelation => .ok none

/-- The type that an argument names. -/
def typeNamed (s : Scopes) (a : Annotations) (e : Expr) : Option TypeExpr :=
  match a.declOf (a.effective e).info with
  | some (.type d) => some (s.resolve d.type)
  | some (.composite d) => some d.type
  | _ => none

/-- What a call of a function of the language gives for an argument. -/
def called (s : Scopes) (a : Annotations) (callee arg : Expr) (o : Option Outcome) :
    Option Outcome :=
  match a.declOf (a.effective callee).info with
  | some (.callable d) =>
    let name := d.name.lower
    if !d.builtin then some (.ok none)
    else if name == "sizeof" then
      let size := ((typeNamed s a arg).map (sizeOf s)).getD 0
      some (.ok (if size = 0 then none else some (literal s size.toUInt64)))
    else if name == "low" || name == "high" then
      some (.ok ((typeNamed s a arg).bind (bound (name == "high"))))
    else following o fun x => some (.ok (function s name x.1 x.2))
  | _ => some (.ok none)

/-- What a name means, given what other expressions mean. -/
def meant (a : Annotations) (other : Expr → Option Outcome) (e : Expr) : Option Outcome :=
  match a.declOf e.info with
  | some (.const d) =>
    if d.kind == .typed then some (.ok none)
    else
      match d.value with
      | none => some (.ok none)
      | some value => other value
  | some (.enumMember m) => some (.ok ((a.valueOf m.info).map (a.typeOf m.info, ·)))
  | _ => some (.ok none)

/-- What an expression without a recorded value means, given what other expressions mean. -/
def computed (s : Scopes) (a : Annotations) (other : Expr → Option Outcome) (e : Expr) :
    Option Outcome :=
  match e with
  | .int _ n _ => some (.ok (some (literal s n)))
  | .char _ code =>
    some (.ok (some (s.builtin? "Char", .integral (.ofCode code.toUInt32.toInt32))))
  | .bool _ b => some (.ok (some (truth s b)))
  | .string _ t => some (.ok (some (stringResult s t)))
  | .real _ x _ => some (.ok (some (s.builtin? "Extended", .real x)))
  | .ident .. | .name .. => meant a other e
  | .unary _ op x => following (other x) fun v => some (.ok (unary s op v.1 v.2))
  | .binary _ op x y =>
    following (other x) fun l => following (other y) fun r => some (joined s a e op l r)
  | .call _ callee (some [x]) => called s a callee x (other x)
  | _ => some (.ok none)

/-- The recorded value, or else what is found, once it is to be recorded. -/
def kept (a : Annotations) (e : Expr) (o : Option Outcome) : Option Outcome :=
  match a.valueOf e.info with
  | some v => some (.ok (some (a.typeOf e.info, v)))
  | none => o.map (settled a e)

/-- What an expression means, apart from what may stand in for it, if so much is found through at
most `n` parts and names in a row. -/
def meaning (s : Scopes) (a : Annotations) : Nat → Expr → Option Outcome
  | 0, _ => none
  | n + 1, e => kept a e (computed s a (fun x => meaning s a n (a.effective x)) e)

/-- What an expression means, apart from what may stand in for it. -/
def Means (s : Scopes) (a : Annotations) (e : Expr) (o : Outcome) : Prop :=
  ∃ n, meaning s a n e = some o

/-- However far one looks, an expression means nothing. -/
def Endless (s : Scopes) (a : Annotations) (e : Expr) : Prop := ∀ n, meaning s a n e = none

/-! Looking further changes nothing that is found. -/

/-- What is found in one way is found in another one. -/
def Below (f g : Option Outcome) : Prop := ∀ o, f = some o → g = some o

theorem Below.refl (f : Option Outcome) : Below f f := fun _ h => h

theorem Below.following {f g : Option Outcome} {j k : Typed → Option Outcome} (h : Below f g)
    (hjk : ∀ x, Below (j x) (k x)) : Below (following f j) (following g k) := by
  intro o ho
  cases f with
  | none => cases ho
  | some r =>
    rw [h r rfl]
    obtain _ | _ | x := r
    · exact ho
    · exact ho
    · exact hjk x o ho

theorem Below.called {f g : Option Outcome} (callee arg : Expr) (h : Below f g) :
    Below (called s a callee arg f) (called s a callee arg g) := by
  unfold Folding.called
  split
  · dsimp only
    split
    · exact .refl _
    · split
      · exact .refl _
      · split
        · exact .refl _
        · exact h.following fun _ => .refl _
  · exact .refl _

theorem Below.kept {f g : Option Outcome} (e : Expr) (h : Below f g) :
    Below (kept a e f) (kept a e g) := by
  intro o ho
  unfold Folding.kept at ho ⊢
  split at ho
  · exact ho
  · obtain ⟨r, hr, rfl⟩ := Option.map_eq_some_iff.mp ho
    rw [h r hr]
    rfl

theorem below_computed {f g : Expr → Option Outcome} (h : ∀ x, Below (f x) (g x)) (e : Expr) :
    Below (computed s a f e) (computed s a g e) := by
  have hmeant : Below (meant a f e) (meant a g e) := by
    unfold meant
    split
    · split
      · exact .refl _
      · split
        · exact .refl _
        · exact h _
    · exact .refl _
    · exact .refl _
  unfold computed
  split
  · exact .refl _
  · exact .refl _
  · exact .refl _
  · exact .refl _
  · exact .refl _
  · exact hmeant
  · exact hmeant
  · exact (h _).following fun _ => .refl _
  · exact (h _).following fun _ => (h _).following fun _ => .refl _
  · exact (h _).called _ _
  · exact .refl _

theorem below_meaning_succ (n : Nat) (e : Expr) :
    Below (meaning s a n e) (meaning s a (n + 1) e) := by
  induction n generalizing e with
  | zero => exact nofun
  | succ n ih => exact (below_computed (fun x => ih (a.effective x)) e).kept e

theorem below_meaning (h : n ≤ m) (e : Expr) : Below (meaning s a n e) (meaning s a m e) := by
  induction h with
  | refl => exact .refl _
  | step _ ih => exact fun o ho => below_meaning_succ _ e o (ih o ho)

theorem meaning_mono {o : Outcome} (h : meaning s a n e = some o) (hm : n ≤ m) :
    meaning s a m e = some o := below_meaning hm e o h

theorem meaning_eq_none (h : meaning s a m e = none) (hm : n ≤ m) : meaning s a n e = none := by
  cases hn : meaning s a n e with
  | none => rfl
  | some o =>
    rw [meaning_mono hn hm] at h
    cases h

/-- An expression means one thing only. -/
theorem Means.unique {o o' : Outcome} (h : Means s a e o) (h' : Means s a e o') : o = o' := by
  obtain ⟨n, hn⟩ := h
  obtain ⟨m, hm⟩ := h'
  have hmax := meaning_mono hn (Nat.le_max_left n m)
  rw [meaning_mono hm (Nat.le_max_right n m)] at hmax
  exact (Option.some.inj hmax).symm

theorem Means.not_endless {o : Outcome} (h : Means s a e o) : ¬Endless s a e := by
  intro hendless
  obtain ⟨n, hn⟩ := h
  rw [hendless n] at hn
  cases hn

/-- What is recorded for an expression is what it means. -/
theorem means_of_valueOf {v : Constant} (h : a.valueOf e.info = some v) :
    Means s a e (.ok (some (a.typeOf e.info, v))) := by
  refine ⟨1, ?_⟩
  rw [meaning, kept, h]

/-! What expressions mean that have no recorded value. -/

/-- What is found for an expression without a recorded value. -/
def Computes (s : Scopes) (a : Annotations) (e : Expr) (o : Outcome) : Prop :=
  ∃ n, computed s a (fun x => meaning s a n (a.effective x)) e = some o

theorem Computes.means (hnone : a.valueOf e.info = none) {o : Outcome} (h : Computes s a e o) :
    Means s a e (settled a e o) := by
  obtain ⟨n, hn⟩ := h
  refine ⟨n + 1, ?_⟩
  rw [meaning, kept, hnone, hn]
  rfl

theorem meaning_succ_eq_none (hnone : a.valueOf e.info = none)
    (h : computed s a (fun x => meaning s a n (a.effective x)) e = none) :
    meaning s a (n + 1) e = none := by
  rw [meaning, kept, hnone, h]
  rfl

/-- To find out what one expression means, another one must mean something. -/
def Needs (s : Scopes) (a : Annotations) (e x : Expr) : Prop :=
  ∀ n, meaning s a n x = none → meaning s a n e = none

theorem Needs.refl (e : Expr) : Needs s a e e := fun _ h => h

theorem Needs.trans (h : Needs s a e x) (k : Needs s a x y) : Needs s a e y :=
  fun n hn => h n (k n hn)

theorem Needs.endless (h : Needs s a e x) (hx : Endless s a x) : Endless s a e :=
  fun n => h n (hx n)

/-- An expression needs what has a meaning one step before it. -/
theorem Needs.of_computed (hnone : a.valueOf e.info = none)
    (h : ∀ n, meaning s a n x = none →
      computed s a (fun x => meaning s a n (a.effective x)) e = none) : Needs s a e x := by
  intro n hn
  cases n with
  | zero => rfl
  | succ n =>
    exact meaning_succ_eq_none hnone (h n (meaning_eq_none hn (Nat.le_succ n)))

end Folding
end ObjectPascal
