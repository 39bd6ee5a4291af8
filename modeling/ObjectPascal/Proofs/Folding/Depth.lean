import Mathlib.Data.List.Perm.Subperm
import ObjectPascal.Proofs.Folding

/-!
How deep folding goes. It leaves an expression through names of constants and through what stands in
for its parts. A constant that is being folded is not folded again, and what stands in for a part
has no parts of its own, so that between two constants at most one stand-in is taken. The limit of
folding is therefore never reached, and an operand has the value in an expression that it has alone.
-/

namespace ObjectPascal

/-- The forms of what stands in for an expression: they have no parts that could be folded. -/
def Expr.isBare : Expr → Bool
  | .ident .. | .call _ _ none | .result .. => true
  | _ => false

namespace Annotations

variable {a b c : Annotations} {e : Expr}

/-- Whatever stands in for an expression is an identifier, a call without arguments or a reference
to a result. -/
def Bare (a : Annotations) : Prop :=
  ∀ (k : Nat) (e : Expr), a.substitutes[k]? = some e → e.isBare = true

theorem bare_forTree (last origin : Nat) : (forTree last origin).Bare := by
  intro k e he
  simp [forTree] at he

theorem isBare_effectiveWithin (h : a.Bare) (n : Nat) {e : Expr} (he : e.isBare = true) :
    (a.effectiveWithin n e).isBare = true := by
  induction n generalizing e with
  | zero => exact he
  | succ n ih =>
    rw [effectiveWithin]
    split
    · exact he
    · exact ih (h _ _ ‹_›)

theorem isBare_effective (h : a.Bare) (he : a.substitutes.contains e.info.id = true) :
    (a.effective e).isBare = true := by
  obtain ⟨r, hr⟩ : ∃ r, a.substitutes[e.info.id]? = some r := by
    rw [← Option.isSome_iff_exists, Std.TreeMap.isSome_getElem?_eq_contains, he]
  rw [effective, effectiveWithin, hr]
  exact isBare_effectiveWithin h 7 (h _ _ hr)

/-- The same expressions stand in for others, and the same declarations are meant. -/
structure SameNames (a b : Annotations) : Prop where
  substitutes : b.substitutes = a.substitutes
  declOf : ∀ i, b.declOf i = a.declOf i

theorem SameNames.refl (a : Annotations) : a.SameNames a := ⟨rfl, fun _ => rfl⟩

theorem SameNames.trans (h : a.SameNames b) (k : b.SameNames c) : a.SameNames c :=
  ⟨k.substitutes.trans h.substitutes, fun i => (k.declOf i).trans (h.declOf i)⟩

theorem SameNames.effective (h : a.SameNames b) (e : Expr) : b.effective e = a.effective e :=
  effective_congr h.substitutes e

theorem SameNames.bare (h : a.SameNames b) (ha : a.Bare) : b.Bare := by
  intro k e he
  rw [h.substitutes] at he
  exact ha k e he

/-- The constants that nodes refer to are among `consts`. -/
def Names (a : Annotations) (consts : List NodeInfo) : Prop :=
  ∀ i d, a.declOf i = some (.const d) → d.info ∈ consts

/-- The constant that a node refers to. -/
def constantOf (an : Annotation) : Option NodeInfo :=
  match an.decl with
  | some (.const d) => some d.info
  | _ => none

theorem exists_names (a : Annotations) : ∃ consts, a.Names consts ∧ consts.length ≤ a.size := by
  refine ⟨a.notes.toList.filterMap fun entry => constantOf entry.2, fun i d hd => ?_, ?_⟩
  · obtain ⟨an, han, hdecl⟩ := Option.bind_eq_some_iff.mp hd
    have hmem : (i.id, an) ∈ a.notes.toList := Std.TreeMap.mem_toList_iff_getElem?_eq_some.mpr han
    exact List.mem_filterMap.mpr ⟨(i.id, an), hmem, by simp [constantOf, hdecl]⟩
  · exact Nat.le_trans (List.length_filterMap_le _ _) (Nat.le_of_eq Std.TreeMap.length_toList)

/-- How many names and replacements lead from one constant to the next at most. -/
def stride (a : Annotations) : Nat := if a.substitutes.isEmpty then 1 else 2

theorem stride_pos (a : Annotations) : 0 < a.stride := by
  unfold stride
  split <;> decide

theorem stride_of_contains {k : Nat} (h : a.substitutes.contains k = true) : a.stride = 2 := by
  have hne : a.substitutes.isEmpty = false := by
    rw [Std.TreeMap.isEmpty_eq_false_iff_exists_contains_eq_true]
    exact ⟨k, h⟩
  rw [stride, hne]
  rfl

end Annotations

namespace Folding

open Annotations

variable {α β : Type} {s : Scopes} {a b : Annotations} {active : List NodeInfo} {n m : Nat}

theorem Spared.sameNames (h : Spared a b) : a.SameNames b := ⟨h.substitutes, h.declOf⟩

/-- Two folds that do the same wherever names are as in `a`. -/
def Same (a : Annotations) (m k : Fold α) : Prop :=
  ∀ b, a.SameNames b → m.run.run b = k.run.run b

namespace Same

variable {m k l : Fold α}

theorem refl (a : Annotations) (m : Fold α) : Same a m m := fun _ _ => rfl

theorem symm (h : Same a m k) : Same a k m := fun b hb => (h b hb).symm

theorem trans (h : Same a m k) (h' : Same a k l) : Same a m l :=
  fun b hb => (h b hb).trans (h' b hb)

/-- Folds that go on from the same beginning. -/
theorem bind {f g : α → Fold β} (h : Same a m k) (hm : Spares m) (hf : ∀ r, Same a (f r) (g r)) :
    Same a (m >>= f) (k >>= g) := by
  intro b hb
  have hends := hm b (.refl b)
  have hrun := h b hb
  unfold Ends at hends
  rw [ExceptT.run_bind, ExceptT.run_bind, StateT.run_bind, StateT.run_bind, ← hrun]
  generalize m.run.run b = r at hends
  obtain ⟨_ | r, c⟩ := r
  · rfl
  · exact hf r c (hb.trans hends.sameNames)

theorem bind_left {f g : α → Fold β} (hm : Spares m) (hf : ∀ r, Same a (f r) (g r)) :
    Same a (m >>= f) (m >>= g) := bind (refl a m) hm hf

/-- What follows may be anything if it is the same. -/
theorem before (h : Same a m k) (f : α → Fold β) : Same a (m >>= f) (k >>= f) := by
  intro b hb
  rw [ExceptT.run_bind, ExceptT.run_bind, StateT.run_bind, StateT.run_bind, h b hb]

/-- A fold that looks at what is recorded first. -/
theorem get_run (f : Annotations → Fold β) (b : Annotations) :
    (MonadState.get >>= f : Fold β).run.run b = (f b).run.run b := rfl

theorem get {f g : Annotations → Fold β} (h : ∀ b, a.SameNames b → Same a (f b) (g b)) :
    Same a (MonadState.get >>= f) (MonadState.get >>= g) := by
  intro b hb
  rw [get_run, get_run]
  exact h b hb b hb

end Same

section Congruence

variable {again again' : Elsewhere}

theorem recorded_congr (e : Expr) {m k : Fold (Option Typed)} (h : Same a m k) :
    Same a (recorded e m) (recorded e k) := by
  refine .get fun b _ => ?_
  split
  · exact .refl a _
  · exact .before h _

/-- The folds of constants that are not being folded are the same. -/
def SameConsts (a : Annotations) (active : List NodeInfo) (again again' : Elsewhere) : Prop :=
  ∀ i d value, a.declOf i = some (.const d) → d.info ∉ active →
    Same a (again (d.info :: active) value) (again' (d.info :: active) value)

theorem named_congr (h : SameConsts a active again again') (e : Expr) :
    Same a (named again active e) (named again' active e) := by
  refine .get fun b hb => ?_
  rw [hb.declOf]
  split
  · rename_i d hd
    split
    · exact .refl a _
    · rename_i hactive
      have hfree : d.info ∉ active := fun hmem => hactive (by simp [hmem])
      split
      · exact .refl a _
      · exact .before (h _ d _ hd hfree) _
  · exact .refl a _
  · exact .refl a _

theorem call_congr (callee x : Expr) {m k : Fold (Option Constant)} (h : Same a m k) :
    Same a (call s callee x m) (call s callee x k) := by
  refine .bind_left (.declOf callee) fun d => ?_
  split
  · split
    · exact .refl a _
    · dsimp only
      split
      · exact .refl a _
      · split
        · exact .refl a _
        · exact .before h _
  · exact .refl a _

/-- Nothing but constants is folded for what stands in for an expression. -/
theorem visit_bare (h : SameConsts a active again again') {e : Expr} (he : e.isBare = true) :
    Same a (visit s again active e) (visit s again' active e) := by
  unfold visit
  refine recorded_congr e ?_
  unfold Expr.isBare at he
  split at he
  · exact named_congr h _
  · exact .refl a _
  · exact .refl a _
  · cases he

theorem visit_congr (h : SameConsts a active again again')
    (hparts : ∀ x : Expr, a.substitutes.contains x.info.id = true →
      Same a (again active x) (again' active x))
    (hspares : ∀ active e, Spares (again active e)) (e : Expr) :
    Same a (visit s again active e) (visit s again' active e) := by
  have hpart (x : Expr) (hx : Same a (visit s again active x) (visit s again' active x)) :
      Same a (part again active x (visit s again active x))
        (part again' active x (visit s again' active x)) := by
    refine .get fun b hb => ?_
    rw [hb.substitutes]
    split
    · exact hparts x ‹_›
    · exact hx
  induction e using Folding.visit.induct with
  | case1 e ih =>
    unfold visit
    refine recorded_congr e ?_
    split
    · exact .refl a _
    · exact .refl a _
    · exact .refl a _
    · exact .refl a _
    · exact .refl a _
    · exact named_congr h _
    · exact named_congr h _
    · exact .before (hpart _ ih) _
    · rename_i x y
      refine .bind (hpart x ih.1) (.part hspares x (.visit hspares x)) fun l => ?_
      split
      · exact .refl a _
      · exact .before (hpart y ih.2) _
    · exact call_congr _ _ (hpart _ ih)
    · exact .refl a _

end Congruence

/-- So much is enough for folding while `active` constants are being folded: each constant that is
not being folded takes a stride, and so does the expression. -/
def Enough (a : Annotations) (active : List NodeInfo) (n : Nat) : Prop :=
  ∃ consts, a.Names consts ∧ active.Nodup ∧ active ⊆ consts ∧
    a.stride * (consts.length - active.length) + a.stride ≤ n

theorem Enough.mono (h : Enough a active n) (hm : n ≤ m) : Enough a active m := by
  obtain ⟨consts, hnames, hnodup, hsub, hn⟩ := h
  exact ⟨consts, hnames, hnodup, hsub, Nat.le_trans hn hm⟩

/-- Folding a further constant takes a stride. -/
theorem Enough.cons (h : Enough a active n) {i : NodeInfo} {d : ConstDecl}
    (hd : a.declOf i = some (.const d)) (hfree : d.info ∉ active) :
    Enough a (d.info :: active) (n - a.stride) := by
  obtain ⟨consts, hnames, hnodup, hsub, hn⟩ := h
  have hall : d.info :: active ⊆ consts := List.cons_subset.mpr ⟨hnames i d hd, hsub⟩
  have hnodup' : (d.info :: active).Nodup := List.nodup_cons.mpr ⟨hfree, hnodup⟩
  have hlength : (d.info :: active).length ≤ consts.length :=
    (List.subperm_of_subset hnodup' hall).length_le
  refine ⟨consts, hnames, hnodup', hall, ?_⟩
  rw [List.length_cons] at hlength ⊢
  have hsplit : consts.length - active.length = (consts.length - (active.length + 1)) + 1 := by
    omega
  rw [hsplit, Nat.mul_succ] at hn
  omega

theorem Enough.le (h : Enough a active n) : a.stride ≤ n := by
  obtain ⟨_, _, _, _, hn⟩ := h
  omega

theorem Enough.of_sameNames (h : Enough a active n) (hb : a.SameNames b) : Enough b active n := by
  obtain ⟨consts, hnames, hnodup, hsub, hn⟩ := h
  have hstride : b.stride = a.stride := by rw [stride, stride, hb.substitutes]
  refine ⟨consts, fun i d hd => hnames i d ?_, hnodup, hsub, hstride ▸ hn⟩
  rw [← hb.declOf, hd]

/-- The limit of folding is enough. -/
theorem enough_limit (a : Annotations) : Enough a [] (limit a) := by
  obtain ⟨consts, hnames, hlength⟩ := a.exists_names
  refine ⟨consts, hnames, .nil, List.nil_subset _, ?_⟩
  have hstride : a.stride ≤ a.substitutes.size + 1 := by
    unfold stride
    split
    · omega
    · rename_i hne
      have hsize : a.substitutes.size ≠ 0 := fun hzero => hne (by
        rw [Std.TreeMap.isEmpty_eq_size_eq_zero, hzero]
        rfl)
      omega
  rw [List.length_nil, Nat.sub_zero, ← Nat.mul_succ, Nat.mul_comm]
  exact Nat.le_succ_of_le (Nat.mul_le_mul (Nat.succ_le_succ hlength) hstride)

/-- The value of an expression through at most `n` names and replacements in a row. What follows
them is left to `beyond`. -/
def foldFrom (s : Scopes) (beyond : Elsewhere) : Nat → Elsewhere
  | 0 => beyond
  | n + 1 => fun active e => do visit s (foldFrom s beyond n) active ((← get).effective e)

theorem foldWithin_add (n m : Nat) : foldWithin s (n + m) = foldFrom s (foldWithin s m) n := by
  induction n with
  | zero => rw [Nat.zero_add, foldFrom]
  | succ n ih =>
    funext active e
    rw [Nat.succ_add, foldWithin, foldFrom, ih]

/-- Where there is enough nothing is left to `beyond`. Where something stands in for the expression,
it has been counted already. -/
theorem foldWithin_eq_foldFrom (ha : a.Bare) (beyond : Elsewhere) (n : Nat) :
    (∀ active e, Enough a active n →
      Same a (foldWithin s n active e) (foldFrom s beyond n active e)) ∧
    ∀ active (x : Expr), Enough a active (n + 1) → a.substitutes.contains x.info.id = true →
      Same a (foldWithin s n active x) (foldFrom s beyond n active x) := by
  induction n with
  | zero =>
    refine ⟨fun active e h => ?_, fun active x h hx => ?_⟩
    · have hle := h.le
      have hpos := a.stride_pos
      omega
    · have hle := h.le
      rw [stride_of_contains hx] at hle
      omega
  | succ n ih =>
    obtain ⟨hself, hreplaced⟩ := ih
    refine ⟨fun active e h => .get fun b hb => ?_, fun active x h hx => .get fun b hb => ?_⟩
    · refine visit_congr (fun i d value hd hfree => hself _ _ ?_)
        (fun x hx => hreplaced active x h hx) (.foldWithin n) _
      have hpos := a.stride_pos
      exact (h.cons hd hfree).mono (by omega)
    · rw [hb.effective]
      refine visit_bare (fun i d value hd hfree => hself _ _ ?_) (isBare_effective ha hx)
      have hcons := h.cons hd hfree
      rw [stride_of_contains hx] at hcons
      exact hcons

/-- Where there is enough, more makes no difference. -/
theorem foldWithin_eq (ha : a.Bare) (h : Enough a active n) (hm : n ≤ m) (e : Expr) :
    Same a (foldWithin s n active e) (foldWithin s m active e) := by
  obtain ⟨k, rfl⟩ := Nat.exists_eq_add_of_le hm
  rw [foldWithin_add]
  exact (foldWithin_eq_foldFrom ha _ n).1 active e h

/-- Folding looks no further than where there is enough. -/
theorem fold_eq (ha : a.Bare) (h : Enough a [] n) (e : Expr) :
    Same a (fold s e) (foldWithin s n [] e) := by
  intro b hb
  have hbare := hb.bare ha
  have hlimit := foldWithin_eq (s := s) hbare (enough_limit b) (Nat.le_max_left (limit b) n) e b
    (.refl b)
  have hn := foldWithin_eq (s := s) hbare (h.of_sameNames hb) (Nat.le_max_right (limit b) n) e b
    (.refl b)
  unfold fold
  rw [Same.get_run]
  exact hlimit.trans hn.symm

/-- A part of an expression is folded as an expression of its own. -/
theorem part_within (ha : a.Bare) (h : Enough a active n) (x : Expr) :
    Same a (part (foldWithin s n) active x (visit s (foldWithin s n) active x))
      (foldWithin s n active x) := by
  intro b hb
  unfold part
  rw [Same.get_run]
  split
  · rfl
  · rename_i hnot
    rw [foldWithin_eq ha h (Nat.le_succ n) x b hb]
    unfold foldWithin
    rw [Same.get_run, effective_of_not_contains (Bool.eq_false_iff.mpr hnot)]

/-- A part of an expression has the value that it has alone. -/
theorem part_eq (ha : a.Bare) (h : Enough a [] n) (x : Expr) :
    Same a (part (foldWithin s n) [] x (visit s (foldWithin s n) [] x)) (fold s x) :=
  (part_within ha h x).trans (fold_eq ha h x).symm

/-- What folding finds for an expression is found for what stands in for it. -/
theorem fold_run (ha : a.Bare) (e : Expr) :
    (fold s e).run.run a = (visit s (foldWithin s (limit a)) [] (a.effective e)).run.run a := by
  rw [fold_eq ha ((enough_limit a).mono (Nat.le_succ _)) e a (.refl a)]
  unfold foldWithin
  rw [Same.get_run]

/-- Folding ends early with a complaint. -/
def Complains (m : Fold α) (a : Annotations) (c : Complaint) : Prop :=
  ∃ b, m.run.run a = (.error (.complaint c), b)

theorem Complains.bind {m : Fold α} {f : α → Fold β} {x : α} {w : Complaint}
    (hm : Leads m a x b) (hf : Complains (f x) b w) : Complains (m >>= f) a w := by
  obtain ⟨c, hc⟩ := hf
  refine ⟨c, ?_⟩
  rw [ExceptT.run_bind, StateT.run_bind, show m.run.run a = (.ok x, b) from hm]
  exact hc

/-! What folding records. -/

section Records

variable {c : Annotations} {n : Node} {t : Option TypeExpr} {v : Constant}

/-- A value that fits its type is recorded with it. -/
theorem exists_setConst (a : Annotations) (hn : n.info.id ≠ 0) (hv : v.fits t = true) :
    ∃ b, a.setConst n t v = .ok b := by
  obtain ⟨b, hb⟩ := a.exists_update hn fun an => { an with type := t, const := some v }
  exact ⟨b, by rw [setConst, if_pos hv, hb]⟩

theorem typeOf_of_setConst (h : a.setConst n t v = .ok b) : b.typeOf n.info = t := by
  rw [Annotations.typeOf, (get?_of_update (update_of_setConst h)).2, if_pos rfl]
  rfl

end Records

/-! An expression is folded by folding its parts. -/

section Parts

variable {c d : Annotations} {e x y callee : Expr} {i : NodeInfo} {l r v : Constant}
  {t : Option TypeExpr}

theorem sameNames_of_fold {v : Option Constant} (h : Leads (fold s e) a v b) : a.SameNames b :=
  (h.ends (Spares.fold e a (.refl a))).sameNames

theorem leads_typeOf {k : Option TypeExpr → Fold β} {r : β} :
    Leads (typeOf e >>= k) a r b ↔ Leads (k (a.typeOf (a.effective e).info)) a r b := Iff.rfl

theorem leads_declOf {k : Option Decl → Fold β} {r : β} :
    Leads (declOf e >>= k) a r b ↔ Leads (k (a.declOf (a.effective e).info)) a r b := Iff.rfl

theorem leads_record {f : Annotations → Except Breach Annotations} (h : f a = .ok b) :
    Leads (record f) a () b := by
  unfold Leads record
  rw [Same.get_run, h]
  rfl

theorem leads_recorded {m : Fold (Option Typed)} (hnone : a.valueOf e.info = none)
    (h : Leads m a (some (t, v)) b) (hset : b.setConst (.expr e) t v = .ok c) :
    Leads (recorded e m) a (some v) c := by
  unfold Leads recorded
  rw [Same.get_run, hnone]
  exact Leads.bind_iff.mpr ⟨_, b, h, Leads.bind_iff.mpr ⟨(), c, leads_record hset, rfl⟩⟩

theorem leads_fold (ha : a.Bare) {v : Option Constant} : Leads (fold s e) a v b ↔
    Leads (visit s (foldWithin s (limit a)) [] (a.effective e)) a v b := by
  unfold Leads
  rw [fold_run ha]

theorem leads_part (ha : a.Bare) (hb : a.SameNames b) {v : Option Constant} :
    Leads (part (foldWithin s (limit a)) [] x (visit s (foldWithin s (limit a)) [] x)) b v c ↔
      Leads (fold s x) b v c := by
  unfold Leads
  rw [part_eq ha (enough_limit a) x b hb]

/-- A call of a function is folded for the value of its argument. -/
theorem leads_function {f : CallableDecl}
    (hf : a.declOf (a.effective callee).info = some (.callable f)) (hbuiltin : f.builtin = true)
    (hname : f.name.lower ∉ ["sizeof", "low", "high"].map Text.ofString)
    (hx : Leads (fold s x) a (some v) b) : Leads (call s callee x (fold s x)) a
      (function s f.name.lower (b.typeOf (b.effective x).info) v) b := by
  simp only [List.map_cons, List.map_nil, List.mem_cons, List.not_mem_nil, or_false, not_or]
    at hname
  refine leads_declOf.mpr ?_
  rw [hf]
  simp only [hbuiltin, Bool.not_true, Bool.false_eq_true, if_false, beq_iff_eq, hname,
    Bool.or_eq_true, or_self]
  exact Leads.bind_iff.mpr ⟨_, b, hx, leads_typeOf.mpr rfl⟩

theorem leads_recorded_none {m : Fold (Option Typed)} (hnone : a.valueOf e.info = none)
    (h : Leads m a none b) : Leads (recorded e m) a none b := by
  unfold Leads recorded
  rw [Same.get_run, hnone]
  exact Leads.bind_iff.mpr ⟨_, b, h, rfl⟩

/-- A call is folded as far as its argument is. -/
theorem leads_call (ha : a.Bare) (he : a.effective e = .call i callee (some [x]))
    (hnone : a.valueOf i = none) (h : Leads (call s callee x (fold s x)) a (some (t, v)) b)
    (hset : b.setConst (.expr (.call i callee (some [x]))) t v = .ok c) :
    Leads (fold s e) a (some v) c := by
  rw [leads_fold ha, he, visit]
  refine leads_recorded hnone ?_ hset
  unfold Leads at h ⊢
  rw [call_congr callee x (part_eq ha (enough_limit a) x) a (.refl a), h]

theorem leads_call_none (ha : a.Bare) (he : a.effective e = .call i callee (some [x]))
    (hnone : a.valueOf i = none) (h : Leads (call s callee x (fold s x)) a none b) :
    Leads (fold s e) a none b := by
  rw [leads_fold ha, he, visit]
  refine leads_recorded_none hnone ?_
  unfold Leads at h ⊢
  rw [call_congr callee x (part_eq ha (enough_limit a) x) a (.refl a), h]

/-- An operator is folded for the values of its operands, the left one first. -/
theorem leads_binary {op : BinaryOp} (ha : a.Bare) (he : a.effective e = .binary i op x y)
    (hnone : a.valueOf i = none) (hx : Leads (fold s x) a (some l) b)
    (hy : Leads (fold s y) b (some r) c)
    (hop : Leads (binary s (.binary i op x y) op (c.typeOf (c.effective x).info)
      (c.typeOf (c.effective y).info) l r) c (some (t, v)) d) {d' : Annotations}
    (hset : d.setConst (.expr (.binary i op x y)) t v = .ok d') :
    Leads (fold s e) a (some v) d' := by
  rw [leads_fold ha, he, visit]
  refine leads_recorded hnone (Leads.bind_iff.mpr ⟨some l, b, ?_, ?_⟩) hset
  · exact (leads_part ha (.refl a)).mpr hx
  · have hy := (leads_part ha (sameNames_of_fold hx)).mpr hy
    refine Leads.bind_iff.mpr ⟨some r, c, hy, ?_⟩
    exact leads_typeOf.mpr (leads_typeOf.mpr hop)

end Parts

end Folding
end ObjectPascal
