import ObjectPascal.Proofs.Folding.Depth
import ObjectPascal.Proofs.Scope.Builtin

/-!
Comparisons of whole numbers. A comparison of constants is that of the numbers that they stand for,
unless a signed number is compared with one that is too large for a signed number: beside a signed
number, all 64 bits are read as a signed number.
-/

namespace ObjectPascal.Folding

variable {s : Scopes} {a b c : Annotations} {e x y : Expr} {i : NodeInfo} {op : BinaryOp}
  {v w : Integral}

/-- A comparison finds how the values compare, and perhaps records that they are signed. -/
theorem leads_comparison (op : BinaryOp) (hi : e.info.id ≠ 0) (hkind : v.kind = w.kind) :
    ∃ b, a.SameNames b ∧ Leads (comparison s e op (.integral v) (.integral w)) a
      (some (truth s (op.holds (v.compare w)))) b := by
  have hcompare : Constant.compare? (.integral v) (.integral w) = some (v.compare w) := by
    rw [Constant.compare?, if_pos hkind]
  unfold comparison
  simp only [hcompare, Option.map_some]
  split
  · obtain ⟨b, hb⟩ := a.exists_update (n := .expr e) hi fun an => { an with op := some op.signed }
    have hrefine : a.refine e op.signed = .ok b := hb
    exact ⟨b, (Spared.of_refine hrefine).sameNames,
      Leads.bind_iff.mpr ⟨(), b, leads_record hrefine, rfl⟩⟩
  · exact ⟨a, .refl a, rfl⟩

/-- The value of a comparison of whole numbers compares the numbers that they are taken for. Those
are the numbers that the operands stand for, unless only one operand is signed and the other one is
too large for a signed number. -/
theorem comparison_of_integers (hs : s.Standard) (ha : a.Bare) (hop : op ∈ BinaryOp.comparisons)
    (he : a.effective e = .binary i op x y) (hi : i.id ≠ 0) (hnew : a.valueOf i = none)
    (hx : Leads (fold s x) a (some (.integral v)) b)
    (hy : Leads (fold s y) b (some (.integral w)) c) (hv : v.kind = .integer)
    (hw : w.kind = .integer) :
    ∃ d, Leads (fold s e) a
        (some (.integral (.ofBool (op.relates (v.beside w) (w.beside v))))) d ∧
      d.typeOf i = s.builtin? "Boolean" ∧
      (v.Comparable w → v.beside w = v.number ∧ w.beside v = w.number) := by
  obtain ⟨d, -, hd⟩ := leads_comparison (s := s) (a := c) (e := .binary i op x y) op hi
    (hv.trans hw.symm)
  have hfits : (Constant.integral (.ofBool (op.holds (v.compare w)))).fits
      (s.builtin? "Boolean") = true := fits_truth hs _
  have hbinary : Leads (binary s (.binary i op x y) op (c.typeOf (c.effective x).info)
      (c.typeOf (c.effective y).info) (.integral v) (.integral w)) c
      (some (truth s (op.holds (v.compare w)))) d := by
    unfold binary
    rw [BinaryOp.category_of_comparison hop]
    exact hd
  obtain ⟨d', hset⟩ := exists_setConst d (n := .expr (.binary i op x y)) hi hfits
  refine ⟨d', ?_, typeOf_of_setConst hset, Integral.beside_eq_number⟩
  rw [← BinaryOp.holds_compare hop]
  exact leads_binary ha he hnew hx hy hbinary hset

/-- A whole number as a node of its own. -/
def whole (id : Nat) (n : UInt64) : Expr := .int { id, line := 1 } n ∅

/-- The number -1. -/
def minusOne : Expr := .unary { id := 2, line := 1 } .minus (whole 1 1)

/-- The comparison of -1 with another number. -/
def belowMinusOne (n : UInt64) : Expr := .binary { id := 4, line := 1 } .lt minusOne (whole 3 n)

/-- The scopes that a source begins with, and what is known about a tree with four nodes. -/
abbrev plainScopes : Scopes := .initial {}

/-- What a fold comes to, if it does not end early. -/
def result? {α : Type} (m : Fold α) (a : Annotations) : Option α :=
  match m.run.run a with
  | (.ok r, _) => some r
  | _ => none

theorem leads_of_result {α : Type} {m : Fold α} {r : α} (h : result? m a = some r) :
    Leads m a r (m.run.run a).2 := by
  unfold result? at h
  unfold Leads
  generalize m.run.run a = run at h
  obtain ⟨_ | _, b⟩ := run <;> cases h
  rfl

/-- The value that a fold finds, if it is ordinal. -/
def ordinal? (m : Fold (Option Constant)) (a : Annotations) : Option Integral :=
  match result? m a with
  | some (some (.integral v)) => some v
  | _ => none

theorem leads_of_ordinal {m : Fold (Option Constant)} (h : ordinal? m a = some v) :
    Leads m a (some (.integral v)) (m.run.run a).2 := by
  apply leads_of_result
  unfold ordinal? at h
  split at h <;> cases h
  assumption

/-- A greater number is not less. -/
example : BinaryOp.holds .lt .gt = false := by decide +kernel

theorem comparison_of_integers_small :
    plainScopes.Standard ∧ (Annotations.forTree 4).Bare ∧ BinaryOp.lt ∈ BinaryOp.comparisons ∧
    ∃ b c d, Leads (fold plainScopes minusOne) (.forTree 4) (some (.integral (.ofInt64 (-1)))) b ∧
      Leads (fold plainScopes (whole 3 5)) b (some (.integral (.ofInt64 5))) c ∧
      Leads (fold plainScopes (belowMinusOne 5)) (.forTree 4) (some (.integral (.ofBool true))) d ∧
      (Integral.ofInt64 (-1)).Comparable (.ofInt64 5) := by
  have hfolds : ordinal? (fold plainScopes minusOne) (.forTree 4) = some (.ofInt64 (-1)) ∧
      ordinal? (fold plainScopes (whole 3 5)) ((fold plainScopes minusOne).run.run (.forTree 4)).2 =
        some (.ofInt64 5) := by decide +kernel
  have hx := leads_of_ordinal hfolds.1
  have hy := leads_of_ordinal hfolds.2
  have hs := Scopes.standard_initial {}
  have ha := Annotations.bare_forTree 4 0
  have hop : BinaryOp.lt ∈ BinaryOp.comparisons := by decide
  obtain ⟨d, hd, -, -⟩ := comparison_of_integers (e := belowMinusOne 5) hs ha hop
    (Annotations.effective_of_not_contains rfl) (by decide) rfl hx hy rfl rfl
  exact ⟨hs, ha, hop, _, _, d, hx, hy, hd, by decide, by decide⟩

/-- Beside -1, the number 2 ^ 63 is taken for -2 ^ 63. -/
theorem largeNumber_misread : ∃ v w b c d,
    Leads (fold plainScopes minusOne) (.forTree 4) (some (.integral v)) b ∧
    Leads (fold plainScopes (whole 3 0x8000000000000000)) b (some (.integral w)) c ∧
    v.kind = .integer ∧ w.kind = .integer ∧ v.number < w.number ∧
    Leads (fold plainScopes (belowMinusOne 0x8000000000000000)) (.forTree 4)
      (some (.integral (.ofBool false))) d := by
  have hfolds : ordinal? (fold plainScopes minusOne) (.forTree 4) = some (.ofInt64 (-1)) ∧
      ordinal? (fold plainScopes (whole 3 0x8000000000000000))
        ((fold plainScopes minusOne).run.run (.forTree 4)).2 =
          some (.ofUInt64 0x8000000000000000) ∧
      ordinal? (fold plainScopes (belowMinusOne 0x8000000000000000)) (.forTree 4) =
        some (.ofBool false) := by decide +kernel
  exact ⟨.ofInt64 (-1), .ofUInt64 0x8000000000000000, _, _, _, leads_of_ordinal hfolds.1,
    leads_of_ordinal hfolds.2.1, rfl, rfl, by decide, leads_of_ordinal hfolds.2.2⟩

end ObjectPascal.Folding

/-!
Sizes of subranges. The size of a subrange is the exact number of its values, as the bounds are read
beside each other, unless these are all numbers of 64 bits: then it is 0.
-/

namespace ObjectPascal.Folding

variable {s : Scopes} {a b c : Annotations} {e low high : Expr} {v l h : Integral} {t u : TypeExpr}

/-- A bound with an ordinal value of an ordinal type is its value. -/
theorem leads_subrangeBound (h : Leads (fold s e) a (some (.integral v)) b)
    (ht : b.typeOf (b.effective e).info = some t) (hordinal : t.isOrdinal = true) :
    Leads (subrangeBound s e) a v b := by
  have hvalue : b.valueOf (b.effective e).info = some (.integral v) :=
    (h.ends ((finds_fold e).ends a)).2 _ rfl b (.refl b)
  have hv : b.integralOf e = .ok v :=
    Annotations.integralOf_eq_ok.mpr ⟨t, ht, hordinal, hvalue⟩
  refine Leads.bind_iff.mpr ⟨_, b, h, leads_typeOf.mpr ?_⟩
  rw [ht]
  simp only [Option.isNone_some, Option.map_some, hordinal, Option.getD_some, Bool.not_true,
    Bool.or_self, Bool.false_eq_true, if_false]
  unfold Leads
  rw [Same.get_run, hv]
  rfl

/-- The size of a subrange with ordinal bounds of one kind is the number of its values, as the
bounds are read beside each other. Only where these are all numbers of 64 bits, the size is 0.
Bounds in the wrong order are a fault of the source. The bounds are read as the numbers that they
stand for, unless only one is signed and the other one is too large for a signed number. -/
theorem subrangeSize_of_ordinals (hlow : Leads (fold s low) a (some (.integral l)) b)
    (ht : b.typeOf (b.effective low).info = some t) (htordinal : t.isOrdinal = true)
    (hhigh : Leads (fold s high) b (some (.integral h)) c)
    (hu : c.typeOf (c.effective high).info = some u) (huordinal : u.isOrdinal = true)
    (hkind : l.sameKind h = true) :
    (l.beside h ≤ h.beside l → ∃ n : UInt64, Leads (subrangeSize s low high) a n c ∧
      if h.beside l - l.beside h + 1 = 2 ^ 64 then n = 0
      else (n.toNat : Int) = h.beside l - l.beside h + 1) ∧
    (h.beside l < l.beside h → Complains (subrangeSize s low high) a (.emptyRange l h)) ∧
    (l.Comparable h → l.beside h = l.number ∧ h.beside l = h.number) := by
  have hbelow := leads_subrangeBound hlow ht htordinal
  have habove := leads_subrangeBound hhigh hu huordinal
  refine ⟨fun hle => ?_, fun hlt => ?_, Integral.beside_eq_number⟩
  · have hless : h.less l = false := by
      rw [Bool.eq_false_iff, Ne, h.less_iff_beside]
      omega
    have hrange : l.range h = .ok (h.bits - l.bits) := by
      rw [Integral.range, hkind, hless]
      rfl
    refine ⟨h.bits - l.bits + 1, ?_, ?_⟩
    · refine Leads.bind_iff.mpr ⟨l, b, hbelow, Leads.bind_iff.mpr ⟨h, c, habove, ?_⟩⟩
      simp only [hkind, hless, hrange, Bool.not_true, Bool.or_self, Bool.false_eq_true, if_false]
      exact Leads.pure_iff.mpr ⟨rfl, rfl⟩
    · have hsize := l.toNat_sub_bits h
      have hfits := l.beside_sub_lt h
      have hone : (1 : UInt64).toNat = 1 := rfl
      have hzero : (0 : UInt64).toNat = 0 := rfl
      split
      · rw [← UInt64.toNat_inj, UInt64.toNat_add, hone, hzero]
        omega
      · rw [UInt64.toNat_add, hone]
        omega
  · have hless : h.less l = true := (h.less_iff_beside l).mpr hlt
    refine .bind hbelow (.bind habove ⟨c, ?_⟩)
    simp only [hless, Bool.or_true, if_true]
    rfl

/-- The type of what stands in for an expression is ordinal. -/
def ordinalType (a : Annotations) (e : Expr) : Bool :=
  ((a.typeOf (a.effective e).info).map TypeExpr.isOrdinal).getD false

theorem exists_of_ordinalType (h : ordinalType a e = true) :
    ∃ t, a.typeOf (a.effective e).info = some t ∧ t.isOrdinal = true := by
  unfold ordinalType at h
  cases ht : a.typeOf (a.effective e).info with
  | none =>
    rw [ht] at h
    cases h
  | some t =>
    rw [ht] at h
    exact ⟨t, rfl, h⟩

/-- A real type has no ordinal values. -/
example : TypeExpr.isOrdinal (.real { id := 1, line := 1 } "Real" 8) = false := by decide +kernel

theorem subrangeSize_of_ordinals_ten :
    ∃ b c, Leads (fold plainScopes (whole 1 1)) (.forTree 2) (some (.integral (.ofInt64 1))) b ∧
      Leads (fold plainScopes (whole 2 10)) b (some (.integral (.ofInt64 10))) c ∧
      ordinalType b (whole 1 1) = true ∧ ordinalType c (whole 2 10) = true ∧
      (Integral.ofInt64 1).sameKind (.ofInt64 10) = true ∧
      ∃ n : UInt64, Leads (subrangeSize plainScopes (whole 1 1) (whole 2 10)) (.forTree 2) n c ∧
        (n.toNat : Int) = 10 := by
  let b := ((fold plainScopes (whole 1 1)).run.run (.forTree 2)).2
  let c := ((fold plainScopes (whole 2 10)).run.run b).2
  have hfolds : ordinal? (fold plainScopes (whole 1 1)) (.forTree 2) = some (.ofInt64 1) ∧
      ordinal? (fold plainScopes (whole 2 10)) b = some (.ofInt64 10) ∧
      ordinalType b (whole 1 1) = true ∧ ordinalType c (whole 2 10) = true := by decide +kernel
  obtain ⟨hlow, hhigh, ht, hu⟩ := hfolds
  obtain ⟨t, ht', htordinal⟩ := exists_of_ordinalType ht
  obtain ⟨u, hu', huordinal⟩ := exists_of_ordinalType hu
  have hkind : (Integral.ofInt64 1).sameKind (.ofInt64 10) = true := by decide
  obtain ⟨n, hn, hsize⟩ := (subrangeSize_of_ordinals (leads_of_ordinal hlow) ht' htordinal
    (leads_of_ordinal hhigh) hu' huordinal hkind).1 (by decide)
  exact ⟨b, c, leads_of_ordinal hlow, leads_of_ordinal hhigh, ht, hu, hkind, n, hn, hsize⟩

/-- The least number with a sign, -9223372036854775807 - 1. -/
def leastNumber : Expr :=
  .binary { id := 4, line := 1 } .sub
    (.unary { id := 2, line := 1 } .minus (whole 1 0x7FFFFFFFFFFFFFFF)) (whole 3 1)

/-- The greatest number with a sign. -/
def greatestNumber : Expr := whole 5 0x7FFFFFFFFFFFFFFF

/-- The size of the subrange of all numbers with a sign is 0. -/
theorem allNumbers_without_size :
    ∃ l h b c d, Leads (fold plainScopes leastNumber) (.forTree 5) (some (.integral l)) b ∧
      Leads (fold plainScopes greatestNumber) b (some (.integral h)) c ∧
      l.sameKind h = true ∧ l.number ≤ h.number ∧ h.number - l.number + 1 ≠ 0 ∧
      Leads (subrangeSize plainScopes leastNumber greatestNumber) (.forTree 5) 0 d := by
  have hfolds : ordinal? (fold plainScopes leastNumber) (.forTree 5) =
        some (.ofInt64 (-0x8000000000000000)) ∧
      ordinal? (fold plainScopes greatestNumber)
        ((fold plainScopes leastNumber).run.run (.forTree 5)).2 =
          some (.ofInt64 0x7FFFFFFFFFFFFFFF) ∧
      result? (subrangeSize plainScopes leastNumber greatestNumber) (.forTree 5) = some 0 := by
    decide +kernel
  obtain ⟨hlow, hhigh, hsize⟩ := hfolds
  exact ⟨_, _, _, _, _, leads_of_ordinal hlow, leads_of_ordinal hhigh, by decide, by decide,
    by decide, leads_of_result hsize⟩

end ObjectPascal.Folding

/-!
The functions of the language that give the number of an ordinal value, its successor, its
predecessor and its absolute value. They are computed in 64 bits, whatever type the result has, and
the absolute value of what is not ordinal is that value itself.
-/

namespace ObjectPascal.Folding

variable {s : Scopes} {a b : Annotations} {e x callee : Expr} {i : NodeInfo} {v : Constant}
  {w : Integral} {t : Option TypeExpr}

/-- The functions whose results are ordinal for ordinal arguments. -/
inductive OrdinalFunction where
  | ord
  | succ
  | pred
  | abs
deriving DecidableEq

namespace OrdinalFunction

/-- The name of a function in lower case. -/
def name : OrdinalFunction → Text
  | ord => "ord"
  | succ => "succ"
  | pred => "pred"
  | abs => "abs"

/-- The number that a function gives for a number. -/
def exact : OrdinalFunction → Int → Int
  | ord, n => n
  | succ, n => n + 1
  | pred, n => n - 1
  | abs, n => n.natAbs

/-- The type of a result: the number of a value has a type of its own, else it is that of the
argument. -/
def resultType (s : Scopes) (t : Option TypeExpr) (f : OrdinalFunction) : Option TypeExpr :=
  if f = ord then s.builtin? "Integer" else t

theorem name_not_mem (f : OrdinalFunction) :
    f.name ∉ ["sizeof", "low", "high"].map Text.ofString := by
  cases f <;> decide

end OrdinalFunction

open OrdinalFunction Integral

/-- For an ordinal value, a function gives what is left of the exact number in 64 bits. -/
theorem function_integral (f : OrdinalFunction) (w : Integral) :
    ∃ r : Integral, function s f.name t (.integral w) = some (f.resultType s t, .integral r) ∧
      r.signed = (f = ord || w.signed) ∧ r.kind = (if f = ord then .integer else w.kind) ∧
      ((f = abs → w.signed = true → w.kind = .integer) →
        r.number = wrapped r.signed (f.exact w.number)) := by
  have hbits := w.toNat_bits
  cases f with
  | ord =>
    refine ⟨.ofInt64 w.toInt64, rfl, rfl, rfl, fun _ => number_eq_wrapped ?_⟩
    exact hbits
  | succ =>
    refine ⟨{ w with bits := w.bits + 1 }, rfl, rfl, rfl, fun _ => number_eq_wrapped ?_⟩
    have hone : (1 : UInt64).toNat = 1 := rfl
    rw [UInt64.toNat_add, hone, exact]
    omega
  | pred =>
    refine ⟨{ w with bits := w.bits - 1 }, rfl, rfl, rfl, fun _ => number_eq_wrapped ?_⟩
    have hone : (1 : UInt64).toNat = 1 := rfl
    rw [UInt64.toNat_sub, hone, exact]
    omega
  | abs =>
    have habs : function s "abs" t (.integral w) =
        if w.kind = .integer && w.signed && w.toInt64 < 0 then
          some (t, .integral (.ofInt64 (-w.toInt64)))
        else some (t, .integral w) := rfl
    have hvalue := w.toInt_toInt64
    have hzero : (0 : Int64).toInt = 0 := rfl
    by_cases hneg : w.kind = .integer ∧ w.signed = true ∧ w.toInt64 < 0
    · obtain ⟨hkind, hsigned, hlt⟩ := hneg
      refine ⟨.ofInt64 (-w.toInt64), ?_, by simp [hsigned, ofInt64], hkind.symm,
        fun _ => number_eq_wrapped ?_⟩
      · exact habs.trans (if_pos (by simp [hkind, hsigned, hlt]))
      · rw [Int64.lt_iff_toInt_lt, hzero] at hlt
        have hnumber : w.number = w.toInt64.toInt := if_pos hsigned
        have hbits : ((-w.toInt64).toUInt64.toNat : Int) = (-w.toInt64.toInt) % 2 ^ 64 := by
          have hdiff : (-w.toInt64).toUInt64 = 0 - w.bits := by simp [toInt64]
          have hnone : (0 : UInt64).toNat = 0 := rfl
          rw [hdiff, UInt64.toNat_sub, hnone, hvalue]
          split <;> omega
        have hexact : abs.exact w.number = -w.toInt64.toInt := by
          rw [exact, hnumber]
          omega
        rw [hexact]
        exact hbits
    · refine ⟨w, habs.trans (if_neg (by simpa [and_assoc] using hneg)), rfl, rfl, fun hkind => ?_⟩
      have hpos : 0 ≤ w.number := by
        unfold number
        split
        · rename_i hsigned
          have hnot : ¬w.toInt64 < 0 := fun hlt => hneg ⟨hkind rfl hsigned, hsigned, hlt⟩
          rw [Int64.lt_iff_toInt_lt, hzero] at hnot
          omega
        · omega
      have hexact : abs.exact w.number = w.number := Int.natAbs_of_nonneg hpos
      rw [hexact]
      exact number_eq_wrapped hbits

/-- What is not ordinal has itself as its absolute value, and nothing else. -/
theorem function_other (f : OrdinalFunction) (h : ∀ w, v ≠ .integral w) :
    function s f.name t v = if f = abs then some (t, v) else none := by
  cases v with
  | integral w => exact absurd rfl (h w)
  | string _ => cases f <;> rfl
  | real _ => cases f <;> rfl

/-- A call of such a function on a constant is folded. For an ordinal argument it gives what is left
of the exact number in 64 bits, so the exact number if it is in their range, and the result has the
type of the argument even if this type does not reach as far. The absolute value of a real number or
a string is that value itself. -/
theorem ordinalFunction_of_constant (f : OrdinalFunction) (hs : s.Standard) (ha : a.Bare)
    (he : a.effective e = .call i callee (some [x])) (hi : i.id ≠ 0) (hnew : a.valueOf i = none)
    {d : CallableDecl} (hd : a.declOf (a.effective callee).info = some (.callable d))
    (hbuiltin : d.builtin = true) (hname : d.name.lower = f.name)
    (hx : Leads (fold s x) a (some v) b) (hv : v.fits (b.typeOf (b.effective x).info) = true) :
    (∀ w, v = .integral w → ∃ r c, Leads (fold s e) a (some (.integral r)) c ∧
      c.typeOf i = f.resultType s (b.typeOf (b.effective x).info) ∧
      r.signed = (f = ord || w.signed) ∧ r.kind = (if f = ord then .integer else w.kind) ∧
      ((f = abs → w.signed = true → w.kind = .integer) →
        r.number = wrapped r.signed (f.exact w.number) ∧
        (r.signed = true → -2 ^ 63 ≤ f.exact w.number → f.exact w.number < 2 ^ 63 →
          r.number = f.exact w.number) ∧
        (r.signed = false → 0 ≤ f.exact w.number → f.exact w.number < 2 ^ 64 →
          r.number = f.exact w.number))) ∧
    ((∀ w, v ≠ .integral w) →
      if f = abs then ∃ c, Leads (fold s e) a (some v) c ∧
        c.typeOf i = b.typeOf (b.effective x).info
      else Leads (fold s e) a none b) := by
  have hcall := leads_function hd hbuiltin (hname ▸ f.name_not_mem) hx
  rw [hname] at hcall
  generalize b.typeOf (b.effective x).info = t at hcall hv ⊢
  refine ⟨fun w hw => ?_, fun hother => ?_⟩
  · subst hw
    obtain ⟨r, hr, hsigned, hkind, hnumber⟩ := function_integral (s := s) (t := t) f w
    rw [hr] at hcall
    obtain ⟨c, hset⟩ := exists_setConst b (n := .expr (.call i callee (some [x]))) hi
      (fits_function hs hv hr)
    refine ⟨r, c, leads_call ha he hnew hcall hset, typeOf_of_setConst hset, hsigned, hkind,
      fun h => ?_⟩
    have hwrapped := hnumber h
    refine ⟨hwrapped, fun hs hlow hhigh => ?_, fun hs hlow hhigh => ?_⟩
    · rw [hwrapped, hs, wrapped_signed hlow hhigh]
    · rw [hwrapped, hs, wrapped_unsigned hlow hhigh]
  · rw [function_other f hother] at hcall
    split at hcall
    · rw [if_pos ‹f = abs›]
      obtain ⟨c, hset⟩ := exists_setConst b (n := .expr (.call i callee (some [x]))) hi hv
      exact ⟨c, leads_call ha he hnew hcall hset, typeOf_of_setConst hset⟩
    · rw [if_neg ‹¬f = abs›]
      exact leads_call_none ha he hnew hcall

/-- A function of the language. -/
def languageFunction (f : OrdinalFunction) : CallableDecl :=
  { info := { id := 0, line := 0 }, name := f.name, kind := .function, builtin := true }

/-- The call of a function with a whole number. -/
def callOn (f : OrdinalFunction) (n : UInt64) : Expr :=
  .call { id := 3, line := 1 } (.ident { id := 2, line := 1 } f.name) (some [whole 1 n])

/-- What is known about such a call when the name of the function is bound. -/
def boundTo (f : OrdinalFunction) : Annotations :=
  { Annotations.forTree 3 with
    notes := ({} : Std.TreeMap Nat Annotation).insert 2
      { decl := some (.callable (languageFunction f)) } }

/-- Functions are told by their names in any case. -/
example : succ.name.sameFold "SUCC" = true := by decide +kernel

theorem ordinalFunction_of_constant_succ :
    plainScopes.Standard ∧ (boundTo succ).Bare ∧
    (boundTo succ).effective (callOn succ 4) = callOn succ 4 ∧
    (boundTo succ).valueOf { id := 3, line := 1 } = none ∧
    (∃ b, Leads (fold plainScopes (whole 1 4)) (boundTo succ) (some (.integral (.ofInt64 4))) b ∧
      (Constant.integral (.ofInt64 4)).fits (b.typeOf (b.effective (whole 1 4)).info) = true) ∧
    ∃ r c, Leads (fold plainScopes (callOn succ 4)) (boundTo succ) (some (.integral r)) c ∧
      r.number = 5 := by
  let b := ((fold plainScopes (whole 1 4)).run.run (boundTo succ)).2
  have hfolds : ordinal? (fold plainScopes (whole 1 4)) (boundTo succ) = some (.ofInt64 4) ∧
      (Constant.integral (.ofInt64 4)).fits (b.typeOf (b.effective (whole 1 4)).info) = true := by
    decide +kernel
  have hx := leads_of_ordinal hfolds.1
  have hs := Scopes.standard_initial {}
  have ha : (boundTo succ).Bare := Annotations.bare_forTree 3 0
  have he : (boundTo succ).effective (callOn succ 4) = callOn succ 4 :=
    Annotations.effective_of_not_contains rfl
  have hnew : (boundTo succ).valueOf { id := 3, line := 1 } = none := by decide
  obtain ⟨r, c, hr, -, hsigned, -, hnumber⟩ := (ordinalFunction_of_constant succ hs ha he
    (by decide) hnew rfl rfl (by decide) hx hfolds.2).1 _ rfl
  refine ⟨hs, ha, he, hnew, ⟨b, hx, hfolds.2⟩, r, c, hr, ?_⟩
  rw [(hnumber nofun).2.1 (hsigned.trans (by decide)) (by decide) (by decide)]
  rfl

/-- The successor of 2 ^ 63 - 1 is -2 ^ 63, of a type that reaches from there to 2 ^ 63 - 1. -/
theorem successor_wraps : ∃ r b c,
    Leads (fold plainScopes (whole 1 0x7FFFFFFFFFFFFFFF)) (boundTo succ)
      (some (.integral (.ofInt64 0x7FFFFFFFFFFFFFFF))) b ∧
    Leads (fold plainScopes (callOn succ 0x7FFFFFFFFFFFFFFF)) (boundTo succ)
      (some (.integral r)) c ∧
    r.number ≠ (Integral.ofInt64 0x7FFFFFFFFFFFFFFF).number + 1 := by
  have hfolds : ordinal? (fold plainScopes (whole 1 0x7FFFFFFFFFFFFFFF)) (boundTo succ) =
        some (.ofInt64 0x7FFFFFFFFFFFFFFF) ∧
      ordinal? (fold plainScopes (callOn succ 0x7FFFFFFFFFFFFFFF)) (boundTo succ) =
        some (.ofInt64 (-0x8000000000000000)) := by decide +kernel
  exact ⟨_, _, _, leads_of_ordinal hfolds.1, leads_of_ordinal hfolds.2, by decide⟩

end ObjectPascal.Folding
