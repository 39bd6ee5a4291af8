import Mathlib.Algebra.Group.Int.Defs
import Mathlib.Algebra.Group.Nat.Defs
import Mathlib.Logic.Basic
import Mathlib.Logic.IsEmpty.Basic
import ObjectPascal.Folding.Basic

/-!
Constant values fit their types. Literals, operators and functions of the language give a value of
the sort that its type takes, if the operand whose type they keep has such a value, and as long as
the names of the standard types mean what they should.
-/

namespace ObjectPascal

/-- A name of the language stands for a type that takes values of a sort. -/
def Scopes.Gives (s : Scopes) (name : Text) (sort : ValueSort) : Prop :=
  (s.builtin? name).map TypeExpr.valueSort = some sort

/-- The types that are given to constant values take values of their sorts. -/
structure Scopes.Standard (s : Scopes) : Prop where
  ordinal : ∀ name ∈ (["Integer", "Int64", "UInt64", "Cardinal", "Boolean", "Char"] : List Text),
    s.Gives name .integral
  real : s.Gives "Extended" .real
  string : s.Gives "string" .string

/-- The standard types depend on the frame of the language only. -/
theorem Scopes.Standard.of_runtime {s t : Scopes} (h : s.Standard) (hr : t.runtime = s.runtime) :
    t.Standard := by
  have hgives (name : Text) (sort : ValueSort) (hs : s.Gives name sort) : t.Gives name sort := by
    unfold Gives builtin?
    rw [hr]
    exact hs
  exact ⟨fun name hname => hgives _ _ (h.ordinal name hname), hgives _ _ h.real,
    hgives _ _ h.string⟩

namespace Folding

variable {s : Scopes} {type lt rt : Option TypeExpr} {v w : Constant} {x : Typed}

/-- The value fits the type. -/
def Fits (x : Typed) : Prop := x.2.fits x.1 = true

/-- Only the sort of a value matters. -/
theorem fits_of_sort_eq (h : v.fits type = true) (hs : w.sort = v.sort) : Fits (type, w) := by
  cases type with
  | none => cases h
  | some t => simpa [Fits, Constant.fits, hs] using h

theorem fits_of_gives {name : Text} (h : s.Gives name v.sort) : Fits (s.builtin? name, v) := by
  obtain ⟨t, ht, hsort⟩ := Option.map_eq_some_iff.mp h
  simp [Fits, Constant.fits, ht, hsort]

section Results

variable (hs : s.Standard)

include hs

theorem fits_integral {name : Text} {i : Integral}
    (h : name ∈ (["Integer", "Int64", "UInt64", "Cardinal", "Boolean", "Char"] : List Text)) :
    Fits (s.builtin? name, .integral i) :=
  fits_of_gives (hs.ordinal name h)

theorem fits_literal (n : UInt64) : Fits (literal s n) := by
  unfold literal
  split
  · exact fits_integral hs (by simp)
  · split
    · exact fits_integral hs (by simp)
    · exact fits_integral hs (by simp)

theorem fits_signedResult (n : Int64) : Fits (signedResult s lt rt n) := by
  unfold signedResult
  refine fits_integral hs ?_
  split <;> simp

theorem fits_unsignedResult (n : UInt64) : Fits (unsignedResult s lt rt n) := by
  unfold unsignedResult
  refine fits_integral hs ?_
  split <;> simp

theorem fits_truth (b : Bool) : Fits (truth s b) := fits_integral hs (by simp)

theorem fits_stringResult (t : Text) : Fits (stringResult s t) := fits_of_gives hs.string

theorem fits_unary {op : UnaryOp} (hv : v.fits type = true) (h : unary s op type v = some x) :
    Fits x := by
  unfold unary at h
  split at h
  · cases h
    exact hv
  · split at h
    · cases h
      exact fits_signedResult hs _
    · cases h
  · cases h
    exact fits_of_sort_eq hv rfl
  · split at h
    · cases h
      exact fits_of_sort_eq hv rfl
    · cases h
      exact fits_of_sort_eq hv rfl
    · cases h
  · cases h

theorem fits_ofIntegral {op : BinaryOp} {a b : Integral}
    (ha : (Constant.integral a).fits lt = true) (h : integral s op lt rt a b = .ok (some x)) :
    Fits x := by
  unfold integral at h
  split at h
  · obtain ⟨c, -, rfl⟩ := Option.map_eq_some_iff.mp (Except.ok.inj h)
    exact fits_of_sort_eq ha rfl
  · split at h
    · cases h
      exact fits_stringResult hs _
    · split at h
      · cases h
      · split at h
        · cases h
        · split at h
          · obtain ⟨n, -, rfl⟩ := Option.map_eq_some_iff.mp (Except.ok.inj h)
            exact fits_signedResult hs n
          · obtain ⟨n, -, rfl⟩ := Option.map_eq_some_iff.mp (Except.ok.inj h)
            exact fits_unsignedResult hs n

theorem fits_mixed {op : BinaryOp} (h : mixed s op v w = .ok (some x)) : Fits x := by
  unfold mixed at h
  split at h
  · cases h
    exact fits_stringResult hs _
  · split at h
    · split at h
      · cases h
      · obtain ⟨r, -, rfl⟩ := Option.map_eq_some_iff.mp (Except.ok.inj h)
        exact fits_of_gives hs.real
    · cases h

theorem fits_arithmetic {op : BinaryOp} (hv : v.fits lt = true)
    (h : arithmetic s op lt rt v w = .ok (some x)) : Fits x := by
  unfold arithmetic at h
  split at h
  · split at h
    · exact fits_mixed hs h
    · exact fits_ofIntegral hs hv h
  · exact fits_mixed hs h

omit hs in
theorem fits_bound {high : Bool} {t : TypeExpr} (h : bound high t = some x) : Fits x := by
  unfold bound at h
  split at h
  · cases h
    rfl
  · cases h

theorem fits_function {name : Text} (hv : v.fits type = true)
    (h : function s name type v = some x) : Fits x := by
  unfold function at h
  split at h
  · cases h
    exact fits_integral hs (by simp)
  · split at h
    · cases h
      exact fits_integral hs (by simp)
    · cases h
  · cases h
    exact fits_of_sort_eq hv rfl
  · cases h
    exact fits_of_sort_eq hv rfl
  · obtain ⟨t, -, rfl⟩ := Option.map_eq_some_iff.mp h
    exact fits_literal hs _
  · split at h
    · cases h
      exact fits_of_sort_eq hv rfl
    · cases h
      exact hv
  · cases h
    exact hv
  · split at h
    · cases h
      exact fits_truth hs _
    · cases h
  · cases h

end Results

end Folding

/-!
The numbers that ordinal values stand for. The same bits stand for different numbers with and
without a sign, and a comparison takes both values for signed numbers if one of them is.
-/

namespace Integral

variable {v w : Integral}

/-- The number that a value stands for. -/
def number (v : Integral) : Int := if v.signed then v.toInt64.toInt else v.bits.toNat

/-- The numbers of two values are compared as they are: not one is signed and the other too large
for a signed number. -/
def Comparable (v w : Integral) : Prop :=
  (v.signed = true → w.signed = false → w.bits.toNat < 2 ^ 63) ∧
    (w.signed = true → v.signed = false → v.bits.toNat < 2 ^ 63)

theorem toInt_toInt64 (v : Integral) : v.toInt64.toInt =
    if v.bits.toNat < 2 ^ 63 then (v.bits.toNat : Int) else v.bits.toNat - 2 ^ 64 := by
  have h : v.toInt64.toInt = v.bits.toBitVec.toInt := rfl
  rw [h, BitVec.toInt_eq_toNat_cond]
  have hnat : v.bits.toBitVec.toNat = v.bits.toNat := rfl
  rw [hnat]
  split <;> split <;> omega

theorem bits_eq_iff (v w : Integral) : v.bits = w.bits ↔ v.bits.toNat = w.bits.toNat :=
  UInt64.toNat_inj.symm

theorem less_iff (h : v.Comparable w) : v.less w = true ↔ v.number < w.number := by
  have hv := v.toInt_toInt64
  have hw := w.toInt_toInt64
  have hvlt := v.bits.toNat_lt
  have hwlt := w.bits.toNat_lt
  have hvw := h.1
  have hwv := h.2
  unfold less number
  cases hvs : v.signed <;> cases hws : w.signed <;>
    simp only [hvs, hws, Bool.or_false, Bool.or_true, Bool.false_eq_true, if_true,
      if_false, decide_eq_true_eq, Int64.lt_iff_toInt_lt, UInt64.lt_iff_toNat_lt, forall_const,
      reduceCtorEq, IsEmpty.forall_iff] at hvw hwv ⊢ <;> omega

theorem number_eq_iff (h : v.Comparable w) : v.number = w.number ↔ v.bits = w.bits := by
  have hv := v.toInt_toInt64
  have hw := w.toInt_toInt64
  have hvlt := v.bits.toNat_lt
  have hwlt := w.bits.toNat_lt
  have hvw := h.1
  have hwv := h.2
  rw [bits_eq_iff]
  unfold number
  cases hvs : v.signed <;> cases hws : w.signed <;>
    simp only [hvs, hws, Bool.false_eq_true, if_true, if_false, forall_const, reduceCtorEq,
      IsEmpty.forall_iff] at hvw hwv ⊢ <;> omega

/-- The number that a value is taken for beside another one: a signed number if either of them is
one. -/
def beside (v w : Integral) : Int := if v.signed || w.signed then v.toInt64.toInt else v.bits.toNat

/-- Numbers that can be compared as they are, are. -/
theorem beside_eq_number (h : v.Comparable w) :
    v.beside w = v.number ∧ w.beside v = w.number := by
  have hv := v.toInt_toInt64
  have hw := w.toInt_toInt64
  have hvw := h.1
  have hwv := h.2
  unfold beside number
  cases hvs : v.signed <;> cases hws : w.signed <;>
    simp only [hvs, hws, Bool.or_false, Bool.or_true, Bool.false_eq_true, if_true, if_false,
      forall_const, reduceCtorEq, IsEmpty.forall_iff, true_and, and_true] at hvw hwv ⊢ <;> omega

theorem less_iff_beside (v w : Integral) : v.less w = true ↔ v.beside w < w.beside v := by
  unfold less beside
  rw [Bool.or_comm w.signed v.signed]
  split
  · rw [decide_eq_true_eq, Int64.lt_iff_toInt_lt]
  · rw [decide_eq_true_eq, UInt64.lt_iff_toNat_lt, Int.ofNat_lt]

/-- The difference of two values is that of the numbers that they are taken for, up to multiples of
2 ^ 64. -/
theorem toNat_sub_bits (v w : Integral) :
    ((w.bits - v.bits).toNat : Int) = (w.beside v - v.beside w) % 2 ^ 64 := by
  have hv := v.toInt_toInt64
  have hw := w.toInt_toInt64
  have hvlt := v.bits.toNat_lt
  have hwlt := w.bits.toNat_lt
  rw [UInt64.toNat_sub]
  unfold beside
  rw [Bool.or_comm w.signed v.signed]
  split <;> omega

/-- Numbers that are read alike are less than 2 ^ 64 apart. -/
theorem beside_sub_lt (v w : Integral) : w.beside v - v.beside w < 2 ^ 64 := by
  have hv := v.toInt_toInt64
  have hw := w.toInt_toInt64
  have hvlt := v.bits.toNat_lt
  have hwlt := w.bits.toNat_lt
  unfold beside
  rw [Bool.or_comm w.signed v.signed]
  split <;> omega

/-- What is left of a number in 64 bits, with or without a sign. -/
def wrapped (signed : Bool) (n : Int) : Int := if signed then n.bmod (2 ^ 64) else n % 2 ^ 64

theorem wrapped_signed {n : Int} (h : -2 ^ 63 ≤ n) (h' : n < 2 ^ 63) : wrapped true n = n := by
  rw [wrapped, if_pos rfl, Int.bmod_def]
  split <;> omega

theorem wrapped_unsigned {n : Int} (h : 0 ≤ n) (h' : n < 2 ^ 64) : wrapped false n = n := by
  rw [wrapped, if_neg Bool.false_ne_true]
  omega

/-- A value stands for what is left of any number that differs from its bits by a multiple of
2 ^ 64. -/
theorem number_eq_wrapped {n : Int} (h : (v.bits.toNat : Int) = n % 2 ^ 64) :
    v.number = wrapped v.signed n := by
  have hv := v.toInt_toInt64
  unfold number wrapped
  rw [Int.bmod_def]
  split
  · split at hv <;> split <;> omega
  · omega

/-- The bits of a value are those of the number that it stands for. -/
theorem toNat_bits (v : Integral) : (v.bits.toNat : Int) = v.number % 2 ^ 64 := by
  have hv := v.toInt_toInt64
  have hlt := v.bits.toNat_lt
  unfold number
  split <;> omega

end Integral

namespace BinaryOp

/-- The comparison of numbers that an operator stands for. -/
def relates (op : BinaryOp) (m n : Int) : Bool :=
  match op with
  | eq => m = n
  | ne => m ≠ n
  | lt => m < n
  | le => m ≤ n
  | gt => n < m
  | ge => n ≤ m
  | _ => false

/-- The operators that compare, as they are written. -/
def comparisons : List BinaryOp := [eq, ne, lt, le, gt, ge]

theorem category_of_comparison {op : BinaryOp} (h : op ∈ comparisons) :
    op.category = .comparison := by
  revert op
  decide

/-- Values compare as the numbers do that they are taken for. -/
theorem holds_compare {op : BinaryOp} (h : op ∈ comparisons) (v w : Integral) :
    op.holds (v.compare w) = op.relates (v.beside w) (w.beside v) := by
  have hless : v.less w = decide (v.beside w < w.beside v) := by
    rw [Bool.eq_iff_iff, decide_eq_true_eq, v.less_iff_beside]
  have hgreater : w.less v = decide (w.beside v < v.beside w) := by
    rw [Bool.eq_iff_iff, decide_eq_true_eq, w.less_iff_beside]
  have hcompare : v.compare w = if v.beside w < w.beside v then .lt
      else if w.beside v < v.beside w then .gt else .eq := by
    simp only [Integral.compare, hless, hgreater, decide_eq_true_eq]
  rw [hcompare]
  generalize v.beside w = m
  generalize w.beside v = n
  simp only [comparisons, List.mem_cons, List.not_mem_nil, or_false] at h
  obtain hlt | rfl | hgt := Int.lt_trichotomy m n
  · have hne : m ≠ n := by omega
    have hle : m ≤ n := by omega
    rw [if_pos hlt]
    obtain rfl | rfl | rfl | rfl | rfl | rfl := h <;> simp [holds, relates, bne, hlt, hne, hle]
  · have hirrefl : ¬m < m := by omega
    rw [if_neg hirrefl, if_neg hirrefl]
    obtain rfl | rfl | rfl | rfl | rfl | rfl := h <;> simp [holds, relates]
  · have hne : m ≠ n := by omega
    have hnot : ¬m < n := by omega
    have hle : n ≤ m := by omega
    rw [if_neg hnot, if_pos hgt]
    obtain rfl | rfl | rfl | rfl | rfl | rfl := h <;> simp [holds, relates, bne, hgt, hne, hle]

end BinaryOp

/-!
Arithmetic of constant numbers with a sign. Where the exact result is a number of 64 bits, the
operators give it, with the type Integer only if it has 32 bits.
-/

/-- The operators of the arithmetic of whole numbers. -/
def BinaryOp.ofNumbers : List BinaryOp := [add, sub, mul, div, mod]

/-- What an operator gives for numbers, if it does not divide by zero. Division goes toward zero,
and a remainder has the sign of the dividend. -/
def BinaryOp.exactly (op : BinaryOp) (m n : Int) : Option Int :=
  match op with
  | add => some (m + n)
  | sub => some (m - n)
  | mul => some (m * n)
  | div => if n = 0 then none else some (m.tdiv n)
  | mod => if n = 0 then none else some (m.tmod n)
  | _ => none

namespace Folding

open Integral

variable {s : Scopes} {lt rt t : Option TypeExpr} {op : BinaryOp} {l r : Int64} {n : Int}

/-- The numbers of 64 bits with a sign. -/
def InRange (n : Int) : Prop := -2 ^ 63 ≤ n ∧ n < 2 ^ 63

/-- A value stands for a number, with one of the types for numbers with a sign, the shorter one only
if the number has 32 bits. -/
structure Denotes (s : Scopes) (n : Int) (t : Option TypeExpr) (v : Constant) : Prop where
  value : ∃ x : Int64, v = .integral (.ofInt64 x) ∧ x.toInt = n
  type : t = s.builtin? "Integer" ∧ -2 ^ 31 ≤ n ∧ n < 2 ^ 31 ∨ t = s.builtin? "Int64"

theorem toInt_of_inRange (h : InRange n) : n.bmod (2 ^ 64) = n := wrapped_signed h.1 h.2

/-- What an operator gives for numbers with a sign is exact if it is a number of 64 bits. -/
theorem onSigned_exactly (h : op.exactly l.toInt r.toInt = some n) (hn : InRange n) :
    ∃ x, op.onSigned l r = some x ∧ x.toInt = n := by
  unfold BinaryOp.exactly at h
  split at h
  · cases h
    exact ⟨l + r, rfl, (Int64.toInt_add l r).trans (toInt_of_inRange hn)⟩
  · cases h
    exact ⟨l - r, rfl, (Int64.toInt_sub l r).trans (toInt_of_inRange hn)⟩
  · cases h
    exact ⟨l * r, rfl, (Int64.toInt_mul l r).trans (toInt_of_inRange hn)⟩
  · split at h <;> cases h
    exact ⟨l / r, rfl, (Int64.toInt_div l r).trans (toInt_of_inRange hn)⟩
  · split at h <;> cases h
    exact ⟨l % r, rfl, Int64.toInt_mod l r⟩
  · cases h

/-- The result of arithmetic stands for its number. -/
theorem denotes_signedResult (s : Scopes) (lt rt : Option TypeExpr) (x : Int64) :
    Denotes s x.toInt (signedResult s lt rt x).1 (signedResult s lt rt x).2 := by
  refine ⟨⟨x, rfl, rfl⟩, ?_⟩
  have hlow : (-0x80000000 : Int64).toInt = -2 ^ 31 := rfl
  have hhigh : (0x7FFFFFFF : Int64).toInt = 2 ^ 31 - 1 := rfl
  unfold signedResult
  dsimp only
  split
  · exact .inr rfl
  · rename_i hnarrow
    simp only [Bool.or_eq_true, decide_eq_true_eq, not_or, Int64.lt_iff_toInt_lt, hlow, hhigh]
      at hnarrow
    exact .inl ⟨rfl, by omega, by omega⟩

/-- A whole number as it is written stands for itself if it is one with a sign. -/
theorem denotes_literal (s : Scopes) {n : UInt64} (h : n.toNat < 2 ^ 63) :
    Denotes s n.toNat (literal s n).1 (literal s n).2 := by
  have hvalue := (Integral.ofUInt64 n).toInt_toInt64
  have htoInt : n.toInt64.toInt = n.toNat := hvalue.trans (if_pos h)
  have hshort : (0x7FFFFFFF : UInt64).toNat = 2 ^ 31 - 1 := rfl
  have hlong : (0x7FFFFFFFFFFFFFFF : UInt64).toNat = 2 ^ 63 - 1 := rfl
  unfold literal
  split
  · rename_i hle
    rw [UInt64.le_iff_toNat_le, hshort] at hle
    exact ⟨⟨_, rfl, htoInt⟩, .inl ⟨rfl, by omega, by omega⟩⟩
  · have hle : n ≤ 0x7FFFFFFFFFFFFFFF := by
      rw [UInt64.le_iff_toNat_le, hlong]
      omega
    rw [if_pos hle]
    exact ⟨⟨_, rfl, htoInt⟩, .inr rfl⟩

/-- A number with its sign changed. -/
theorem denotes_minus {v : Constant} (hv : Denotes s n t v) (hn : InRange (-n)) :
    ∃ x, unary s .minus t v = some x ∧ Denotes s (-n) x.1 x.2 := by
  obtain ⟨x, rfl, rfl⟩ := hv.value
  have hneg : (-x).toInt = -x.toInt := (Int64.toInt_neg x).trans (toInt_of_inRange hn)
  refine ⟨signedResult s t none (-x), rfl, ?_⟩
  rw [← hneg]
  exact denotes_signedResult s t none (-x)

/-- An operator with two numbers gives the exact result, or it divides by zero. -/
theorem arithmetic_exactly {m : Int} {v w : Constant} (hop : op ∈ BinaryOp.ofNumbers)
    (hv : Denotes s m lt v) (hw : Denotes s n rt w) :
    (∀ k, op.exactly m n = some k → InRange k →
      ∃ x, arithmetic s op lt rt v w = .ok (some x) ∧ Denotes s k x.1 x.2) ∧
    (op.exactly m n = none → arithmetic s op lt rt v w = .error .divisionByZero) := by
  obtain ⟨l, rfl, rfl⟩ := hv.value
  obtain ⟨r, rfl, rfl⟩ := hw.value
  have hzero : (Integral.ofInt64 r).bits = 0 ↔ r.toInt = 0 := by
    rw [show (0 : Int) = (0 : Int64).toInt from rfl, Int64.toInt_inj]
    exact ⟨fun h => by rw [← Int64.toInt64_toUInt64 r]; exact congrArg UInt64.toInt64 h,
      fun h => by rw [h]; rfl⟩
  have harith : arithmetic s op lt rt (.integral (.ofInt64 l)) (.integral (.ofInt64 r)) =
      if (op = .div || op = .mod) && (Integral.ofInt64 r).bits = 0 then .error .divisionByZero
      else .ok ((op.onSigned l r).map (signedResult s lt rt)) := by
    have hreal : op ≠ .realDiv := by
      rintro rfl
      revert hop
      decide
    rw [arithmetic, if_neg hreal]
    rfl
  rw [harith]
  refine ⟨fun k hk hrange => ?_, fun hnone => ?_⟩
  · obtain ⟨x, hx, rfl⟩ := onSigned_exactly hk hrange
    refine ⟨signedResult s lt rt x, ?_, denotes_signedResult s lt rt x⟩
    have hdivides : ¬((op = .div || op = .mod) && (Integral.ofInt64 r).bits = 0) = true := by
      simp only [Bool.and_eq_true, Bool.or_eq_true, decide_eq_true_eq, hzero]
      rintro ⟨rfl | rfl, hr⟩ <;> simp [BinaryOp.exactly, hr] at hk
    rw [if_neg hdivides, hx]
    rfl
  · refine if_pos ?_
    simp only [Bool.and_eq_true, Bool.or_eq_true, decide_eq_true_eq, hzero]
    simp only [BinaryOp.ofNumbers, List.mem_cons, List.not_mem_nil, or_false] at hop
    obtain rfl | rfl | rfl | rfl | rfl := hop <;> simp_all [BinaryOp.exactly]

end Folding
end ObjectPascal
