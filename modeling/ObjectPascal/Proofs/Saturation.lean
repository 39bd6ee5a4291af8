import Mathlib.Data.Finset.Card
import Mathlib.Data.Finset.Prod
import ObjectPascal.Grammar.First

/-!
Saturation of rows of sets. A round that only adds members is repeated until it adds none, and
there are no more members to add than places times the bound on members, so that much fuel always
ends in a row that the round keeps.
-/

namespace ObjectPascal
namespace NatSet

instance : Membership Nat NatSet := ⟨fun s n => s.contains n = true⟩

theorem mem_def {s : NatSet} {n : Nat} : n ∈ s ↔ s.contains n = true := Iff.rfl

instance (s : NatSet) (n : Nat) : Decidable (n ∈ s) := inferInstanceAs (Decidable (_ = true))

@[simp]
theorem notMem_empty (n : Nat) : n ∉ (∅ : NatSet) := by simp [mem_def]

@[simp]
theorem mem_union {a b : NatSet} {n : Nat} : n ∈ a ∪ b ↔ n ∈ a ∨ n ∈ b := by simp [mem_def]

@[simp]
theorem mem_single {m n : Nat} : n ∈ single m ↔ n = m := by
  simp only [mem_def, single, contains, Nat.shiftLeft_eq, Nat.one_mul, Nat.testBit_two_pow,
    decide_eq_true_eq]
  exact eq_comm

@[simp]
theorem mem_cut {s : NatSet} {bound n : Nat} : n ∈ s.cut bound ↔ n < bound ∧ n ∈ s := by
  simp [mem_def, cut, contains, Nat.testBit_mod_two_pow]

@[simp]
theorem mem_below {s : NatSet} {bound n : Nat} : n ∈ s.below bound ↔ n < bound ∧ n ∈ s := by
  simp [below, mem_def]

theorem ext_mem {a b : NatSet} (h : ∀ n, n ∈ a ↔ n ∈ b) : a = b := by
  obtain ⟨x⟩ := a
  obtain ⟨y⟩ := b
  congr 1
  apply Nat.eq_of_testBit_eq
  intro n
  exact Bool.eq_iff_iff.mpr (h n)

/-- Adding to a set one after the other adds all that the single additions do. -/
theorem mem_foldl {β : Type} {f : NatSet → β → NatSet} {P : β → Nat → Prop} {n : Nat}
    (hf : ∀ s b, n ∈ f s b ↔ n ∈ s ∨ P b n) (l : List β) (s : NatSet) :
    n ∈ l.foldl f s ↔ n ∈ s ∨ ∃ b ∈ l, P b n := by
  induction l generalizing s with
  | nil => simp
  | cons b l ih => rw [List.foldl_cons, ih, hf, List.exists_mem_cons_iff, or_assoc]

end NatSet

/-- Where a run of growing steps ends where it began, each step on its own changes nothing. -/
theorem foldl_fixed {α β : Type} {le : α → α → Prop} (refl : ∀ a, le a a)
    (trans : ∀ {a b c}, le a b → le b c → le a c) (antisymm : ∀ {a b}, le a b → le b a → a = b)
    {f : α → β → α} (hf : ∀ a b, le a (f a b)) {l : List β} {a : α} (h : l.foldl f a = a) :
    ∀ b ∈ l, f a b = a := by
  have hfold (l : List β) (a : α) : le a (l.foldl f a) := by
    induction l generalizing a with
    | nil => exact refl a
    | cons b l ih => exact trans (hf a b) (ih (f a b))
  induction l with
  | nil => simp
  | cons b l ih =>
    -- The rest of the run only grows, so it cannot come back from where the first step leads.
    have hb : f a b = a := by
      refine antisymm ?_ (hf a b)
      have hrest := hfold l (f a b)
      rwa [← List.foldl_cons, h] at hrest
    have hl : l.foldl f a = a := by rwa [List.foldl_cons, hb] at h
    intro c hc
    rcases List.mem_cons.mp hc with rfl | hc
    · exact hb
    · exact ih hl c hc

/-- The set at a place of a row; there is none beyond its end. -/
abbrev setAt (a : Array NatSet) (i : Nat) : NatSet := a.getD i ∅

theorem setAt_of_size_le {a : Array NatSet} {i : Nat} (h : a.size ≤ i) : setAt a i = ∅ := by
  simp [setAt, Array.getD, Nat.not_lt.mpr h]

theorem lt_size_of_mem {a : Array NatSet} {i n : Nat} (h : n ∈ setAt a i) : i < a.size := by
  by_contra hi
  rw [setAt_of_size_le (by omega)] at h
  exact NatSet.notMem_empty n h

@[simp]
theorem notMem_replicate (size i n : Nat) : n ∉ setAt (.replicate size ∅) i := by
  by_cases hi : i < size <;> simp [setAt, Array.getD, hi]

theorem mem_modify {a : Array NatSet} {i j n : Nat} {s : NatSet} :
    n ∈ setAt (a.modify i (· ∪ s)) j ↔ n ∈ setAt a j ∨ (i = j ∧ i < a.size ∧ n ∈ s) := by
  by_cases hj : j < a.size
  · by_cases hij : i = j
    · subst hij
      simp [setAt, Array.getD, hj, Array.getElem_modify]
    · simp [setAt, Array.getD, hj, Array.getElem_modify, hij]
  · have h1 : setAt (a.modify i (· ∪ s)) j = ∅ := setAt_of_size_le (by simp; omega)
    have h2 : setAt a j = ∅ := setAt_of_size_le (by omega)
    simp only [h1, h2, NatSet.notMem_empty, false_or, false_iff]
    rintro ⟨rfl, h, _⟩
    exact hj h

/-- Each set of the first row is part of the set at its place in the second. -/
def Within (a b : Array NatSet) : Prop :=
  a.size = b.size ∧ ∀ i n, n ∈ setAt a i → n ∈ setAt b i

namespace Within

theorem refl (a : Array NatSet) : Within a a := ⟨rfl, fun _ _ h => h⟩

theorem trans {a b c : Array NatSet} (h : Within a b) (k : Within b c) : Within a c :=
  ⟨h.1.trans k.1, fun i n hn => k.2 i n (h.2 i n hn)⟩

theorem antisymm {a b : Array NatSet} (h : Within a b) (k : Within b a) : a = b := by
  apply Array.ext h.1
  intro i hi hj
  have hs : setAt a i = setAt b i := NatSet.ext_mem fun n => ⟨h.2 i n, k.2 i n⟩
  simpa [setAt, Array.getD, hi, hj] using hs

theorem modify (a : Array NatSet) (i : Nat) (s : NatSet) : Within a (a.modify i (· ∪ s)) :=
  ⟨(Array.size_modify).symm, fun _ _ hn => mem_modify.mpr (Or.inl hn)⟩

theorem foldl {β : Type} {f : Array NatSet → β → Array NatSet} (hf : ∀ a b, Within a (f a b))
    (l : List β) (a : Array NatSet) : Within a (l.foldl f a) := by
  induction l generalizing a with
  | nil => exact refl a
  | cons b l ih => exact (hf a b).trans (ih (f a b))

/-- A run of growing steps that ends where it began consists of steps that change nothing. -/
theorem foldl_fixed {β : Type} {f : Array NatSet → β → Array NatSet}
    (hf : ∀ a b, Within a (f a b)) {l : List β} {a : Array NatSet} (h : l.foldl f a = a) :
    ∀ b ∈ l, f a b = a :=
  ObjectPascal.foldl_fixed refl trans antisymm hf h

end Within

section Saturate

variable {α β : Type} [DecidableEq α] {f : α → α}

theorem saturate_induct {P : α → Prop} (hf : ∀ x, P x → P (f x)) (n : Nat) (x : α) (h : P x) :
    P (saturate f n x) := by
  induction n generalizing x with
  | zero => exact h
  | succ n ih =>
    simp only [saturate]
    split
    · exact h
    · exact ih _ (hf x h)

/-- Repeating `f` from `x` comes to an end in `y`: after some rounds that all change something there
is one that changes nothing. -/
def Converges (f : α → α) (x y : α) : Prop :=
  ∃ m, y = f^[m] x ∧ (∀ i < m, f (f^[i] x) ≠ f^[i] x) ∧ f y = y

/-- Saturation that ends in a value which the round keeps has not run out of fuel. -/
theorem converges_saturate {n : Nat} {x : α} (h : f (saturate f n x) = saturate f n x) :
    Converges f x (saturate f n x) := by
  suffices hrounds : ∃ m, saturate f n x = f^[m] x ∧ ∀ i < m, f (f^[i] x) ≠ f^[i] x by
    obtain ⟨m, heq, hchange⟩ := hrounds
    exact ⟨m, heq, hchange, h⟩
  clear h
  induction n generalizing x with
  | zero => exact ⟨0, rfl, fun i hi => absurd hi (Nat.not_lt_zero i)⟩
  | succ n ih =>
    by_cases hx : f x = x
    · refine ⟨0, ?_, fun i hi => absurd hi (Nat.not_lt_zero i)⟩
      simp only [saturate, if_pos hx, Function.iterate_zero, id_eq]
    · obtain ⟨m, heq, hchange⟩ := ih (x := f x)
      refine ⟨m + 1, ?_, ?_⟩
      · simp only [saturate, if_neg hx, heq, Function.iterate_succ_apply]
      · intro i hi
        cases i with
        | zero => exact hx
        | succ i => exact hchange i (Nat.lt_of_succ_lt_succ hi)

/-- With a finite stock of facts, of which every round that changes something adds one, saturation
ends in a value that the round keeps. -/
theorem saturate_fixed [DecidableEq β] {P : α → Prop} (hf : ∀ x, P x → P (f x))
    (facts : α → Finset β) (stock : Finset β) (hs : ∀ x, P x → facts x ⊆ stock)
    (hg : ∀ x, P x → f x ≠ x → facts x ⊂ facts (f x)) (n : Nat) (x : α) (hx : P x)
    (hn : stock.card < n + (facts x).card) : f (saturate f n x) = saturate f n x := by
  induction n generalizing x with
  | zero =>
    -- Without fuel there would be more facts than the stock holds.
    have := Finset.card_le_card (hs x hx)
    omega
  | succ n ih =>
    simp only [saturate]
    split
    · assumption
    · rename_i hne
      have hlt := Finset.card_lt_card (hg x hx hne)
      exact ih _ (hf x hx) (by omega)

end Saturate

/-- All members of all sets of a row lie below a bound. -/
def MembersBelow (bound : Nat) (a : Array NatSet) : Prop := ∀ i n, n ∈ setAt a i → n < bound

/-- The members of all sets of a row, each with its place. -/
def members (bound : Nat) (a : Array NatSet) : Finset (Nat × Nat) :=
  (Finset.range a.size ×ˢ Finset.range bound).filter fun e => e.2 ∈ setAt a e.1

theorem mem_members {bound : Nat} {a : Array NatSet} (hb : MembersBelow bound a) {i n : Nat} :
    (i, n) ∈ members bound a ↔ n ∈ setAt a i := by
  simp only [members, Finset.mem_filter, Finset.mem_product, Finset.mem_range]
  exact ⟨fun h => h.2, fun h => ⟨⟨lt_size_of_mem h, hb i n h⟩, h⟩⟩

theorem members_ssubset {bound : Nat} {a b : Array NatSet} (ha : MembersBelow bound a)
    (hb : MembersBelow bound b) (h : Within a b) (hne : b ≠ a) :
    members bound a ⊂ members bound b := by
  refine ⟨?_, ?_⟩
  · rintro ⟨i, n⟩ hin
    exact (mem_members hb).mpr (h.2 i n ((mem_members ha).mp hin))
  · intro hsub
    apply hne
    refine Within.antisymm ⟨h.1.symm, fun i n hn => ?_⟩ h
    exact (mem_members ha).mp (hsub ((mem_members hb).mpr hn))

/-- Saturation of a row of sets by a round that only adds members below a bound: it keeps what it
began with and ends in a row that the round keeps. -/
theorem saturate_row (bound : Nat) {f : Array NatSet → Array NatSet} (hg : ∀ a, Within a (f a))
    (hb : ∀ a, MembersBelow bound a → MembersBelow bound (f a)) {a : Array NatSet}
    (ha : MembersBelow bound a) {n : Nat} (hn : a.size * bound < n) :
    Within a (saturate f n a) ∧ MembersBelow bound (saturate f n a) ∧
      f (saturate f n a) = saturate f n a := by
  have hw : Within a (saturate f n a) :=
    saturate_induct (fun x hx => hx.trans (hg x)) n a (Within.refl a)
  refine ⟨hw, saturate_induct hb n a ha, ?_⟩
  refine saturate_fixed (P := fun x => x.size = a.size ∧ MembersBelow bound x)
    (fun x hx => ⟨(hg x).1.symm.trans hx.1, hb x hx.2⟩) (members bound)
    (Finset.range a.size ×ˢ Finset.range bound) ?_ ?_ n a ⟨rfl, ha⟩ ?_
  · intro x hx
    rw [members, hx.1]
    exact Finset.filter_subset _ _
  · intro x hx hne
    exact members_ssubset hx.2 (hb x hx.2) (hg x) hne
  · rw [Finset.card_product, Finset.card_range, Finset.card_range]
    omega

end ObjectPascal
