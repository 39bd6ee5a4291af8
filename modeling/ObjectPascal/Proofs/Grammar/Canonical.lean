import Mathlib.Data.Set.Basic
import ObjectPascal.Proofs.Grammar.Propagation

/-!
The canonical collection of sets of items. The closure of a state is the least set that holds its
kernel and the productions of all nonterminals that come next in it, and the closures of the states
are exactly the sets that advancing over symbols leads to from the start item.
-/

namespace ObjectPascal.Grammar

variable {g : Grammar}

section Sets

/-- The items of a set, and the productions of the nonterminals that come next in any of them. -/
inductive InClosure (g : Grammar) (s : Set Item) : Item → Prop
  | base {i : Item} (h : i ∈ s) : InClosure g s i
  | expand {i : Item} {p : Nat} (h : InClosure g s i) (hp : p < g.productions.size)
      (hn : g.next i = some (.nonterminal (g.production p).lhs)) : InClosure g s ⟨p, 0⟩

/-- The closure of a set of items. -/
def closureSet (g : Grammar) (s : Set Item) : Set Item := {i | g.InClosure s i}

/-- The items of a set that stand before a symbol, advanced over it. -/
def advanceSet (g : Grammar) (s : Set Item) (x : Symbol) : Set Item :=
  {i | ∃ j ∈ s, g.next j = some x ∧ i = ⟨j.prod, j.dot + 1⟩}

/-- The canonical collection: the closure of the start item, and with each set the closures of what
it advances to. -/
inductive Canonical (g : Grammar) : Set Item → Prop
  | start : Canonical g (g.closureSet {⟨0, 0⟩})
  | goto {s : Set Item} {x : Symbol} (h : Canonical g s) (hx : ∃ j ∈ s, g.next j = some x) :
      Canonical g (g.closureSet (g.advanceSet s x))

end Sets

/-- The items of a state. -/
def itemsAt (g : Grammar) (q : Nat) : Set Item := {i | i ∈ g.survey.closure (g.kernelAt q)}

/-- The states are the canonical collection: state 0 comes from the start item, different states
have different kernels, and a step over a symbol leads from a state to the state of the items that
have been advanced over it. The exploration ends with the steps of all states known. -/
structure IsCanonical (g : Grammar) : Prop where
  collection : ∀ s, g.Canonical s ↔ ∃ q < g.stateCount, s = g.itemsAt q
  closed : ∀ q, g.itemsAt q = g.closureSet {i | i ∈ g.kernelAt q}
  start : 0 < g.stateCount ∧ g.kernelAt 0 = [⟨0, 0⟩]
  distinct : ∀ q < g.stateCount, ∀ q' < g.stateCount,
    (∀ i, i ∈ g.kernelAt q ↔ i ∈ g.kernelAt q') → q = q'
  goto : ∀ q < g.stateCount, ∀ x q', g.survey.automaton.goto q x = some q' ↔ q' < g.stateCount ∧
    (∃ j ∈ g.itemsAt q, g.next j = some x) ∧ {i | i ∈ g.kernelAt q'} = g.advanceSet (g.itemsAt q) x
  explored : g.survey.automaton.edges.size = g.stateCount

namespace Automaton

/-- What holds of the first kernel, and with a kernel of those that its steps lead to, holds of all
kernels that are explored. -/
theorem explore_induct {P : List Item → Prop}
    (hstep : ∀ k x k', P k → (x, k') ∈ g.survey.steps k → P k') (fuel : Nat) {a : Automaton}
    (h : ∀ k ∈ a.kernels, P k) : ∀ k ∈ (explore g.survey fuel a).kernels, P k := by
  induction fuel generalizing a with
  | zero => exact h
  | succ fuel ih =>
    simp only [explore]
    split
    · exact h
    · rename_i kernel hk
      apply ih
      obtain ⟨ks, es, hfold, _, _, hmem, _⟩ :=
        intern_steps (g.survey.steps kernel) a.kernels []
      have hexpand : expand g.survey a kernel = ⟨ks, a.edges.push es.reverse⟩ := by
        unfold expand
        rw [hfold, List.append_nil]
      rw [hexpand]
      intro k hkin
      rcases hmem k hkin with hold | ⟨x, hx⟩
      · exact h k hold
      · exact hstep kernel x k (h kernel (Array.mem_of_getElem? hk)) hx

end Automaton

section States

variable (hw : g.WellFormed) (hr : g.Unreserved)

include hw

theorem mem_closure_iff_inClosure {kernel : List Item} {i : Item} :
    i ∈ g.survey.closure kernel ↔ g.InClosure {j | j ∈ kernel} i := by
  constructor
  · intro h
    rcases (mem_closure hw).mp h with hi | ⟨hdot, hlt, hexp⟩
    · exact .base hi
    · obtain ⟨j, hj, m, hm, hcone⟩ := mem_expanded.mp hexp
      have hreach := (mem_cones hw (lt_count_of_next hw hm)).mp hcone
      -- Along the chain of first nonterminals the productions join one after the other.
      have hchain : ∃ j', g.InClosure {j | j ∈ kernel} j' ∧
          g.next j' = some (.nonterminal (g.production i.prod).lhs) := by
        generalize (g.production i.prod).lhs = n at hreach ⊢
        clear h hexp hcone
        induction hreach with
        | refl => exact ⟨j, .base hj, hm⟩
        | tail _ hstep ih =>
          obtain ⟨p, hlhs, hnext⟩ := hstep
          obtain ⟨j', hin, hnext'⟩ := ih
          exact ⟨⟨p, 0⟩, .expand hin (prod_lt_of_next hnext) (hlhs ▸ hnext'), hnext⟩
      obtain ⟨j', hin, hnext⟩ := hchain
      obtain ⟨p, d⟩ := i
      obtain rfl : d = 0 := hdot
      exact .expand hin hlt hnext
  · intro h
    induction h with
    | base hi => exact (mem_closure hw).mpr (Or.inl hi)
    | expand _ hp hn ih =>
      exact (mem_closure hw).mpr (Or.inr ⟨rfl, hp, (mem_expanded_iff_next hw).mpr ⟨_, ih, hn⟩⟩)

theorem itemsAt_eq_closureSet (q : Nat) :
    g.itemsAt q = g.closureSet {i | i ∈ g.kernelAt q} :=
  Set.ext fun _ => mem_closure_iff_inClosure hw

include hr

/-- The kernel of a state is told by its items. -/
theorem mem_kernelAt_iff (q : Nat) (i : Item) :
    i ∈ g.kernelAt q ↔ i ∈ g.itemsAt q ∧ (i.dot = 0 → i.prod = 0) := by
  constructor
  · intro hi
    exact ⟨(mem_closure hw).mpr (Or.inl hi), (isKernel_kernelAt hw hr q).zero_of_dot i hi⟩
  · rintro ⟨hi, hzero⟩
    rcases (mem_closure hw).mp hi with hi | ⟨hdot, _, hexp⟩
    · exact hi
    · rw [hzero hdot, hw.goal_lhs] at hexp
      exact absurd hexp (zero_notMem_expanded hw hr _)

/-- Two states with the same items in their kernels are one. -/
theorem state_unique {q q' : Nat} (hq : q < g.stateCount) (hq' : q' < g.stateCount)
    (h : ∀ i, i ∈ g.kernelAt q ↔ i ∈ g.kernelAt q') : q = q' := by
  have hsorted (q : Nat) : (g.kernelAt q).Pairwise itemLe :=
    items_sorted.sublist (isKernel_kernelAt hw hr q).sublist
  have hnodup (q : Nat) : (g.kernelAt q).Nodup :=
    items_nodup.sublist (isKernel_kernelAt hw hr q).sublist
  have hperm : (g.kernelAt q).Perm (g.kernelAt q') :=
    (List.perm_ext_iff_of_nodup (hnodup q) (hnodup q')).mpr h
  have heq : g.kernelAt q = g.kernelAt q' :=
    hperm.eq_of_pairwise (fun a b _ _ hab hba => Std.Antisymm.antisymm a b hab hba)
      (hsorted q) (hsorted q')
  -- Equal kernels stand at one place of the row of all kernels.
  have hkernels := (automaton_explored hw hr).1.nodup
  have hget : g.survey.automaton.kernels.toList[q]? =
      g.survey.automaton.kernels.toList[q']? := by
    rw [Array.getElem?_toList, Array.getElem?_toList, kernelAt_eq_some hq, kernelAt_eq_some hq',
      heq]
  exact (List.getElem?_inj (by rwa [Array.length_toList]) hkernels).mp hget

theorem eq_of_itemsAt_eq {q q' : Nat} (hq : q < g.stateCount) (hq' : q' < g.stateCount)
    (h : g.itemsAt q = g.itemsAt q') : q = q' := by
  apply state_unique hw hr hq hq'
  intro i
  rw [mem_kernelAt_iff hw hr, mem_kernelAt_iff hw hr, h]

/-- What holds of state 0, and with a state of those that its steps lead to, holds of all. -/
theorem state_induct {P : Nat → Prop} (h0 : P 0)
    (hstep : ∀ q x q', P q → (x, q') ∈ g.stepsAt q → P q') (q : Nat) (hq : q < g.stateCount) :
    P q := by
  have hkernel : ∀ k ∈ g.survey.automaton.kernels, ∃ q < g.stateCount, g.kernelAt q = k ∧ P q := by
    refine Automaton.explore_induct (P := fun k => ∃ q < g.stateCount, g.kernelAt q = k ∧ P q)
      ?_ _ ?_
    · rintro _ x k ⟨q, hq, rfl, hP⟩ hk
      have hmap : (x, some k) ∈ (g.survey.steps (g.kernelAt q)).map fun e => (e.1, some e.2) :=
        List.mem_map.mpr ⟨(x, k), hk, rfl⟩
      rw [← stepsAt_map hw hr hq] at hmap
      obtain ⟨⟨y, q'⟩, he, heq⟩ := List.mem_map.mp hmap
      obtain ⟨rfl, hk'⟩ := Prod.mk.inj heq
      have hq' := (mem_steps_of_mem_stepsAt hw hr he).1
      rw [kernelAt_eq_some hq'] at hk'
      exact ⟨q', hq', Option.some.inj hk', hstep q y q' hP he⟩
    · intro k hk
      rw [List.mem_singleton.mp (Array.mem_toList_iff.mpr hk)]
      exact ⟨0, stateCount_pos hw hr, kernelAt_zero hw hr, h0⟩
  obtain ⟨q', hq', heq, hP⟩ := hkernel _ (Array.mem_of_getElem? (kernelAt_eq_some hq))
  rwa [state_unique hw hr hq hq' fun i => by rw [heq]]

/-- A step leads to the items that have been advanced over its symbol. -/
theorem kernel_of_step {q q' : Nat} {x : Symbol} (h : (x, q') ∈ g.stepsAt q) :
    {i | i ∈ g.kernelAt q'} = g.advanceSet (g.itemsAt q) x :=
  Set.ext fun _ => mem_kernelAt_of_step hw hr h

theorem itemsAt_of_step {q q' : Nat} {x : Symbol} (h : (x, q') ∈ g.stepsAt q) :
    g.itemsAt q' = g.closureSet (g.advanceSet (g.itemsAt q) x) := by
  rw [itemsAt_eq_closureSet hw, kernel_of_step hw hr h]

theorem itemsAt_zero : g.itemsAt 0 = g.closureSet {⟨0, 0⟩} := by
  rw [itemsAt_eq_closureSet hw, kernelAt_zero hw hr]
  congr 1
  ext i
  simp

theorem canonical_iff (s : Set Item) :
    g.Canonical s ↔ ∃ q < g.stateCount, s = g.itemsAt q := by
  constructor
  · intro h
    induction h with
    | start => exact ⟨0, stateCount_pos hw hr, (itemsAt_zero hw hr).symm⟩
    | goto _ hx ih =>
      obtain ⟨q, _, rfl⟩ := ih
      obtain ⟨j, hj, hnext⟩ := hx
      obtain ⟨q', hq'⟩ := exists_step hw hr hj hnext
      exact ⟨q', (mem_steps_of_mem_stepsAt hw hr hq').1, (itemsAt_of_step hw hr hq').symm⟩
  · rintro ⟨q, hq, rfl⟩
    refine state_induct hw hr (P := fun q => g.Canonical (g.itemsAt q)) ?_ ?_ q hq
    · rw [itemsAt_zero hw hr]
      exact .start
    · intro q x q' hcan hstep
      rw [itemsAt_of_step hw hr hstep]
      exact .goto hcan (exists_item_of_step hw hr hstep)

theorem isCanonical : g.IsCanonical where
  collection := canonical_iff hw hr
  closed := itemsAt_eq_closureSet hw
  start := ⟨stateCount_pos hw hr, kernelAt_zero hw hr⟩
  distinct _ hq _ hq' h := state_unique hw hr hq hq' h
  goto q hq x q' := by
    constructor
    · intro h
      have hstep := (automaton_goto hw hr).mp h
      exact ⟨(mem_steps_of_mem_stepsAt hw hr hstep).1, exists_item_of_step hw hr hstep,
        kernel_of_step hw hr hstep⟩
    · rintro ⟨hq', ⟨j, hj, hnext⟩, hkernel⟩
      obtain ⟨p, hp⟩ := exists_step hw hr hj hnext
      have hsame : {i | i ∈ g.kernelAt q'} = {i | i ∈ g.kernelAt p} :=
        hkernel.trans (kernel_of_step hw hr hp).symm
      have heq : q' = p := state_unique hw hr hq' (mem_steps_of_mem_stepsAt hw hr hp).1
        fun i => Set.ext_iff.mp hsame i
      rw [heq]
      exact (automaton_goto hw hr).mpr hp
  explored := (automaton_explored hw hr).2

end States

end ObjectPascal.Grammar
