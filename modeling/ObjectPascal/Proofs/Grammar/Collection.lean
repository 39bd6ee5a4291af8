import Mathlib.Data.List.Sort
import Mathlib.Data.List.SplitBy
import Mathlib.Data.List.Sublists
import ObjectPascal.Proofs.Grammar.Closure
import ObjectPascal.Proofs.Kind

/-!
The collection of states. A kernel is a sorted list of items without repetition, so there are no
more kernels than sets of items, and exploring ends with the steps of all states known. Each step
over a symbol leads to the state whose kernel holds exactly the items that the step advances.
-/

namespace ObjectPascal.Grammar

variable {g : Grammar}

section Steps

open Survey

theorem stepLe_iff {a b : Symbol × Item} :
    stepLe a b = true ↔ a.1.index < b.1.index ∨ (a.1.index = b.1.index ∧
      (a.2.prod < b.2.prod ∨ (a.2.prod = b.2.prod ∧ a.2.dot ≤ b.2.dot))) := by
  unfold stepLe
  split
  · simp only [decide_eq_true_eq]
    omega
  · split
    · simp only [decide_eq_true_eq]
      omega
    · simp only [decide_eq_true_eq]
      omega

theorem stepLe_trans (a b c : Symbol × Item) (hab : stepLe a b = true) (hbc : stepLe b c = true) :
    stepLe a c = true := by
  rw [stepLe_iff] at hab hbc ⊢
  omega

theorem stepLe_total (a b : Symbol × Item) : (stepLe a b || stepLe b a) = true := by
  rw [Bool.or_eq_true, stepLe_iff, stepLe_iff]
  omega

/-- The items of a kernel in order. -/
def itemLe (i j : Item) : Prop := i.prod < j.prod ∨ (i.prod = j.prod ∧ i.dot ≤ j.dot)

instance : Std.Antisymm itemLe := by
  refine ⟨fun i j h k => ?_⟩
  obtain ⟨p, d⟩ := i
  obtain ⟨p', d'⟩ := j
  simp only [itemLe] at h k
  obtain ⟨rfl, rfl⟩ : p = p' ∧ d = d' := by omega
  rfl

/-- The advanced items of a closure with the symbols they were advanced over, in order. -/
def advanced (g : Grammar) (kernel : List Item) : List (Symbol × Item) :=
  ((g.survey.closure kernel).filterMap g.survey.advance).mergeSort stepLe

theorem mem_advanced {kernel : List Item} {x : Symbol} {i : Item} :
    (x, i) ∈ g.advanced kernel ↔
      ∃ j ∈ g.survey.closure kernel, g.next j = some x ∧ i = ⟨j.prod, j.dot + 1⟩ := by
  simp only [advanced, List.mem_mergeSort, List.mem_filterMap, advance, survey_grammar,
    Option.map_eq_some_iff, Prod.mk.injEq]
  constructor
  · rintro ⟨j, hj, y, hy, rfl, rfl⟩
    exact ⟨j, hj, hy, rfl⟩
  · rintro ⟨j, hj, hy, rfl⟩
    exact ⟨j, hj, x, hy, rfl, rfl⟩

theorem advanced_sorted (kernel : List Item) :
    (g.advanced kernel).Pairwise fun a b => stepLe a b = true :=
  List.pairwise_mergeSort stepLe_trans stepLe_total _

/-- The groups of advanced items with one symbol. -/
def groups (g : Grammar) (kernel : List Item) : List (List (Symbol × Item)) :=
  (g.advanced kernel).splitBy fun a b => a.1 == b.1

theorem symbol_eq_of_mem_group {kernel : List Item} {group : List (Symbol × Item)}
    (hg : group ∈ g.groups kernel) {a b : Symbol × Item} (ha : a ∈ group) (hb : b ∈ group) :
    a.1 = b.1 := by
  have hchain : group.IsChain fun a b => a.1 = b.1 :=
    (List.isChain_of_mem_splitBy hg).imp fun _ _ h => eq_of_beq h
  have : IsTrans (Symbol × Item) fun a b => a.1 = b.1 := ⟨fun _ _ _ h k => h.trans k⟩
  have : Std.Symm fun a b : Symbol × Item => a.1 = b.1 := ⟨fun _ _ h => h.symm⟩
  have hpair := List.isChain_iff_pairwise.mp hchain
  exact hpair.forall_of_forall (fun a _ => (rfl : a.1 = a.1)) ha hb

/-- Groups come in the order of their symbols. -/
theorem groups_ascending (kernel : List Item) :
    (g.groups kernel).Pairwise fun s t => ∀ a ∈ s, ∀ b ∈ t, a.1.index < b.1.index := by
  have hflat : (g.groups kernel).flatten.Pairwise fun a b => stepLe a b = true := by
    rw [groups, List.flatten_splitBy]
    exact advanced_sorted kernel
  have hle := (List.pairwise_flatten.mp hflat).2
  have hchain := List.isChain_getLast_head_splitBy (fun a b : Symbol × Item => a.1 == b.1)
    (g.advanced kernel)
  -- Only neighbouring groups are known to differ in their symbols; the order of the heads carries
  -- this over to all pairs.
  have hheads : (g.groups kernel).Pairwise fun s t =>
      (s.head?.map (·.1.index)).getD 0 < (t.head?.map (·.1.index)).getD 0 := by
    have : IsTrans (List (Symbol × Item)) fun s t =>
        (s.head?.map (·.1.index)).getD 0 < (t.head?.map (·.1.index)).getD 0 :=
      ⟨fun _ _ _ h k => Nat.lt_trans h k⟩
    apply List.isChain_iff_pairwise.mp
    have hboth : (g.groups kernel).IsChain fun s t =>
        (s ∈ g.groups kernel ∧ t ∈ g.groups kernel) ∧
        (∀ a ∈ s, ∀ b ∈ t, stepLe a b = true) ∧
        ∃ hs ht, ((s.getLast hs).1 == (t.head ht).1) = false := by
      refine (List.isChain_iff_getElem.mpr fun i hi => ?_)
      refine ⟨⟨List.getElem_mem _, List.getElem_mem _⟩, ?_, ?_⟩
      · exact List.isChain_iff_getElem.mp (List.Pairwise.isChain hle) i hi
      · exact List.isChain_iff_getElem.mp hchain i hi
    refine hboth.imp ?_
    rintro s t ⟨⟨hs, ht⟩, hst, hsn, htn, hne⟩
    have hlast : (s.getLast hsn).1 = (s.head hsn).1 :=
      symbol_eq_of_mem_group hs (List.getLast_mem hsn) (List.head_mem hsn)
    have hstep := stepLe_iff.mp (hst _ (List.head_mem hsn) _ (List.head_mem htn))
    have hindex : (s.head hsn).1.index ≠ (t.head htn).1.index := by
      intro h
      rw [hlast, Symbol.index_inj h, beq_self_eq_true] at hne
      cases hne
    rw [List.head?_eq_some_head hsn, List.head?_eq_some_head htn]
    simp only [Option.map_some, Option.getD_some]
    omega
  refine (List.Pairwise.and_mem.mp hheads).imp ?_
  rintro s t ⟨hs, ht, hlt⟩ a ha b hb
  have hsn := List.ne_nil_of_mem ha
  have htn := List.ne_nil_of_mem hb
  rw [List.head?_eq_some_head hsn, List.head?_eq_some_head htn] at hlt
  rw [symbol_eq_of_mem_group hs ha (List.head_mem hsn),
    symbol_eq_of_mem_group ht hb (List.head_mem htn)]
  simpa using hlt

theorem mem_steps {kernel : List Item} {x : Symbol} {k : List Item} :
    (x, k) ∈ g.survey.steps kernel ↔
      ∃ group ∈ g.groups kernel, (∃ i, group.head? = some (x, i)) ∧ group.map (·.2) = k := by
  simp only [Survey.steps, List.mem_filterMap, Option.map_eq_some_iff, Prod.mk.injEq]
  constructor
  · rintro ⟨group, hg, ⟨y, i⟩, hhead, rfl, rfl⟩
    exact ⟨group, hg, ⟨i, hhead⟩, rfl⟩
  · rintro ⟨group, hg, ⟨i, hhead⟩, rfl⟩
    exact ⟨group, hg, (x, i), hhead, rfl, rfl⟩

/-- The kernel behind a step holds exactly the items advanced over its symbol. -/
theorem mem_of_mem_steps {kernel : List Item} {x : Symbol} {k : List Item}
    (h : (x, k) ∈ g.survey.steps kernel) {i : Item} :
    i ∈ k ↔ ∃ j ∈ g.survey.closure kernel, g.next j = some x ∧ i = ⟨j.prod, j.dot + 1⟩ := by
  rw [← mem_advanced]
  obtain ⟨group, hg, ⟨i₀, hhead⟩, rfl⟩ := mem_steps.mp h
  have hfirst : (x, i₀) ∈ group := List.mem_of_mem_head? hhead
  constructor
  · intro hi
    obtain ⟨⟨y, j⟩, hj, rfl⟩ := List.mem_map.mp hi
    obtain rfl : y = x := symbol_eq_of_mem_group hg hj hfirst
    rw [← List.flatten_splitBy (fun a b : Symbol × Item => a.1 == b.1) (g.advanced kernel)]
    exact List.mem_flatten.mpr ⟨group, hg, hj⟩
  · intro hi
    rw [← List.flatten_splitBy (fun a b : Symbol × Item => a.1 == b.1) (g.advanced kernel)] at hi
    obtain ⟨group', hg', hi'⟩ := List.mem_flatten.mp hi
    by_cases hsame : group' = group
    · subst hsame
      exact List.mem_map.mpr ⟨(x, i), hi', rfl⟩
    · -- A second group of the same symbol would be out of order.
      have hpair : (g.groups kernel).Pairwise fun s t => ∀ a ∈ s, ∀ b ∈ t, a.1 ≠ b.1 := by
        refine (groups_ascending kernel).imp fun h a ha b hb hab => ?_
        exact absurd (congrArg Symbol.index hab) (h a ha b hb).ne
      have : Std.Symm fun s t : List (Symbol × Item) => ∀ a ∈ s, ∀ b ∈ t, a.1 ≠ b.1 :=
        ⟨fun _ _ h a ha b hb => (h b hb a ha).symm⟩
      exact absurd (rfl : x = x) (hpair.forall hg' hg hsame (x, i) hi' (x, i₀) hfirst)

theorem exists_mem_steps {kernel : List Item} {j : Item} (hj : j ∈ g.survey.closure kernel)
    {x : Symbol} (hx : g.next j = some x) : ∃ k, (x, k) ∈ g.survey.steps kernel := by
  have hmem : (x, ⟨j.prod, j.dot + 1⟩) ∈ g.advanced kernel := mem_advanced.mpr ⟨j, hj, hx, rfl⟩
  rw [← List.flatten_splitBy (fun a b : Symbol × Item => a.1 == b.1) (g.advanced kernel)] at hmem
  obtain ⟨group, hg, hin⟩ := List.mem_flatten.mp hmem
  have hne := List.ne_nil_of_mem hin
  have hsym := symbol_eq_of_mem_group hg (List.head_mem hne) hin
  refine ⟨group.map (·.2), mem_steps.mpr ⟨group, hg, ⟨(group.head hne).2, ?_⟩, rfl⟩⟩
  rw [List.head?_eq_some_head hne]
  exact congrArg some (Prod.ext hsym rfl)

/-- No two steps from one kernel are over the same symbol. -/
theorem steps_nodup (kernel : List Item) : ((g.survey.steps kernel).map (·.1)).Nodup := by
  have hkey : (g.survey.steps kernel).map (·.1) =
      (g.groups kernel).filterMap fun group => group.head?.map (·.1) := by
    simp only [Survey.steps, List.map_filterMap, Option.map_map]
    rfl
  rw [hkey, List.Nodup, List.pairwise_filterMap]
  refine (groups_ascending kernel).imp ?_
  intro s t h x hx y hy hxy
  obtain ⟨a, ha, rfl⟩ := Option.map_eq_some_iff.mp hx
  obtain ⟨b, hb, rfl⟩ := Option.map_eq_some_iff.mp hy
  have := h a (List.mem_of_mem_head? ha) b (List.mem_of_mem_head? hb)
  rw [hxy] at this
  exact absurd this (lt_irrefl _)

end Steps

section Evaluation

/-- Sorting by merging gives what sorting by insertion gives. Only the latter evaluates by structural
recursion. -/
theorem mergeSort_eq_insertionSort {α : Type} {le : α → α → Bool}
    (htrans : ∀ a b c, le a b = true → le b c = true → le a c = true)
    (htotal : ∀ a b, (le a b || le b a) = true) (l : List α) :
    l.mergeSort le = l.insertionSort fun a b => le a b = true := by
  induction l with
  | nil => exact List.mergeSort_nil
  | cons a l ih =>
    obtain ⟨l₁, l₂, hall, hrest, hbefore⟩ := List.mergeSort_cons htrans htotal a l
    have hsorted := List.pairwise_mergeSort htrans htotal (a :: l)
    rw [List.insertionSort_cons, ← ih, hrest, hall]
    rw [hall] at hsorted
    clear hall hrest ih
    induction l₁ with
    | nil =>
      cases l₂ with
      | nil => rfl
      | cons b l₂ =>
        have hab : le a b = true := List.rel_of_pairwise_cons hsorted List.mem_cons_self
        simp only [List.nil_append, List.orderedInsert_cons, if_pos hab]
    | cons b l₁ ih =>
      have hab : ¬ le a b = true := by simpa using hbefore b List.mem_cons_self
      rw [List.cons_append, List.cons_append, List.orderedInsert_cons, if_neg hab,
        ← ih (fun c hc => hbefore c (List.mem_cons_of_mem _ hc)) (List.Pairwise.of_cons hsorted)]

namespace Survey

/-- The steps of a kernel with the advanced items sorted by insertion. -/
def insertedSteps (s : Survey) (kernel : List Item) : List (Symbol × List Item) :=
  let advanced := ((s.closure kernel).filterMap s.advance).insertionSort fun a b =>
    stepLe a b = true
  (advanced.splitBy fun a b => a.1 == b.1).filterMap fun group =>
    group.head?.map fun a => (a.1, group.map (·.2))

theorem steps_eq (s : Survey) (kernel : List Item) : s.steps kernel = s.insertedSteps kernel := by
  rw [steps, mergeSort_eq_insertionSort stepLe_trans stepLe_total, insertedSteps]

end Survey

namespace Automaton

/-- Exploring with the steps sorted by insertion. -/
def exploreInserted (s : Survey) : Nat → Automaton → Automaton
  | 0, a => a
  | fuel + 1, a =>
    match a.kernels[a.edges.size]? with
    | none => a
    | some kernel =>
      let (kernels, edges) := (s.insertedSteps kernel).foldl (fun (kernels, edges) (x, k) =>
        let (kernels, i) := intern kernels k
        (kernels, (x, i) :: edges)) (a.kernels, [])
      exploreInserted s fuel ⟨kernels, a.edges.push edges.reverse⟩

theorem explore_eq (s : Survey) (fuel : Nat) (a : Automaton) :
    explore s fuel a = exploreInserted s fuel a := by
  induction fuel generalizing a with
  | zero => rfl
  | succ fuel ih =>
    unfold explore exploreInserted
    cases a.kernels[a.edges.size]? with
    | none => rfl
    | some kernel =>
      dsimp only
      rw [ih, expand, Survey.steps_eq]

end Automaton

/-- The automaton in a form that evaluates. -/
theorem Survey.automaton_eq (s : Survey) :
    s.automaton = Automaton.exploreInserted s (Nat.pow 4 s.grammar.itemCount) {} :=
  Automaton.explore_eq s _ _

end Evaluation

/-- All items of a grammar in order. -/
def items (g : Grammar) : List Item :=
  (List.range g.productions.size).flatMap fun i =>
    (List.range ((g.production i).rhs.length + 1)).map fun d => ⟨i, d⟩

theorem mem_items {i : Item} :
    i ∈ g.items ↔ i.prod < g.productions.size ∧ i.dot ≤ (g.production i.prod).rhs.length := by
  simp only [items, List.mem_flatMap, List.mem_range, List.mem_map]
  constructor
  · rintro ⟨p, hp, d, hd, rfl⟩
    exact ⟨hp, Nat.lt_succ_iff.mp hd⟩
  · rintro ⟨hp, hd⟩
    exact ⟨i.prod, hp, i.dot, Nat.lt_succ_iff.mpr hd, rfl⟩

theorem items_length : g.items.length = g.itemCount := by
  have hlist : (List.range g.productions.size).map g.production = g.productions.toList := by
    apply List.ext_getElem
    · simp
    · intro i h₁ h₂
      simp [production_eq_getElem (g := g) (i := i) (by simpa using h₂)]
  have hfold (l : List Production) :
      l.foldr (fun p n => p.rhs.length + 1 + n) 0 = (l.map fun p => p.rhs.length + 1).sum := by
    induction l with
    | nil => rfl
    | cons p l ih => simp [ih]
  rw [itemCount, hfold, ← hlist, items, List.length_flatMap]
  simp [Function.comp_def]

theorem items_sorted : g.items.Pairwise itemLe := by
  rw [items, List.pairwise_flatMap]
  refine ⟨fun i _ => ?_, ?_⟩
  · rw [List.pairwise_map]
    exact List.pairwise_lt_range.imp fun h => Or.inr ⟨rfl, h.le⟩
  · refine List.pairwise_lt_range.imp fun h a ha b hb => ?_
    obtain ⟨d, _, rfl⟩ := List.mem_map.mp ha
    obtain ⟨e, _, rfl⟩ := List.mem_map.mp hb
    exact Or.inl h

/-- A kernel lists items in order and without repetition, and but for the start item none of them
is at the beginning of its production. -/
structure IsKernel (g : Grammar) (kernel : List Item) : Prop where
  sublist : kernel.Sublist g.items
  zero_of_dot : ∀ i ∈ kernel, i.dot = 0 → i.prod = 0

theorem items_nodup : g.items.Nodup := by
  rw [items, List.nodup_flatMap]
  refine ⟨fun i _ => ?_, ?_⟩
  · exact List.nodup_range.map fun a b h => (Item.mk.inj h).2
  · refine List.nodup_range.imp fun h => ?_
    intro a ha hb
    obtain ⟨d, _, rfl⟩ := List.mem_map.mp ha
    obtain ⟨e, _, he⟩ := List.mem_map.mp hb
    exact h (Item.mk.inj he).1.symm

theorem isKernel_start (hw : g.WellFormed) : g.IsKernel [⟨0, 0⟩] := by
  refine ⟨List.singleton_sublist.mpr (mem_items.mpr ⟨hw.size_pos, Nat.zero_le _⟩), ?_⟩
  intro i hi _
  rw [List.mem_singleton.mp hi]

/-- The closure of a kernel holds no item twice: what it adds is at the beginning of a production
of a nonterminal other than the goal. -/
theorem IsKernel.closure_nodup (hw : g.WellFormed) (hr : g.Unreserved) {kernel : List Item}
    (hk : g.IsKernel kernel) : (g.survey.closure kernel).Nodup := by
  have hzero := zero_notMem_expanded hw hr kernel
  rw [Survey.closure, List.nodup_append]
  refine ⟨items_nodup.sublist hk.sublist, ?_, ?_⟩
  · rw [List.nodup_flatMap]
    refine ⟨fun n hn => ?_, ?_⟩
    · have hlist : g.survey.productions.getD n [] = g.productionsOf n := by
        have hp : g.survey.productions = (Array.range g.nonterminalCount).map g.productionsOf := rfl
        have hlt : n < g.nonterminalCount := (NatSet.mem_below.mp hn).1
        simp [hp, Array.getD, hlt]
      rw [hlist]
      exact (List.nodup_range.filter _).map fun a b h => (Item.mk.inj h).1
    · refine (List.nodup_range.filter _).imp fun hne => ?_
      intro a ha hb
      obtain ⟨i, hi, rfl⟩ := List.mem_map.mp ha
      obtain ⟨j, hj, hij⟩ := List.mem_map.mp hb
      obtain rfl := (Item.mk.inj hij).1
      exact hne (((mem_survey_productions hw).mp hi).2.symm.trans
        ((mem_survey_productions hw).mp hj).2)
  · -- An item in both parts would be the start item, but the goal is never expanded.
    rintro a ha b hb rfl
    obtain ⟨n, hn, hb⟩ := List.mem_flatMap.mp hb
    obtain ⟨p, hp, rfl⟩ := List.mem_map.mp hb
    obtain rfl : p = 0 := hk.zero_of_dot _ ha rfl
    obtain ⟨_, rfl⟩ := (mem_survey_productions hw).mp hp
    rw [hw.goal_lhs] at hn
    exact hzero (NatSet.mem_below.mp hn).2

/-- A step from a kernel leads to a kernel. -/
theorem IsKernel.step (hw : g.WellFormed) (hr : g.Unreserved) {kernel : List Item}
    (hk : g.IsKernel kernel) {x : Symbol} {k : List Item} (h : (x, k) ∈ g.survey.steps kernel) :
    g.IsKernel k := by
  have hsub : ∀ i ∈ k, i ∈ g.items := by
    intro i hi
    obtain ⟨j, _, hx, rfl⟩ := (mem_of_mem_steps h).mp hi
    have hprod := prod_lt_of_next hx
    have hdot := (List.getElem?_eq_some_iff.mp hx).1
    exact mem_items.mpr ⟨hprod, hdot⟩
  obtain ⟨group, hg, _, rfl⟩ := mem_steps.mp h
  have hflat := List.flatten_splitBy (fun a b : Symbol × Item => a.1 == b.1) (g.advanced kernel)
  have hpart : group.Sublist (g.advanced kernel) := by
    conv_rhs => rw [← hflat]
    exact List.sublist_flatten_of_mem hg
  -- Different items of the closure stay different when they are advanced.
  have hnodup : (g.advanced kernel).Nodup := by
    refine (List.mergeSort_perm _ _).nodup_iff.mpr ?_
    refine (hk.closure_nodup hw hr).filterMap fun i j b hi hj => ?_
    obtain ⟨x, _, rfl⟩ := Option.map_eq_some_iff.mp hi
    obtain ⟨y, _, hy⟩ := Option.map_eq_some_iff.mp hj
    obtain ⟨hprod, hdot⟩ := Item.mk.inj (Prod.mk.inj hy).2
    cases i
    cases j
    simp only [Nat.add_right_cancel_iff] at hprod hdot
    rw [hprod, hdot]
  refine ⟨?_, ?_⟩
  · refine List.sublist_of_subperm_of_pairwise (r := itemLe) ?_ ?_ items_sorted
    · refine List.subperm_of_subset ?_ hsub
      refine (hnodup.sublist hpart).map_on fun a ha b hb hab => ?_
      exact Prod.ext (symbol_eq_of_mem_group hg ha hb) hab
    · rw [List.pairwise_map]
      have hsorted := List.Pairwise.and_mem.mp ((advanced_sorted kernel).sublist hpart)
      refine hsorted.imp ?_
      rintro a b ⟨ha, hb, hab⟩
      rcases stepLe_iff.mp hab with hlt | ⟨_, hle⟩
      · rw [symbol_eq_of_mem_group hg ha hb] at hlt
        exact absurd hlt (lt_irrefl _)
      · exact hle
  · intro i hi hdot
    obtain ⟨j, _, _, rfl⟩ := (mem_of_mem_steps h).mp hi
    cases hdot

namespace Automaton

/-- The second row of kernels has all kernels of the first under their old numbers. -/
def Extends (ks ks' : Array (List Item)) : Prop :=
  ∀ (q : Nat) (k : List Item), ks[q]? = some k → ks'[q]? = some k

theorem intern_spec (ks : Array (List Item)) (k : List Item) :
    Extends ks (intern ks k).1 ∧ (intern ks k).1[(intern ks k).2]? = some k ∧
      (ks.toList.Nodup → (intern ks k).1.toList.Nodup) ∧
      ∀ v ∈ (intern ks k).1, v ∈ ks ∨ v = k := by
  unfold intern
  split
  · rename_i i hi
    obtain ⟨hlt, heq, _⟩ := Array.findIdx?_eq_some_iff_getElem.mp hi
    refine ⟨fun _ _ h => h, ?_, fun h => h, fun v hv => Or.inl hv⟩
    rw [Array.getElem?_eq_getElem hlt, eq_of_beq heq]
  · rename_i hnone
    have hnew : k ∉ ks := by
      intro hmem
      exact absurd (Array.findIdx?_eq_none_iff.mp hnone k hmem) (by simp)
    refine ⟨?_, by simp, ?_, by simp⟩
    · intro q v hq
      have hlt := (Array.getElem?_eq_some_iff.mp hq).1
      rw [Array.getElem?_push_lt hlt, ← hq, Array.getElem?_eq_getElem hlt]
    · intro hnd
      rw [Array.toList_push, List.nodup_append]
      refine ⟨hnd, List.nodup_singleton k, ?_⟩
      rintro v hv w hw rfl
      rw [List.mem_singleton.mp hw] at hv
      exact hnew (Array.mem_toList_iff.mp hv)

/-- Interning the kernels behind a list of steps: the old numbers stay, and each symbol gets the
number of its kernel. -/
theorem intern_steps (l : List (Symbol × List Item)) (ks : Array (List Item))
    (es : List (Symbol × Nat)) :
    ∃ ks' es', l.foldl (fun (ks, es) (x, k) =>
        let (ks, q) := intern ks k
        (ks, (x, q) :: es)) (ks, es) = (ks', es' ++ es) ∧
      Extends ks ks' ∧ (ks.toList.Nodup → ks'.toList.Nodup) ∧
      (∀ v ∈ ks', v ∈ ks ∨ ∃ x, (x, v) ∈ l) ∧
      es'.reverse.map (fun e => (e.1, ks'[e.2]?)) = l.map fun e => (e.1, some e.2) := by
  induction l generalizing ks es with
  | nil => exact ⟨ks, [], rfl, fun _ _ h => h, fun h => h, fun v hv => Or.inl hv, rfl⟩
  | cons e l ih =>
    obtain ⟨x, k⟩ := e
    obtain ⟨hext, hat, hnd, hmem⟩ := intern_spec ks k
    -- The numbers given out later do not touch the one given out now.
    obtain ⟨ks', es', hfold, hext', hnd', hmem', hmap⟩ :=
      ih (intern ks k).1 ((x, (intern ks k).2) :: es)
    refine ⟨ks', es' ++ [(x, (intern ks k).2)], ?_, ?_, ?_, ?_, ?_⟩
    · rw [List.append_assoc]
      exact hfold
    · exact fun q v hq => hext' q v (hext q v hq)
    · exact fun h => hnd' (hnd h)
    · intro v hv
      rcases hmem' v hv with hv | ⟨y, hy⟩
      · rcases hmem v hv with hv | rfl
        · exact Or.inl hv
        · exact Or.inr ⟨x, List.mem_cons_self⟩
      · exact Or.inr ⟨y, List.mem_cons_of_mem _ hy⟩
    · simp only [List.reverse_append, List.reverse_singleton, List.singleton_append,
        List.map_cons, hmap, hext' _ _ hat]

/-- What holds of an automaton while it is explored: the states have different kernels, and the
states up to the number of known steps have exactly the steps of their kernels. -/
structure Explored (g : Grammar) (a : Automaton) : Prop where
  start : a.kernels[0]? = some [⟨0, 0⟩]
  nodup : a.kernels.toList.Nodup
  kernel : ∀ k ∈ a.kernels, g.IsKernel k
  size_le : a.edges.size ≤ a.kernels.size
  edges : ∀ q k, q < a.edges.size → a.kernels[q]? = some k →
    (a.edges.getD q []).map (fun e => (e.1, a.kernels[e.2]?)) =
      (g.survey.steps k).map fun e => (e.1, some e.2)

theorem Explored.initial (hw : g.WellFormed) : Explored g {} := by
  refine ⟨rfl, List.nodup_singleton _, ?_, by simp, by simp⟩
  intro k hk
  rw [List.mem_singleton.mp (Array.mem_toList_iff.mpr hk)]
  exact isKernel_start hw

/-- There are no more states than sets of items. -/
theorem Explored.size_le_pow {a : Automaton} (h : Explored g a) :
    a.kernels.size ≤ 2 ^ g.itemCount := by
  -- Each state has a kernel of its own, and a kernel is a sublist of all items.
  have hsub : a.kernels.toList ⊆ g.items.sublists := by
    intro k hk
    exact List.mem_sublists.mpr (h.kernel k (Array.mem_toList_iff.mp hk)).sublist
  have hle := (List.subperm_of_subset h.nodup hsub).length_le
  rwa [List.length_sublists, items_length, Array.length_toList] at hle

theorem Explored.expand (hw : g.WellFormed) (hr : g.Unreserved) {a : Automaton}
    (h : Explored g a) {kernel : List Item} (hk : a.kernels[a.edges.size]? = some kernel) :
    Explored g (expand g.survey a kernel) := by
  obtain ⟨ks, es, hfold, hext, hnd, hmem, hmap⟩ :=
    intern_steps (g.survey.steps kernel) a.kernels []
  have hexpand : Automaton.expand g.survey a kernel = ⟨ks, a.edges.push es.reverse⟩ := by
    unfold Automaton.expand
    rw [hfold, List.append_nil]
  have hlt : a.edges.size < ks.size :=
    (Array.getElem?_eq_some_iff.mp (hext _ _ hk)).1
  rw [hexpand]
  refine ⟨hext _ _ h.start, hnd h.nodup, ?_, by rw [Array.size_push]; exact hlt, ?_⟩
  · intro k hkin
    rcases hmem k hkin with hold | ⟨x, hx⟩
    · exact h.kernel k hold
    · exact (h.kernel kernel (Array.mem_of_getElem? hk)).step hw hr hx
  · intro q k hq hqk
    rw [Array.size_push] at hq
    by_cases hlast : q = a.edges.size
    · subst hlast
      obtain rfl : kernel = k := Option.some.inj ((hext _ _ hk).symm.trans hqk)
      simpa [Array.getD] using hmap
    · have hqe : q < a.edges.size := by omega
      have hqk' : a.kernels[q]? = some k := by
        have hqs : q < a.kernels.size := hqe.trans_le h.size_le
        rw [← hqk, hext q _ (Array.getElem?_eq_getElem hqs), Array.getElem?_eq_getElem hqs]
      have hold := h.edges q k hqe hqk'
      have hget : (a.edges.push es.reverse).getD q [] = a.edges.getD q [] := by
        simp [Array.getD, hqe, Nat.lt_succ_of_lt hqe, Array.getElem_push_lt hqe]
      rw [hget, ← hold]
      apply List.map_congr_left
      intro e he
      -- An old step leads to an old kernel, which keeps its number.
      have hin : (e.1, a.kernels[e.2]?) ∈ (g.survey.steps k).map fun e => (e.1, some e.2) := by
        rw [← hold]
        exact List.mem_map.mpr ⟨e, he, rfl⟩
      obtain ⟨f, _, hf⟩ := List.mem_map.mp hin
      have hsome : a.kernels[e.2]? = some f.2 := (Prod.mk.inj hf).2.symm
      rw [hsome, hext _ _ hsome]

/-- Exploring ends with the steps of all states known, as there are fewer states than fuel. -/
theorem Explored.explore (hw : g.WellFormed) (hr : g.Unreserved) (fuel : Nat) {a : Automaton}
    (h : Explored g a) (hf : 2 ^ g.itemCount ≤ fuel + a.edges.size) :
    Explored g (explore g.survey fuel a) ∧
      (Automaton.explore g.survey fuel a).edges.size =
        (Automaton.explore g.survey fuel a).kernels.size := by
  induction fuel generalizing a with
  | zero =>
    -- Out of fuel, the states with known steps are already as many as there can be states.
    have := h.size_le_pow
    have := h.size_le
    exact ⟨h, by simp only [Automaton.explore]; omega⟩
  | succ fuel ih =>
    simp only [Automaton.explore]
    split
    · rename_i hnone
      have := Array.getElem?_eq_none_iff.mp hnone
      exact ⟨h, le_antisymm h.size_le this⟩
    · rename_i kernel hk
      refine ih (h.expand hw hr hk) ?_
      simp only [Automaton.expand, Array.size_push]
      omega

end Automaton

theorem automaton_explored (hw : g.WellFormed) (hr : g.Unreserved) :
    Automaton.Explored g g.survey.automaton ∧
      g.survey.automaton.edges.size = g.survey.automaton.kernels.size := by
  refine (Automaton.Explored.initial hw).explore hw hr _ ?_
  have : 2 ^ g.itemCount ≤ 4 ^ g.itemCount := Nat.pow_le_pow_left (by omega) _
  exact this

/-- The kernel of a state; other numbers have none. -/
def kernelAt (g : Grammar) (q : Nat) : List Item := g.survey.automaton.kernels.getD q []

/-- The steps of a state. -/
def stepsAt (g : Grammar) (q : Nat) : List (Symbol × Nat) := g.survey.automaton.edges.getD q []

/-- The number of states. -/
def stateCount (g : Grammar) : Nat := g.survey.automaton.kernels.size

section States

variable (hw : g.WellFormed) (hr : g.Unreserved)

include hw in
theorem closure_nil : g.survey.closure [] = [] := by
  apply List.eq_nil_iff_forall_not_mem.mpr
  intro i hi
  rcases (mem_closure hw).mp hi with hi | ⟨_, _, hn⟩
  · cases hi
  · obtain ⟨j, hj, _⟩ := mem_expanded.mp hn
    cases hj

theorem kernelAt_eq_some {q : Nat} (hq : q < g.stateCount) :
    g.survey.automaton.kernels[q]? = some (g.kernelAt q) := by
  have hq' : q < g.survey.automaton.kernels.size := hq
  rw [Array.getElem?_eq_getElem hq']
  simp [kernelAt, Array.getD, hq']

theorem kernelAt_of_le {q : Nat} (hq : g.stateCount ≤ q) : g.kernelAt q = [] := by
  have hq' : ¬ q < g.survey.automaton.kernels.size := Nat.not_lt.mpr hq
  simp [kernelAt, Array.getD, hq']

include hw hr

theorem stateCount_pos : 0 < g.stateCount :=
  (Array.getElem?_eq_some_iff.mp (automaton_explored hw hr).1.start).1

theorem kernelAt_zero : g.kernelAt 0 = [⟨0, 0⟩] := by
  have h := (automaton_explored hw hr).1.start
  rw [kernelAt_eq_some (stateCount_pos hw hr)] at h
  exact Option.some.inj h

theorem isKernel_kernelAt (q : Nat) : g.IsKernel (g.kernelAt q) := by
  by_cases hq : q < g.stateCount
  · exact (automaton_explored hw hr).1.kernel _ (Array.mem_of_getElem? (kernelAt_eq_some hq))
  · rw [kernelAt_of_le (Nat.not_lt.mp hq)]
    exact ⟨List.nil_sublist _, by simp⟩

/-- The steps of a state are those of its kernel. -/
theorem stepsAt_map {q : Nat} (hq : q < g.stateCount) :
    (g.stepsAt q).map (fun e => (e.1, g.survey.automaton.kernels[e.2]?)) =
      (g.survey.steps (g.kernelAt q)).map fun e => (e.1, some e.2) := by
  obtain ⟨hexp, hsize⟩ := automaton_explored hw hr
  exact hexp.edges q _ (by rw [hsize]; exact hq) (kernelAt_eq_some hq)

theorem lt_of_mem_stepsAt {q : Nat} {e : Symbol × Nat} (h : e ∈ g.stepsAt q) :
    q < g.stateCount := by
  by_contra hq
  obtain ⟨_, hsize⟩ := automaton_explored hw hr
  have hq' : ¬ q < g.survey.automaton.edges.size := by rw [hsize]; exact hq
  simp [stepsAt, Array.getD, hq'] at h

theorem mem_steps_of_mem_stepsAt {q q' : Nat} {x : Symbol} (h : (x, q') ∈ g.stepsAt q) :
    q' < g.stateCount ∧ (x, g.kernelAt q') ∈ g.survey.steps (g.kernelAt q) := by
  have hmap : (x, g.survey.automaton.kernels[q']?) ∈
      (g.stepsAt q).map fun e => (e.1, g.survey.automaton.kernels[e.2]?) :=
    List.mem_map.mpr ⟨(x, q'), h, rfl⟩
  rw [stepsAt_map hw hr (lt_of_mem_stepsAt hw hr h)] at hmap
  obtain ⟨⟨y, k⟩, hk, heq⟩ := List.mem_map.mp hmap
  obtain ⟨rfl, hkernel⟩ := Prod.mk.inj heq
  have hlt : q' < g.stateCount := (Array.getElem?_eq_some_iff.mp hkernel.symm).1
  rw [kernelAt_eq_some hlt] at hkernel
  obtain rfl := Option.some.inj hkernel
  exact ⟨hlt, hk⟩

/-- The state behind a step has exactly the items that the step advances. -/
theorem mem_kernelAt_of_step {q q' : Nat} {x : Symbol} (h : (x, q') ∈ g.stepsAt q) {i : Item} :
    i ∈ g.kernelAt q' ↔
      ∃ j ∈ g.survey.closure (g.kernelAt q), g.next j = some x ∧ i = ⟨j.prod, j.dot + 1⟩ :=
  mem_of_mem_steps (mem_steps_of_mem_stepsAt hw hr h).2

/-- A step is over a symbol behind the dot of some item of the closure. -/
theorem exists_item_of_step {q q' : Nat} {x : Symbol} (h : (x, q') ∈ g.stepsAt q) :
    ∃ j ∈ g.survey.closure (g.kernelAt q), g.next j = some x := by
  obtain ⟨group, _, ⟨i, hi⟩, hk⟩ := mem_steps.mp (mem_steps_of_mem_stepsAt hw hr h).2
  have hmem : i ∈ g.kernelAt q' := by
    rw [← hk]
    exact List.mem_map.mpr ⟨(x, i), List.mem_of_mem_head? hi, rfl⟩
  obtain ⟨j, hj, hnext, _⟩ := (mem_kernelAt_of_step hw hr h).mp hmem
  exact ⟨j, hj, hnext⟩

/-- There is a step over every symbol behind the dot of an item of the closure. -/
theorem exists_step {q : Nat} {j : Item} (hj : j ∈ g.survey.closure (g.kernelAt q)) {x : Symbol}
    (hx : g.next j = some x) : ∃ q', (x, q') ∈ g.stepsAt q := by
  have hq : q < g.stateCount := by
    by_contra hq
    rw [kernelAt_of_le (Nat.not_lt.mp hq), closure_nil hw] at hj
    cases hj
  obtain ⟨k, hk⟩ := exists_mem_steps hj hx
  have hmap : (x, some k) ∈ (g.survey.steps (g.kernelAt q)).map fun e => (e.1, some e.2) :=
    List.mem_map.mpr ⟨(x, k), hk, rfl⟩
  rw [← stepsAt_map hw hr hq] at hmap
  obtain ⟨⟨y, q'⟩, he, heq⟩ := List.mem_map.mp hmap
  obtain ⟨rfl, _⟩ := Prod.mk.inj heq
  exact ⟨q', he⟩

theorem stepsAt_nodup (q : Nat) : ((g.stepsAt q).map (·.1)).Nodup := by
  by_cases hq : q < g.stateCount
  · have h := congrArg (List.map Prod.fst) (stepsAt_map hw hr hq)
    simp only [List.map_map, Function.comp_def] at h
    rw [h]
    exact steps_nodup _
  · have hnil : g.stepsAt q = [] := by
      apply List.eq_nil_iff_forall_not_mem.mpr
      exact fun e he => hq (lt_of_mem_stepsAt hw hr he)
    rw [hnil]
    exact List.nodup_nil

/-- A step over a symbol leads to one state only. -/
theorem step_unique {q q₁ q₂ : Nat} {x : Symbol} (h₁ : (x, q₁) ∈ g.stepsAt q)
    (h₂ : (x, q₂) ∈ g.stepsAt q) : q₁ = q₂ := by
  have := List.inj_on_of_nodup_map (stepsAt_nodup hw hr q) h₁ h₂ rfl
  exact (Prod.mk.inj this).2

end States
end ObjectPascal.Grammar
