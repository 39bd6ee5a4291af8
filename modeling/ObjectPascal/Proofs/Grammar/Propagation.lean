import Mathlib.Algebra.GroupWithZero.Nat
import ObjectPascal.Proofs.Grammar.Lookahead

/-!
How lookaheads spread from state to state. The kernel items of all states stand in one row, each at
a place of its own. What follows from one item for another is a list of passes from place to place,
and the lookaheads are closed under all of them. The start item is passed on to by itself alone, so
nothing but the end of the input follows it.
-/

namespace ObjectPascal.Grammar

variable {g : Grammar}

section Places

@[simp]
theorem slots_survey : g.slots.survey = g.survey := rfl

@[simp]
theorem slots_automaton : g.slots.automaton = g.survey.automaton := rfl

/-- The number of kernel items of the states before a given one. -/
def offset (g : Grammar) (q : Nat) : Nat :=
  ((g.survey.automaton.kernels.toList.take q).map List.length).sum

theorem offset_succ (q : Nat) : g.offset (q + 1) = g.offset q + (g.kernelAt q).length := by
  have hlast : (g.survey.automaton.kernels.toList[q]?).getD [] = g.kernelAt q := by
    simp [kernelAt, Array.getD_eq_getD_getElem?]
  rw [offset, List.take_add_one, List.map_append, List.sum_append, ← hlast]
  cases g.survey.automaton.kernels.toList[q]? <;> simp [offset]

theorem offset_mono {q q' : Nat} (h : q ≤ q') : g.offset q ≤ g.offset q' := by
  induction h with
  | refl => exact Nat.le_refl _
  | step _ ih =>
    rw [offset_succ]
    exact Nat.le_add_right_of_le ih

/-- Counting lengths one by one gives the sums of all beginnings. -/
theorem foldl_offsets (l : List (List Item)) :
    l.foldl (fun (o : Array Nat × Nat) k => (o.1.push o.2, o.2 + k.length)) (#[], 0) =
      (((List.range l.length).map fun q => ((l.take q).map List.length).sum).toArray,
        (l.map List.length).sum) := by
  induction l using List.reverseRecOn with
  | nil => rfl
  | append_singleton l k ih =>
    have hold : (List.range l.length).map (fun q => (((l ++ [k]).take q).map List.length).sum) =
        (List.range l.length).map fun q => ((l.take q).map List.length).sum := by
      apply List.map_congr_left
      intro q hq
      rw [List.take_append_of_le_length (List.mem_range.mp hq).le]
    rw [List.foldl_append, ih, List.length_append, List.length_singleton, List.range_succ,
      List.map_append, hold]
    simp

theorem slots_spec : g.slots.size = g.offset g.stateCount ∧
    ∀ q < g.stateCount, g.slots.offsets.getD q 0 = g.offset q := by
  have hfold := foldl_offsets g.survey.automaton.kernels.toList
  have hslots : g.slots = ⟨g.survey, g.survey.automaton,
      (g.survey.automaton.kernels.toList.foldl
        (fun (o : Array Nat × Nat) k => (o.1.push o.2, o.2 + k.length)) (#[], 0)).1,
      (g.survey.automaton.kernels.toList.foldl
        (fun (o : Array Nat × Nat) k => (o.1.push o.2, o.2 + k.length)) (#[], 0)).2⟩ := by
    rw [Array.foldl_toList]
    rfl
  rw [hslots, hfold]
  refine ⟨?_, fun q hq => ?_⟩
  · rw [offset, stateCount, List.take_of_length_le (by simp)]
  · have hq' : q < g.survey.automaton.kernels.size := hq
    simp [Array.getD_eq_getD_getElem?, hq', offset]

theorem lt_stateCount_of_kernelAt {q d : Nat} {i : Item} (h : (g.kernelAt q)[d]? = some i) :
    q < g.stateCount := by
  by_contra hq
  rw [kernelAt_of_le (Nat.not_lt.mp hq)] at h
  cases h

/-- The place of an item of a kernel in the row of all states. -/
theorem place_lt {q d : Nat} {i : Item} (h : (g.kernelAt q)[d]? = some i) :
    g.offset q + d < g.slots.size := by
  have hd : d < (g.kernelAt q).length := (List.getElem?_eq_some_iff.mp h).1
  have hle := offset_mono (g := g) (lt_stateCount_of_kernelAt h)
  rw [Nat.succ_eq_add_one, offset_succ] at hle
  rw [slots_spec.1]
  omega

/-- No two items share a place. -/
theorem place_inj {q q' d d' : Nat} {i i' : Item} (h : (g.kernelAt q)[d]? = some i)
    (h' : (g.kernelAt q')[d']? = some i') (heq : g.offset q + d = g.offset q' + d') :
    q = q' ∧ i = i' := by
  have hd : d < (g.kernelAt q).length := (List.getElem?_eq_some_iff.mp h).1
  have hd' : d' < (g.kernelAt q').length := (List.getElem?_eq_some_iff.mp h').1
  have hq : q = q' := by
    rcases Nat.lt_trichotomy q q' with hlt | hlt | hlt
    · have hle := offset_mono (g := g) hlt
      rw [Nat.succ_eq_add_one, offset_succ] at hle
      omega
    · exact hlt
    · have hle := offset_mono (g := g) hlt
      rw [Nat.succ_eq_add_one, offset_succ] at hle
      omega
  subst hq
  obtain rfl : d = d' := by omega
  rw [h] at h'
  exact ⟨rfl, Option.some.inj h'⟩

theorem mem_kernelSets {q : Nat} {i : Item} {la : NatSet} :
    (i, la) ∈ g.kernelSets q ↔
      ∃ d, (g.kernelAt q)[d]? = some i ∧ setAt g.slots.lookaheads (g.offset q + d) = la := by
  have hsets : g.kernelSets q = ((g.kernelAt q).zipIdx (g.slots.offsets.getD q 0)).map
      fun e => (e.1, setAt g.slots.lookaheads e.2) := rfl
  rw [hsets, List.mem_map]
  constructor
  · rintro ⟨⟨j, p⟩, hmem, heq⟩
    obtain ⟨rfl, rfl⟩ := Prod.mk.inj heq
    obtain ⟨hle, hget⟩ := List.mk_mem_zipIdx_iff_le_and_getElem?_sub.mp hmem
    refine ⟨_, hget, ?_⟩
    rw [slots_spec.2 q (lt_stateCount_of_kernelAt hget)] at hle ⊢
    rw [Nat.add_sub_cancel' hle]
  · rintro ⟨d, hget, rfl⟩
    refine ⟨(i, g.offset q + d), ?_, rfl⟩
    rw [← slots_spec.2 q (lt_stateCount_of_kernelAt hget)]
    exact List.mk_add_mem_zipIdx_iff_getElem?.mpr hget

end Places

section Targets

variable (hw : g.WellFormed) (hr : g.Unreserved)

include hw hr

theorem automaton_goto {q q' : Nat} {x : Symbol} :
    g.survey.automaton.goto q x = some q' ↔ (x, q') ∈ g.stepsAt q := by
  have hgoto : g.survey.automaton.goto q x =
      ((g.stepsAt q).find? fun e => e.1 == x).map (·.2) := rfl
  rw [hgoto, Option.map_eq_some_iff]
  constructor
  · rintro ⟨⟨y, p⟩, hfind, rfl⟩
    obtain rfl : y = x := by simpa using List.find?_some hfind
    exact List.mem_of_find?_eq_some hfind
  · intro h
    cases hfind : (g.stepsAt q).find? fun e => e.1 == x with
    | none =>
      have hnone := List.find?_eq_none.mp hfind (x, q') h
      simp at hnone
    | some e =>
      have hx : e.1 = x := by simpa using List.find?_some hfind
      have hmem : (x, e.2) ∈ g.stepsAt q := hx ▸ List.mem_of_find?_eq_some hfind
      exact ⟨e, rfl, step_unique hw hr hmem h⟩

/-- A step takes an item that it advances to its place in the state behind. -/
theorem target_of_step {q q' : Nat} {x : Symbol} (hq : (x, q') ∈ g.stepsAt q) {i : Item}
    (hi : i ∈ g.kernelAt q') : ∃ d, (g.kernelAt q')[d]? = some i ∧
      g.slots.target q x i = some (g.offset q' + d) := by
  refine ⟨(g.kernelAt q').idxOf i, ?_, ?_⟩
  · exact List.getElem?_eq_some_iff.mpr
      ⟨List.idxOf_lt_length_of_mem hi, List.getElem_idxOf (List.idxOf_lt_length_of_mem hi)⟩
  · have htarget : g.slots.target q x i = (g.survey.automaton.goto q x).map fun p =>
        g.slots.offsets.getD p 0 + (g.kernelAt p).idxOf i := rfl
    rw [htarget, (automaton_goto hw hr).mpr hq, Option.map_some,
      slots_spec.2 q' (mem_steps_of_mem_stepsAt hw hr hq).1]

/-- What is called the place of an advanced item is one. -/
theorem target_spec {q p : Nat} {j : Item} (hj : j ∈ g.survey.closure (g.kernelAt q)) {x : Symbol}
    (hx : g.next j = some x) (h : g.slots.target q x ⟨j.prod, j.dot + 1⟩ = some p) :
    ∃ q' d, (x, q') ∈ g.stepsAt q ∧ (g.kernelAt q')[d]? = some ⟨j.prod, j.dot + 1⟩ ∧
      p = g.offset q' + d := by
  obtain ⟨q', hq'⟩ := exists_step hw hr hj hx
  obtain ⟨d, hd, htarget⟩ :=
    target_of_step hw hr hq' ((mem_kernelAt_of_step hw hr hq').mpr ⟨j, hj, hx, rfl⟩)
  rw [htarget] at h
  exact ⟨q', d, hq', hd, (Option.some.inj h).symm⟩

end Targets

/-- Lookahead that one place passes on to another; the mark in it stands for all that the first
place has itself. -/
structure Pass where
  source : Nat
  target : Nat
  la : NatSet

/-- Adds what a pass brings. -/
def Slots.Flow.pass (f : Slots.Flow) (e : Pass) : Slots.Flow := f.add e.source e.target e.la

section Flow

/-- The lookahead that the productions of each nonterminal get from one item, with a mark for its
own. -/
def marked (g : Grammar) (i : Item) : Array NatSet :=
  g.survey.closureLookahead [(i, .single passMark)]

/-- The pass of a kernel item to what it advances to. -/
def directPasses (g : Grammar) (q p : Nat) (i : Item) : List Pass :=
  match g.survey.advance i with
  | some (x, j) =>
    match g.slots.target q x j with
    | some p' => [⟨p, p', .single passMark⟩]
    | none => []
  | none => []

/-- The passes of a kernel item to what the productions of the closure advance to. -/
def closurePasses (g : Grammar) (q p : Nat) (i : Item) : List Pass :=
  match g.next i with
  | some (.nonterminal _) =>
    (g.slots.arrows q).map fun a => ⟨p, a.target, setAt (g.marked i) a.lhs⟩
  | _ => []

/-- The passes of all kernel items of all states. -/
def passes (g : Grammar) : List Pass :=
  (List.range g.stateCount).flatMap fun q =>
    ((g.kernelAt q).zipIdx (g.slots.offsets.getD q 0)).flatMap fun e =>
      g.directPasses q e.2 e.1 ++ g.closurePasses q e.2 e.1

theorem follow_eq (q p : Nat) (f : Slots.Flow) (i : Item) :
    g.slots.follow q (g.slots.arrows q) f p i =
      (g.directPasses q p i ++ g.closurePasses q p i).foldl Slots.Flow.pass f := by
  unfold Slots.follow directPasses closurePasses marked Survey.advance
  simp only [slots_survey, survey_grammar]
  cases g.next i with
  | none => rfl
  | some x =>
    simp only [Option.map_some]
    cases g.slots.target q x ⟨i.prod, i.dot + 1⟩ with
    | none =>
      cases x with
      | terminal k => rfl
      | nonterminal n =>
        simp only [List.nil_append, List.foldl_map]
        rfl
    | some p' =>
      cases x with
      | terminal k => rfl
      | nonterminal n =>
        simp only [List.singleton_append, List.foldl_cons, List.foldl_map]
        rfl

/-- The flow of all states is that of their passes. -/
theorem flow_eq :
    (List.range g.survey.automaton.kernels.size).foldl g.slots.followState g.slots.initial =
      g.passes.foldl Slots.Flow.pass g.slots.initial := by
  have hstate (f : Slots.Flow) (q : Nat) : g.slots.followState f q =
      (((g.kernelAt q).zipIdx (g.slots.offsets.getD q 0)).flatMap fun e =>
        g.directPasses q e.2 e.1 ++ g.closurePasses q e.2 e.1).foldl Slots.Flow.pass f := by
    rw [List.foldl_flatMap]
    change ((g.kernelAt q).zipIdx (g.slots.offsets.getD q 0)).foldl
      (fun f e => g.slots.follow q (g.slots.arrows q) f e.2 e.1) f = _
    congr 1
    funext f e
    exact follow_eq q e.2 f e.1
  rw [passes, List.foldl_flatMap]
  congr 1
  funext f q
  exact hstate f q

theorem mem_passes {e : Pass} : e ∈ g.passes ↔ ∃ q d i, (g.kernelAt q)[d]? = some i ∧
    (e ∈ g.directPasses q (g.offset q + d) i ∨ e ∈ g.closurePasses q (g.offset q + d) i) := by
  simp only [passes, List.mem_flatMap, List.mem_range, List.mem_append]
  constructor
  · rintro ⟨q, hq, ⟨i, p⟩, hmem, he⟩
    obtain ⟨hle, hget⟩ := List.mk_mem_zipIdx_iff_le_and_getElem?_sub.mp hmem
    rw [slots_spec.2 q hq] at hle hget
    refine ⟨q, _, i, hget, ?_⟩
    rwa [Nat.add_sub_cancel' hle]
  · rintro ⟨q, d, i, hget, he⟩
    have hq := lt_stateCount_of_kernelAt hget
    refine ⟨q, hq, (i, g.offset q + d), ?_, he⟩
    rw [slots_spec.2 q hq]
    exact List.mk_add_mem_zipIdx_iff_getElem?.mpr hget

/-- The edges are the passes with a mark. -/
theorem mem_edges (l : List Pass) (f : Slots.Flow) {p q : Nat} :
    (p, q) ∈ (l.foldl Slots.Flow.pass f).edges ↔
      (p, q) ∈ f.edges ∨ ∃ e ∈ l, e.source = p ∧ e.target = q ∧ passMark ∈ e.la := by
  induction l generalizing f with
  | nil => simp
  | cons e l ih =>
    rw [List.foldl_cons, ih, List.exists_mem_cons_iff, ← or_assoc]
    apply or_congr_left
    by_cases hmark : e.la.contains passMark = true
    · simp [Slots.Flow.pass, Slots.Flow.add, hmark, NatSet.mem_def, or_comm, eq_comm]
    · simp [Slots.Flow.pass, Slots.Flow.add, hmark, NatSet.mem_def]

/-- The sets hold what arises in the passes. -/
theorem flow_sets (l : List Pass) (f : Slots.Flow) :
    (l.foldl Slots.Flow.pass f).sets.size = f.sets.size ∧
      ∀ p j, j ∈ setAt (l.foldl Slots.Flow.pass f).sets p ↔ j ∈ setAt f.sets p ∨
        (p < f.sets.size ∧ ∃ e ∈ l, e.target = p ∧ j < Kind.count ∧ j ∈ e.la) := by
  have hsets : (l.foldl Slots.Flow.pass f).sets =
      l.foldl (fun a e => a.modify e.target (· ∪ e.la.cut Kind.count)) f.sets := by
    induction l generalizing f with
    | nil => rfl
    | cons e l ih =>
      rw [List.foldl_cons, ih]
      rfl
  rw [hsets]
  refine foldl_adds (fun a e => ⟨Array.size_modify, fun p j => ?_⟩) l f.sets
  rw [mem_modify, NatSet.mem_cut]
  apply or_congr_right
  constructor
  · rintro ⟨rfl, hp, hj⟩
    exact ⟨hp, rfl, hj⟩
  · rintro ⟨hp, rfl, hj⟩
    exact ⟨rfl, hp, hj⟩

/-- The flow of all states. -/
def flow (g : Grammar) : Slots.Flow := g.passes.foldl Slots.Flow.pass g.slots.initial

theorem mem_initial {p j : Nat} : j ∈ setAt g.slots.initial.sets p ↔
    p = 0 ∧ 0 < g.slots.size ∧ j = Kind.eof.index := by
  rw [Slots.initial, mem_modify, Array.size_replicate, NatSet.mem_single,
    or_iff_right (notMem_replicate _ p j), eq_comm (a := p)]

theorem lookaheads_eq : g.slots.lookaheads =
    saturate (Slots.passOn g.flow.edges.reverse) (g.slots.size * Kind.count + 1) g.flow.sets := by
  unfold Slots.lookaheads
  rw [slots_automaton, flow_eq]
  rfl

theorem passOn_grows (edges : List (Nat × Nat)) (a : Array NatSet) :
    Within a (Slots.passOn edges a) := by
  apply Within.foldl
  intro a e
  exact Within.modify a e.2 _

/-- What a round adds comes along an edge. -/
theorem passOn_induct {P : Nat → Nat → Prop} {edges : List (Nat × Nat)}
    (hP : ∀ p q j, (p, q) ∈ edges → P p j → P q j) {a : Array NatSet}
    (ha : ∀ p j, j ∈ setAt a p → P p j) (p j : Nat) (h : j ∈ setAt (Slots.passOn edges a) p) :
    P p j := by
  have hround : ∀ p j, j ∈ setAt (Slots.passOn edges a) p → P p j := by
    refine List.foldlRecOn edges _ (motive := fun a : Array NatSet =>
      ∀ p j, j ∈ setAt a p → P p j) ha ?_
    rintro b hb ⟨p, q⟩ he r j hj
    rcases mem_modify.mp hj with hj | ⟨rfl, _, hj⟩
    · exact hb r j hj
    · exact hP p q j he (hb p j hj)
  exact hround p j h

/-- A row that passing on keeps holds at the end of each edge all that it holds at its beginning. -/
theorem passOn_closed {edges : List (Nat × Nat)} {a : Array NatSet}
    (ha : Slots.passOn edges a = a) {p q : Nat} (he : (p, q) ∈ edges) (hq : q < a.size) {j : Nat}
    (hj : j ∈ setAt a p) : j ∈ setAt a q := by
  have hmodify (a : Array NatSet) (e : Nat × Nat) :
      Within a (a.modify e.2 (· ∪ a.getD e.1 ∅)) := Within.modify a e.2 _
  have hone := Within.foldl_fixed hmodify (show edges.foldl _ a = a from ha) (p, q) he
  rw [← hone]
  exact mem_modify.mpr (Or.inr ⟨rfl, hq, hj⟩)

theorem lookaheads_spec : Within g.flow.sets g.slots.lookaheads ∧
    MembersBelow Kind.count g.slots.lookaheads ∧
    Slots.passOn g.flow.edges.reverse g.slots.lookaheads = g.slots.lookaheads := by
  have hflow := flow_sets g.passes g.slots.initial
  have hsize : g.flow.sets.size = g.slots.size := by
    rw [flow, hflow.1]
    simp [Slots.initial]
  rw [lookaheads_eq]
  -- Neither the passes nor the rounds bring in anything but kinds.
  refine saturate_row Kind.count (passOn_grows _)
    (fun a ha => passOn_induct (P := fun _ j => j < Kind.count) (fun _ _ _ _ h => h) ha) ?_ ?_
  · intro p j hj
    rcases (hflow.2 p j).mp hj with hj | ⟨_, e, _, _, hlt, _⟩
    · obtain ⟨_, _, rfl⟩ := mem_initial.mp hj
      exact Kind.index_lt _
    · exact hlt
  · rw [hsize]
    exact Nat.lt_add_one _

/-- The lookaheads are closed under all passes. -/
theorem lookaheads_passed {e : Pass} (he : e ∈ g.passes) (hlt : e.target < g.slots.size) {j : Nat}
    (hj : (j ∈ e.la ∧ j < Kind.count) ∨
      (passMark ∈ e.la ∧ j ∈ setAt g.slots.lookaheads e.source)) :
    j ∈ setAt g.slots.lookaheads e.target := by
  obtain ⟨hwithin, _, hfix⟩ := lookaheads_spec (g := g)
  have hflow := flow_sets g.passes g.slots.initial
  have hinit : g.slots.initial.sets.size = g.slots.size := by simp [Slots.initial]
  rcases hj with ⟨hj, hcount⟩ | ⟨hmark, hj⟩
  · refine hwithin.2 _ _ ((hflow.2 _ _).mpr (Or.inr ⟨?_, e, he, rfl, hcount, hj⟩))
    rwa [hinit]
  · refine passOn_closed hfix (List.mem_reverse.mpr ?_) ?_ hj
    · exact (mem_edges g.passes g.slots.initial).mpr (Or.inr ⟨e, he, rfl, rfl, hmark⟩)
    · rw [← hwithin.1, flow, hflow.1, hinit]
      exact hlt

end Flow

theorem mem_arrows (hw : g.WellFormed) {q : Nat} {a : Arrow} :
    a ∈ g.slots.arrows q ↔ a.lhs ∈ g.survey.expanded (g.kernelAt q) ∧ ∃ i x,
      (g.production i).lhs = a.lhs ∧ g.next ⟨i, 0⟩ = some x ∧
      g.slots.target q x ⟨i, 1⟩ = some a.target := by
  unfold Slots.arrows
  simp only [slots_survey, slots_automaton, survey_grammar, List.mem_flatMap, NatSet.mem_below,
    List.mem_filterMap, mem_survey_productions hw]
  constructor
  · rintro ⟨n, ⟨_, hn⟩, i, ⟨_, hlhs⟩, ha⟩
    split at ha
    · rename_i x hx
      obtain ⟨p, hp, rfl⟩ := Option.map_eq_some_iff.mp ha
      exact ⟨hn, i, x, hlhs, hx, hp⟩
    · cases ha
  · rintro ⟨hexp, i, x, hlhs, hx, hp⟩
    have hlt : i < g.productions.size := prod_lt_of_next hx
    refine ⟨a.lhs, ⟨hlhs ▸ hw.lhs_lt i hlt, hexp⟩, i, ⟨hlt, hlhs⟩, ?_⟩
    simp only [hx, hp, Option.map_some]

section Start

variable (hw : g.WellFormed) (hr : g.Unreserved)

include hw hr

/-- A pass leads from an item of a kernel over a step of its state. It passes on the lookahead of the
item to what the item advances to, and to what a production of the closure advances to that of the
left-hand side. -/
theorem pass_source {e : Pass} (he : e ∈ g.passes) {q' d' : Nat} {i' : Item}
    (hi : (g.kernelAt q')[d']? = some i') (ht : e.target = g.offset q' + d') :
    ∃ q d i x j, (g.kernelAt q)[d]? = some i ∧ e.source = g.offset q + d ∧
      (x, q') ∈ g.stepsAt q ∧ g.next j = some x ∧ i' = ⟨j.prod, j.dot + 1⟩ ∧
      (j = i ∧ e.la = .single passMark ∨
        j.dot = 0 ∧ (g.production j.prod).lhs ∈ g.survey.expanded (g.kernelAt q) ∧
          e.la = setAt (g.marked i) (g.production j.prod).lhs) := by
  obtain ⟨q, d, i, hget, hpass | hpass⟩ := mem_passes.mp he
  · have hclosure : i ∈ g.survey.closure (g.kernelAt q) :=
      (mem_closure hw).mpr (Or.inl (List.mem_of_getElem? hget))
    unfold directPasses Survey.advance at hpass
    cases hnext : g.next i with
    | none => simp [hnext] at hpass
    | some x =>
      simp only [survey_grammar, hnext, Option.map_some] at hpass
      split at hpass
      · rename_i p hp
        obtain rfl := List.mem_singleton.mp hpass
        obtain ⟨q₂, d₂, hstep, hget₂, rfl⟩ := target_spec hw hr hclosure hnext hp
        obtain ⟨rfl, rfl⟩ := place_inj hget₂ hi ht
        exact ⟨q, d, i, x, i, hget, rfl, hstep, hnext, rfl, Or.inl ⟨rfl, rfl⟩⟩
      · cases hpass
  · unfold closurePasses at hpass
    split at hpass
    · obtain ⟨a, ha, rfl⟩ := List.mem_map.mp hpass
      obtain ⟨hexp, p, x, hlhs, hnext, htarget⟩ := (mem_arrows hw).mp ha
      have hclosure : ⟨p, 0⟩ ∈ g.survey.closure (g.kernelAt q) :=
        (mem_closure hw).mpr (Or.inr ⟨rfl, prod_lt_of_next hnext, hlhs ▸ hexp⟩)
      obtain ⟨q₂, d₂, hstep, hget₂, hplace⟩ := target_spec hw hr hclosure hnext htarget
      obtain ⟨rfl, rfl⟩ := place_inj hget₂ hi (hplace.symm.trans ht)
      exact ⟨q, d, i, x, ⟨p, 0⟩, hget, rfl, hstep, hnext, rfl,
        Or.inr ⟨rfl, hlhs ▸ hexp, by rw [hlhs]⟩⟩
    · cases hpass

/-- Only an item of production 0 passes anything on to another one, and nothing but its own
lookahead. -/
theorem pass_to_start {e : Pass} (he : e ∈ g.passes) {q d n : Nat}
    (hi : (g.kernelAt q)[d]? = some ⟨0, n⟩) (ht : e.target = g.offset q + d) :
    e.la = .single passMark ∧
      ∃ q' d' n', (g.kernelAt q')[d']? = some ⟨0, n'⟩ ∧ e.source = g.offset q' + d' := by
  obtain ⟨q₁, d₁, i, x, ⟨p, dot⟩, hget, hsource, _, _, heq, hpass⟩ := pass_source hw hr he hi ht
  obtain ⟨rfl, _⟩ := Item.mk.inj heq
  rcases hpass with ⟨rfl, hla⟩ | ⟨_, hexp, _⟩
  · exact ⟨hla, q₁, d₁, dot, hget, hsource⟩
  · -- What the closure adds begins with a production of an expanded nonterminal, never the goal.
    rw [hw.goal_lhs] at hexp
    exact absurd hexp (zero_notMem_expanded hw hr _)

/-- Lookahead `j` at place `p` is the end of the input, if an item of production 0 stands there. -/
def EndAt (g : Grammar) (p j : Nat) : Prop :=
  ∀ q d n, (g.kernelAt q)[d]? = some ⟨0, n⟩ → p = g.offset q + d → j = Kind.eof.index

/-- Nothing but the end of the input follows an item of production 0. -/
theorem start_lookahead {q d n j : Nat} (hi : (g.kernelAt q)[d]? = some ⟨0, n⟩)
    (hj : j ∈ setAt g.slots.lookaheads (g.offset q + d)) : j = Kind.eof.index := by
  have hsets (p j : Nat) (hj : j ∈ setAt g.flow.sets p) : g.EndAt p j := by
    intro q d n hi hp
    rcases ((flow_sets g.passes g.slots.initial).2 p j).mp hj with hj | ⟨_, e, he, ht, hlt, hj⟩
    · exact (mem_initial.mp hj).2.2
    · obtain ⟨hla, _⟩ := pass_to_start hw hr he hi (ht.trans hp)
      rw [hla, NatSet.mem_single] at hj
      exact absurd hj hlt.ne
  -- An edge to such an item comes from such an item again.
  have hedge (p p' j : Nat) (he : (p, p') ∈ g.flow.edges.reverse) (hp : g.EndAt p j) :
      g.EndAt p' j := by
    intro q d n hi hp'
    rcases (mem_edges g.passes g.slots.initial).mp (List.mem_reverse.mp he) with
      he | ⟨e, he, hs, ht, _⟩
    · cases he
    · obtain ⟨_, q', d', n', hget, hsource⟩ := pass_to_start hw hr he hi (ht.trans hp')
      exact hp q' d' n' hget (hs.symm.trans hsource)
  have hall : ∀ p j, j ∈ setAt g.slots.lookaheads p → g.EndAt p j := by
    rw [lookaheads_eq]
    exact saturate_induct (P := fun a => ∀ p j, j ∈ setAt a p → g.EndAt p j)
      (fun a ha => passOn_induct hedge ha) _ _ hsets
  exact hall _ _ hj q d n hi rfl

end Start

/-- The terminals that an item in the closure of a state expects behind itself: those of its
lookahead for an item of the kernel, and for a production of the closure those that follow its
left-hand side in an item that expands to it. -/
inductive Expects (g : Grammar) (q : Nat) : Item → Nat → Prop
  | kernel {i : Item} {la : NatSet} {j : Nat} (h : (i, la) ∈ g.kernelSets q) (hj : j ∈ la) :
      Expects g q i j
  | closure {i : Item} {j p k : Nat} (h : Expects g q i j) (hp : p < g.productions.size)
      (hn : g.next i = some (.nonterminal (g.production p).lhs)) (hf : g.Follows i j k) :
      Expects g q ⟨p, 0⟩ k

section Expects

variable (hw : g.WellFormed) {q : Nat}

theorem kernelSets_lt {e : Item × NatSet} (he : e ∈ g.kernelSets q) {j : Nat} (hj : j ∈ e.2) :
    j < Kind.count := by
  obtain ⟨d, _, hla⟩ := mem_kernelSets.mp he
  rw [← hla] at hj
  exact lookaheads_spec.2.1 _ _ hj

theorem Expects.lt_count {i : Item} {j : Nat} (h : g.Expects q i j) : j < Kind.count := by
  induction h with
  | kernel h hj => exact kernelSets_lt h hj
  | closure _ _ _ hf ih =>
    rcases hf with hf | ⟨_, rfl⟩
    · exact First.ofString_lt (firstSets_spec g).1.below _ _ hf
    · exact ih

include hw

theorem mem_expanded_of_next {items : List Item} {i : Item} (hi : i ∈ items) {n : Nat}
    (hn : g.next i = some (.nonterminal n)) : n ∈ g.survey.expanded items :=
  mem_expanded.mpr ⟨i, hi, n, hn, (mem_cones hw (lt_count_of_next hw hn)).mpr .refl⟩

theorem mem_expanded_of_corner {items : List Item} {p n : Nat}
    (hp : (g.production p).lhs ∈ g.survey.expanded items)
    (hn : g.next ⟨p, 0⟩ = some (.nonterminal n)) : n ∈ g.survey.expanded items :=
  (mem_expanded_iff_next hw).mpr
    ⟨⟨p, 0⟩, (mem_closure hw).mpr (Or.inr ⟨rfl, prod_lt_of_next hn, hp⟩), hn⟩

/-- What an item expects is in its lookahead, or for an item of the closure in that of its
nonterminal. -/
theorem Expects.lookahead {i : Item} {j : Nat} (h : g.Expects q i j) :
    (∃ la, (i, la) ∈ g.kernelSets q ∧ j ∈ la) ∨
    (i.dot = 0 ∧ i.prod < g.productions.size ∧
      (g.production i.prod).lhs ∈ g.survey.expanded (g.kernelAt q) ∧
      j ∈ setAt (g.survey.closureLookahead (g.kernelSets q)) (g.production i.prod).lhs) := by
  have hk : ∀ e ∈ g.kernelSets q, ∀ k ∈ e.2, k < Kind.count + 1 :=
    fun e he k hk => (kernelSets_lt he hk).trans (Nat.lt_add_one _)
  induction h with
  | kernel h hj => exact Or.inl ⟨_, h, hj⟩
  | @closure i j p k _ hp hn hf ih =>
    refine Or.inr ⟨rfl, hp, ?_⟩
    rcases ih with ⟨la, hi, hj⟩ | ⟨hdot, _, hexp, hj⟩
    · have hmem : i ∈ g.kernelAt q := kernelSets_fst q ▸ List.mem_map.mpr ⟨_, hi, rfl⟩
      exact ⟨mem_expanded_of_next hw hmem hn, mem_closureLookahead_kernel hw hk hi hn hj hf⟩
    · obtain ⟨m, d⟩ := i
      obtain rfl : d = 0 := hdot
      refine ⟨mem_expanded_of_corner hw hexp hn, mem_closureLookahead_corner hw hk ?_ hn hj hf⟩
      rwa [kernelSets_fst]

/-- Where an item of the closure expects a terminal, the terminal arises in the closure of a single
item of the kernel, or is in the lookahead of that item and passes on. -/
theorem Expects.origin {i : Item} {j : Nat} (h : g.Expects q i j) :
    (∃ la, (i, la) ∈ g.kernelSets q ∧ j ∈ la) ∨
    (i.dot = 0 ∧ ∃ e ∈ g.kernelSets q, (∃ n, g.next e.1 = some (.nonterminal n)) ∧
      (g.production i.prod).lhs ∈ g.survey.expanded [e.1] ∧
      (j ∈ setAt (g.marked e.1) (g.production i.prod).lhs ∨
        (passMark ∈ setAt (g.marked e.1) (g.production i.prod).lhs ∧ j ∈ e.2))) := by
  have hk (i : Item) : ∀ e ∈ [(i, NatSet.single passMark)], ∀ k ∈ e.2, k < Kind.count + 1 := by
    intro e he k hk
    obtain rfl := List.mem_singleton.mp he
    rw [NatSet.mem_single.mp hk, passMark]
    exact Nat.lt_add_one _
  induction h with
  | kernel h hj => exact Or.inl ⟨_, h, hj⟩
  | @closure i j p k _ hp hn hf ih =>
    refine Or.inr ⟨rfl, ?_⟩
    rcases ih with ⟨la, hi, hj⟩ | ⟨hdot, e, he, hnext, hexp, hj⟩
    · refine ⟨(i, la), hi, ⟨_, hn⟩, mem_expanded_of_next hw List.mem_cons_self hn, ?_⟩
      -- With the mark for its lookahead the item contributes what it does with any other.
      have hseed {k : Nat} (hf : g.Follows i passMark k) :
          k ∈ setAt (g.marked i) (g.production p).lhs :=
        mem_closureLookahead_kernel hw (hk i) List.mem_cons_self hn (NatSet.mem_single.mpr rfl) hf
      rcases hf with hf | ⟨hempty, rfl⟩
      · exact Or.inl (hseed (Or.inl hf))
      · exact Or.inr ⟨hseed (Or.inr ⟨hempty, rfl⟩), hj⟩
    · obtain ⟨m, d⟩ := i
      obtain rfl : d = 0 := hdot
      refine ⟨e, he, hnext, mem_expanded_of_corner hw hexp hn, ?_⟩
      have hcorner {j k : Nat} (hj : j ∈ setAt (g.marked e.1) (g.production m).lhs)
          (hf : g.Follows ⟨m, 0⟩ j k) : k ∈ setAt (g.marked e.1) (g.production p).lhs :=
        mem_closureLookahead_corner hw (hk e.1) hexp hn hj hf
      rcases hj with hj | ⟨hmark, hj⟩
      · exact Or.inl (hcorner hj hf)
      · rcases hf with hf | ⟨hempty, rfl⟩
        · exact Or.inl (hcorner hmark (Or.inl hf))
        · exact Or.inr ⟨hcorner hmark (Or.inr ⟨hempty, rfl⟩), hj⟩

theorem Expects.mem_closure {i : Item} {j : Nat} (h : g.Expects q i j) :
    i ∈ g.survey.closure (g.kernelAt q) := by
  rcases h.lookahead hw with ⟨la, hi, _⟩ | ⟨hdot, hlt, hexp, _⟩
  · exact (Grammar.mem_closure hw).mpr (Or.inl (kernelSets_fst q ▸ List.mem_map.mpr ⟨_, hi, rfl⟩))
  · exact (Grammar.mem_closure hw).mpr (Or.inr ⟨hdot, hlt, hexp⟩)

/-- A complete item that expects a terminal is reduced by on that terminal. -/
theorem Expects.reduction {i : Item} {j : Nat} (h : g.Expects q i j) (hn : g.next i = none) :
    ∃ la, (i.prod, la) ∈ g.reductionsAt q ∧ j ∈ la := by
  obtain ⟨p, d⟩ := i
  rcases h.lookahead hw with ⟨la, hi, hj⟩ | ⟨hdot, hlt, hexp, hj⟩
  · exact ⟨la, (mem_reductionsAt hw).mpr (Or.inl ⟨d, hi, hn⟩), hj⟩
  · obtain rfl : d = 0 := hdot
    exact ⟨_, (mem_reductionsAt hw).mpr (Or.inr ⟨hexp, hlt, hn, rfl⟩), hj⟩

/-- Behind a step the advanced item expects what it expected before. -/
theorem Expects.step (hr : g.Unreserved) {i : Item} {j : Nat} (h : g.Expects q i j) {x : Symbol}
    (hx : g.next i = some x) {q' : Nat} (hq : (x, q') ∈ g.stepsAt q) :
    g.Expects q' ⟨i.prod, i.dot + 1⟩ j := by
  have hclosure := h.mem_closure hw
  obtain ⟨d', hd', htarget⟩ := target_of_step hw hr hq
    ((mem_kernelAt_of_step hw hr hq).mpr ⟨i, hclosure, hx, rfl⟩)
  have hplace := place_lt hd'
  refine .kernel (mem_kernelSets.mpr ⟨d', hd', rfl⟩) ?_
  rcases h.origin hw with ⟨la, hi, hj⟩ | ⟨hdot, ⟨i₀, la₀⟩, he, ⟨n, hn⟩, hexp, hj⟩
  · -- An item of the kernel passes its own lookahead on.
    obtain ⟨d, hd, rfl⟩ := mem_kernelSets.mp hi
    have hpass : ⟨g.offset q + d, g.offset q' + d', .single passMark⟩ ∈ g.passes := by
      refine mem_passes.mpr ⟨q, d, i, hd, Or.inl ?_⟩
      simp [directPasses, Survey.advance, hx, htarget]
    exact lookaheads_passed hpass hplace (Or.inr ⟨NatSet.mem_single.mpr rfl, hj⟩)
  · -- A production of the closure gets its lookahead from the item of the kernel it comes from.
    obtain ⟨p, dot⟩ := i
    obtain rfl : dot = 0 := hdot
    dsimp only at hn hexp hj
    obtain ⟨d, hd, rfl⟩ := mem_kernelSets.mp he
    have hall : (g.production p).lhs ∈ g.survey.expanded (g.kernelAt q) := by
      obtain ⟨i₁, hi₁, m, hm, hcone⟩ := mem_expanded.mp hexp
      obtain rfl := List.mem_singleton.mp hi₁
      exact mem_expanded.mpr ⟨_, List.mem_of_getElem? hd, m, hm, hcone⟩
    have hpass : ⟨g.offset q + d, g.offset q' + d',
        setAt (g.marked i₀) (g.production p).lhs⟩ ∈ g.passes := by
      refine mem_passes.mpr ⟨q, d, i₀, hd, Or.inr ?_⟩
      simp only [closurePasses, hn]
      exact List.mem_map.mpr ⟨⟨(g.production p).lhs, g.offset q' + d'⟩,
        (mem_arrows hw).mpr ⟨hall, p, x, rfl, hx, htarget⟩, rfl⟩
    refine lookaheads_passed hpass hplace ?_
    rcases hj with hj | ⟨hmark, hj⟩
    · exact Or.inl ⟨hj, h.lt_count⟩
    · exact Or.inr ⟨hmark, hj⟩

end Expects

end ObjectPascal.Grammar
