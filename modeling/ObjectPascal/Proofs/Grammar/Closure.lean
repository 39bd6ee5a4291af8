import ObjectPascal.Grammar.Automaton
import ObjectPascal.Proofs.Grammar.Derivation
import ObjectPascal.Proofs.Saturation

/-!
The closure of a kernel. The cone of a nonterminal holds what its productions can begin with, and
their productions in turn; with the cones of the symbols behind the dots, a kernel gets exactly the
productions of the nonterminals that stand behind the dot of some item of its closure.
-/

namespace ObjectPascal.Grammar

variable {g : Grammar}

@[simp]
theorem survey_grammar : g.survey.grammar = g := rfl

@[simp]
theorem survey_facts : g.survey.facts = g.firstSets := rfl

theorem next_of_size_le {i : Item} (hi : g.productions.size ≤ i.prod) : g.next i = none := by
  simp [next, production_of_size_le hi]

theorem prod_lt_of_next {i : Item} {x : Symbol} (h : g.next i = some x) :
    i.prod < g.productions.size := by
  by_contra hi
  rw [next_of_size_le (by omega)] at h
  cases h

theorem mem_rhs_of_next {i : Item} {x : Symbol} (h : g.next i = some x) :
    x ∈ (g.production i.prod).rhs := List.mem_of_getElem? h

theorem rhs_of_next {i : Nat} {x : Symbol} (h : g.next ⟨i, 0⟩ = some x) :
    ∃ rest, (g.production i).rhs = x :: rest := by
  cases hr : (g.production i).rhs with
  | nil => simp [next, hr] at h
  | cons y rest =>
    obtain rfl : y = x := by simpa [next, hr] using h
    exact ⟨rest, rfl⟩

theorem lt_count_of_next (hw : g.WellFormed) {i : Item} {n : Nat}
    (h : g.next i = some (.nonterminal n)) : n < g.nonterminalCount :=
  hw.rhs_lt i.prod (prod_lt_of_next h) n (mem_rhs_of_next h)

theorem mem_productionsOf {n i : Nat} :
    i ∈ g.productionsOf n ↔ i < g.productions.size ∧ (g.production i).lhs = n := by
  simp [productionsOf]

theorem mem_survey_productions (hw : g.WellFormed) {n i : Nat} :
    i ∈ g.survey.productions.getD n [] ↔
      i < g.productions.size ∧ (g.production i).lhs = n := by
  have hp : g.survey.productions = (Array.range g.nonterminalCount).map g.productionsOf := rfl
  by_cases hn : n < g.nonterminalCount
  · simp [hp, Array.getD, hn, mem_productionsOf]
  · simp only [hp, Array.getD, Array.size_map, Array.size_range, hn, ↓reduceDIte,
      List.not_mem_nil, false_iff]
    rintro ⟨hi, rfl⟩
    exact hn (hw.lhs_lt i hi)

/-- Each corner of a nonterminal tells of a production that begins with another one what follows
behind it. -/
theorem mem_corners (hw : g.WellFormed) {n : Nat} {c : Corner} :
    c ∈ g.survey.corners.getD n [] ↔ ∃ i < g.productions.size, (g.production i).lhs = n ∧
      ∃ rest, (g.production i).rhs = .nonterminal c.head :: rest ∧
        c.first = g.firstSets.ofString rest ∧ c.nullable = g.firstSets.derivesEmpty rest := by
  have hc : g.survey.corners.getD n [] =
      (g.survey.productions.getD n []).filterMap (g.cornerOf g.firstSets) := by
    have hp : g.survey.corners =
        g.survey.productions.map fun ps => ps.filterMap (g.cornerOf g.firstSets) := rfl
    rw [hp]
    by_cases hn : n < g.survey.productions.size <;> simp [Array.getD, hn]
  rw [hc, List.mem_filterMap]
  constructor
  · rintro ⟨i, hi, hcorner⟩
    obtain ⟨hlt, hlhs⟩ := (mem_survey_productions hw).mp hi
    unfold cornerOf at hcorner
    split at hcorner
    · rename_i m rest hrhs
      obtain rfl := Option.some.inj hcorner
      exact ⟨i, hlt, hlhs, rest, hrhs, rfl, rfl⟩
    · cases hcorner
  · rintro ⟨i, hlt, hlhs, rest, hrhs, hfirst, hnull⟩
    refine ⟨i, (mem_survey_productions hw).mpr ⟨hlt, hlhs⟩, ?_⟩
    simp only [cornerOf, hrhs, ← hfirst, ← hnull]

/-- A production of the first nonterminal begins with the second. -/
def Leads (g : Grammar) (m n : Nat) : Prop :=
  ∃ i, (g.production i).lhs = m ∧ g.next ⟨i, 0⟩ = some (.nonterminal n)

theorem leads_iff_corner (hw : g.WellFormed) {m n : Nat} :
    g.Leads m n ↔ ∃ c ∈ g.survey.corners.getD m [], c.head = n := by
  constructor
  · rintro ⟨i, hlhs, hnext⟩
    obtain ⟨rest, hrhs⟩ := rhs_of_next hnext
    refine ⟨⟨n, g.firstSets.ofString rest, g.firstSets.derivesEmpty rest⟩, ?_, rfl⟩
    exact (mem_corners hw).mpr ⟨i, prod_lt_of_next hnext, hlhs, rest, hrhs, rfl, rfl⟩
  · rintro ⟨c, hc, rfl⟩
    obtain ⟨i, _, hlhs, rest, hrhs, _⟩ := (mem_corners hw).mp hc
    exact ⟨i, hlhs, by simp [next, hrhs]⟩

section Cones

variable (corners : Array (List Corner))

theorem coneRound_grows (a : Array NatSet) : Within a (coneRound corners a) := by
  apply Within.foldl
  intro a n
  apply Within.foldl
  intro a c
  exact Within.modify a n _

/-- What a round adds to a cone is in the cone of one of its corners. -/
theorem coneRound_induct {P : Nat → Nat → Prop}
    (hP : ∀ m c n, c ∈ corners.getD m [] → P c.head n → P m n) {a : Array NatSet}
    (ha : ∀ m n, n ∈ setAt a m → P m n) (m n : Nat) (h : n ∈ setAt (coneRound corners a) m) :
    P m n := by
  have hround : ∀ m n, n ∈ setAt (coneRound corners a) m → P m n := by
    refine List.foldlRecOn (List.range a.size) _ (motive := fun a : Array NatSet =>
      ∀ m n, n ∈ setAt a m → P m n) ha ?_
    intro b hb k _
    refine List.foldlRecOn (corners.getD k []) _ (motive := fun a : Array NatSet =>
      ∀ m n, n ∈ setAt a m → P m n) hb ?_
    intro d hd c hc m n hn
    rcases mem_modify.mp hn with hn | ⟨rfl, _, hn⟩
    · exact hd m n hn
    · exact hP k c n hc (hd c.head n hn)
  exact hround m n h

/-- In a row that a round keeps, each cone holds the cones of its corners. -/
theorem coneRound_closed {a : Array NatSet} (ha : coneRound corners a = a) {m n : Nat}
    (hm : m < a.size) {c : Corner} (hc : c ∈ corners.getD m []) (hn : n ∈ setAt a c.head) :
    n ∈ setAt a m := by
  have hmodify (k : Nat) (a : Array NatSet) (c : Corner) :
      Within a (a.modify k (· ∪ a.getD c.head ∅)) := Within.modify a k _
  have houter := Within.foldl_fixed (fun a k => Within.foldl (hmodify k) (corners.getD k []) a)
    (show (List.range a.size).foldl _ a = a from ha) m (List.mem_range.mpr hm)
  have hinner := Within.foldl_fixed (hmodify m) houter c hc
  rw [← hinner]
  exact mem_modify.mpr (Or.inr ⟨rfl, hm, hn⟩)

end Cones

theorem mem_singles {count i n : Nat} :
    n ∈ setAt ((Array.range count).map NatSet.single) i ↔ i < count ∧ n = i := by
  by_cases hi : i < count <;> simp [setAt, Array.getD, hi]

theorem cones_eq : g.survey.cones = saturate (coneRound g.survey.corners)
    (g.nonterminalCount * g.nonterminalCount + 1)
    ((Array.range g.nonterminalCount).map NatSet.single) := rfl

/-- Each cone holds its own nonterminal, and the saturation ends in cones that a round keeps. -/
theorem cones_spec : Within ((Array.range g.nonterminalCount).map NatSet.single) g.survey.cones ∧
    coneRound g.survey.corners g.survey.cones = g.survey.cones := by
  rw [cones_eq]
  have hround (a : Array NatSet) (ha : MembersBelow g.nonterminalCount a) :
      MembersBelow g.nonterminalCount (coneRound g.survey.corners a) :=
    coneRound_induct _ (P := fun _ n => n < g.nonterminalCount) (fun _ _ _ _ h => h) ha
  have hstart : MembersBelow g.nonterminalCount
      ((Array.range g.nonterminalCount).map NatSet.single) := by
    intro i n hn
    obtain ⟨hi, rfl⟩ := mem_singles.mp hn
    exact hi
  obtain ⟨hkeep, _, hfix⟩ := saturate_row g.nonterminalCount (coneRound_grows g.survey.corners)
    hround hstart (n := g.nonterminalCount * g.nonterminalCount + 1) (by simp)
  exact ⟨hkeep, hfix⟩

/-- The cone of a nonterminal holds exactly the nonterminals that its productions lead to. -/
theorem mem_cones (hw : g.WellFormed) {m n : Nat} (hm : m < g.nonterminalCount) :
    n ∈ setAt g.survey.cones m ↔ Relation.ReflTransGen g.Leads m n := by
  constructor
  · rw [cones_eq]
    refine saturate_induct (P := fun a => ∀ k j, j ∈ setAt a k →
      Relation.ReflTransGen g.Leads k j) ?_ _ _ ?_ m n
    · intro a ha
      refine coneRound_induct _ (fun k c j hc h => ?_) ha
      exact .head ((leads_iff_corner hw).mpr ⟨c, hc, rfl⟩) h
    · intro k j hj
      obtain ⟨_, rfl⟩ := mem_singles.mp hj
      exact .refl
  · intro h
    obtain ⟨hkeep, hfix⟩ := cones_spec (g := g)
    -- The chain is taken from its beginning: each cone holds the cone of the next nonterminal.
    induction h using Relation.ReflTransGen.head_induction_on with
    | refl => exact hkeep.2 n n (mem_singles.mpr ⟨hm, rfl⟩)
    | @head a b hstep _ ih =>
      have hlt : b < g.nonterminalCount := by
        obtain ⟨i, _, hnext⟩ := hstep
        exact lt_count_of_next hw hnext
      obtain ⟨c, hc, rfl⟩ := (leads_iff_corner hw).mp hstep
      refine coneRound_closed _ hfix ?_ hc (ih hlt)
      rw [← hkeep.1, Array.size_map, Array.size_range]
      exact hm

theorem mem_expanded {items : List Item} {n : Nat} :
    n ∈ g.survey.expanded items ↔
      ∃ i ∈ items, ∃ m, g.next i = some (.nonterminal m) ∧ n ∈ setAt g.survey.cones m := by
  refine Iff.trans (NatSet.mem_foldl (P := fun i n =>
    ∃ m, g.next i = some (.nonterminal m) ∧ n ∈ setAt g.survey.cones m) (fun s i => ?_) items ∅)
    (or_iff_right (NatSet.notMem_empty n))
  simp only [survey_grammar]
  cases hi : g.next i with
  | none => simp
  | some x =>
    cases x with
    | terminal k => simp
    | nonterminal m => simp [setAt]

/-- The closure adds to a kernel all productions of the expanded nonterminals. -/
theorem mem_closure (hw : g.WellFormed) {kernel : List Item} {i : Item} :
    i ∈ g.survey.closure kernel ↔ i ∈ kernel ∨ (i.dot = 0 ∧ i.prod < g.productions.size ∧
      (g.production i.prod).lhs ∈ g.survey.expanded kernel) := by
  simp only [Survey.closure, survey_grammar, List.mem_append, List.mem_flatMap,
    NatSet.mem_below, List.mem_map, mem_survey_productions hw]
  apply or_congr Iff.rfl
  constructor
  · rintro ⟨n, ⟨_, hn⟩, p, ⟨hp, rfl⟩, rfl⟩
    exact ⟨rfl, hp, hn⟩
  · rintro ⟨hdot, hp, hn⟩
    exact ⟨_, ⟨hw.lhs_lt _ hp, hn⟩, i.prod, ⟨hp, rfl⟩, by cases i; cases hdot; rfl⟩

/-- The expanded nonterminals are those behind the dot of some item of the closure. -/
theorem mem_expanded_iff_next (hw : g.WellFormed) {kernel : List Item} {n : Nat} :
    n ∈ g.survey.expanded kernel ↔
      ∃ j ∈ g.survey.closure kernel, g.next j = some (.nonterminal n) := by
  constructor
  · intro h
    obtain ⟨i, hi, m, hm, hcone⟩ := mem_expanded.mp h
    have hreach := (mem_cones hw (lt_count_of_next hw hm)).mp hcone
    clear h hcone
    -- The last production of the chain begins with the nonterminal, and is itself in the closure.
    induction hreach with
    | refl => exact ⟨i, (mem_closure hw).mpr (Or.inl hi), hm⟩
    | @tail b c hmb hstep _ =>
      obtain ⟨k, hlhs, hnext⟩ := hstep
      refine ⟨⟨k, 0⟩, (mem_closure hw).mpr (Or.inr ⟨rfl, prod_lt_of_next hnext, ?_⟩), hnext⟩
      rw [hlhs]
      exact mem_expanded.mpr ⟨i, hi, m, hm, (mem_cones hw (lt_count_of_next hw hm)).mpr hmb⟩
  · rintro ⟨j, hj, hnext⟩
    rcases (mem_closure hw).mp hj with hj | ⟨hdot, hlt, hexp⟩
    · exact mem_expanded.mpr ⟨j, hj, n, hnext, (mem_cones hw (lt_count_of_next hw hnext)).mpr .refl⟩
    · obtain ⟨i, hi, m, hm, hcone⟩ := mem_expanded.mp hexp
      have hlead : g.Leads (g.production j.prod).lhs n :=
        ⟨j.prod, rfl, by cases j; cases hdot; exact hnext⟩
      have hm' := lt_count_of_next hw hm
      exact mem_expanded.mpr
        ⟨i, hi, m, hm, (mem_cones hw hm').mpr (((mem_cones hw hm').mp hcone).tail hlead)⟩

/-- The goal is expanded nowhere if no right-hand side holds it. -/
theorem zero_notMem_expanded (hw : g.WellFormed) (hr : g.Unreserved) (kernel : List Item) :
    0 ∉ g.survey.expanded kernel := by
  intro h
  obtain ⟨j, _, hnext⟩ := (mem_expanded_iff_next hw).mp h
  exact hr.notMem_rhs j.prod (prod_lt_of_next hnext) (mem_rhs_of_next hnext)

end ObjectPascal.Grammar
