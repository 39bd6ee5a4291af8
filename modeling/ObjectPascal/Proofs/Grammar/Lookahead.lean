import ObjectPascal.Proofs.Grammar.Cells
import ObjectPascal.Proofs.Grammar.First

/-!
The lookaheads of the items. An item of a state expects a terminal if the terminal is in its
lookahead, for an item of the kernel, or comes from an item that expands to it. All that is expected
behind an item is found by the saturations: where the item is complete the terminal is in the
lookahead of the reduction, and behind a step the advanced item expects it still.
-/

namespace ObjectPascal.Grammar

variable {g : Grammar}

/-- Adding to sets of a row one after the other adds all that the single additions do. -/
theorem foldl_adds {β : Type} {step : Array NatSet → β → Array NatSet} {adds : β → Nat → Nat → Prop}
    (hstep : ∀ a e, (step a e).size = a.size ∧ ∀ n j, j ∈ setAt (step a e) n ↔
      j ∈ setAt a n ∨ (n < a.size ∧ adds e n j)) (l : List β) (a : Array NatSet) :
    (l.foldl step a).size = a.size ∧ ∀ n j, j ∈ setAt (l.foldl step a) n ↔
      j ∈ setAt a n ∨ (n < a.size ∧ ∃ e ∈ l, adds e n j) := by
  induction l generalizing a with
  | nil => simp
  | cons e l ih =>
    obtain ⟨hsize, hmem⟩ := hstep a e
    obtain ⟨hsize', hmem'⟩ := ih (step a e)
    refine ⟨hsize'.trans hsize, fun n j => ?_⟩
    rw [List.foldl_cons, hmem', hmem, hsize, List.exists_mem_cons_iff, or_assoc, and_or_left]

section Closure

/-- What comes behind the next symbol of an item that is itself followed by `j`. -/
def Follows (g : Grammar) (i : Item) (j k : Nat) : Prop :=
  k ∈ g.firstSets.ofString (g.rest i) ∨ (g.firstSets.derivesEmpty (g.rest i) = true ∧ k = j)

theorem mem_contribution {i : Item} {la : NatSet} {k : Nat} :
    k ∈ g.survey.contribution i la ↔ k ∈ g.firstSets.ofString (g.rest i) ∨
      (g.firstSets.derivesEmpty (g.rest i) = true ∧ k ∈ la) := by
  change k ∈ (if g.firstSets.derivesEmpty (g.rest i) then g.firstSets.ofString (g.rest i) ∪ la
    else g.firstSets.ofString (g.rest i)) ↔ _
  cases hempty : g.firstSets.derivesEmpty (g.rest i) <;> simp

theorem seeds_spec (kernel : List (Item × NatSet)) :
    (g.survey.seeds kernel).size = g.nonterminalCount ∧
      ∀ n k, k ∈ setAt (g.survey.seeds kernel) n ↔ n < g.nonterminalCount ∧ ∃ e ∈ kernel,
        g.next e.1 = some (.nonterminal n) ∧ k ∈ g.survey.contribution e.1 e.2 := by
  have hstart : (Array.replicate g.nonterminalCount (∅ : NatSet)).size = g.nonterminalCount :=
    Array.size_replicate
  have hfold : (g.survey.seeds kernel).size =
      (Array.replicate g.nonterminalCount (∅ : NatSet)).size ∧
      ∀ n k, k ∈ setAt (g.survey.seeds kernel) n ↔
        k ∈ setAt (.replicate g.nonterminalCount ∅) n ∨
          (n < (Array.replicate g.nonterminalCount (∅ : NatSet)).size ∧ ∃ e ∈ kernel,
            g.next e.1 = some (.nonterminal n) ∧ k ∈ g.survey.contribution e.1 e.2) := by
    -- One item of the kernel adds to the nonterminal behind its dot, if there is one.
    refine foldl_adds (fun a e => ?_) kernel (.replicate g.nonterminalCount ∅)
    cases hnext : g.next e.1 with
    | none => simp [hnext]
    | some x =>
      cases x with
      | terminal l => simp [hnext]
      | nonterminal m =>
        simp only [survey_grammar, hnext, Option.some.injEq, Symbol.nonterminal.injEq]
        refine ⟨Array.size_modify, fun n k => ?_⟩
        rw [mem_modify]
        apply or_congr_right
        constructor
        · rintro ⟨rfl, hm, hk⟩
          exact ⟨hm, rfl, hk⟩
        · rintro ⟨hm, rfl, hk⟩
          exact ⟨rfl, hm, hk⟩
  rw [hstart] at hfold
  exact ⟨hfold.1, fun n k => (hfold.2 n k).trans (or_iff_right (notMem_replicate _ n k))⟩

/-- What a corner of a nonterminal with lookahead `la` adds to its head. -/
theorem mem_corner {c : Corner} {la : NatSet} {k : Nat} :
    k ∈ (if c.nullable then c.first ∪ la else c.first) ↔
      k ∈ c.first ∨ (c.nullable = true ∧ k ∈ la) := by
  cases hc : c.nullable <;> simp

theorem spread_grows (expanded : List Nat) (a : Array NatSet) :
    Within a (g.survey.spread expanded a) := by
  apply Within.foldl
  intro a n
  apply Within.foldl
  intro a c
  exact Within.modify a c.head _

theorem spread_membersBelow (hw : g.WellFormed) {bound : Nat} (hb : Kind.count ≤ bound)
    (expanded : List Nat) {a : Array NatSet} (ha : MembersBelow bound a) :
    MembersBelow bound (g.survey.spread expanded a) := by
  have hfirst := (firstSets_spec g).1.below
  unfold Survey.spread
  refine List.foldlRecOn expanded _ (motive := MembersBelow bound) ha ?_
  intro a ha n _
  refine List.foldlRecOn (g.survey.corners.getD n []) _ (motive := MembersBelow bound) ha ?_
  intro b hb' c hc m k hk
  rcases mem_modify.mp hk with hk | ⟨_, _, hk⟩
  · exact hb' m k hk
  · rcases mem_corner.mp hk with hk | ⟨_, hk⟩
    · obtain ⟨_, _, _, rest, _, heq, _⟩ := (mem_corners hw).mp hc
      rw [heq] at hk
      exact (First.ofString_lt hfirst rest k hk).trans_le hb
    · exact ha n k hk

/-- A row that spreading keeps holds for each head what its corners add to it. -/
theorem spread_closed {expanded : List Nat} {a : Array NatSet}
    (ha : g.survey.spread expanded a = a) {n : Nat} (hn : n ∈ expanded) {c : Corner}
    (hc : c ∈ g.survey.corners.getD n []) (hlt : c.head < a.size) {k : Nat}
    (hk : k ∈ c.first ∨ (c.nullable = true ∧ k ∈ setAt a n)) : k ∈ setAt a c.head := by
  have hmodify (la : NatSet) (a : Array NatSet) (c : Corner) :
      Within a (a.modify c.head (· ∪ (if c.nullable then c.first ∪ la else c.first))) :=
    Within.modify a c.head _
  have houter := Within.foldl_fixed
    (fun a n => Within.foldl (hmodify (a.getD n ∅)) (g.survey.corners.getD n []) a)
    (show expanded.foldl _ a = a from ha) n hn
  have hinner := Within.foldl_fixed (hmodify (a.getD n ∅)) houter c hc
  -- Both folds are runs of growing steps, so none of their steps changes the row.
  rw [← hinner]
  exact mem_modify.mpr (Or.inr ⟨rfl, hlt, mem_corner.mpr hk⟩)

variable (hw : g.WellFormed) {kernel : List (Item × NatSet)}
  (hk : ∀ e ∈ kernel, ∀ k ∈ e.2, k < Kind.count + 1)

include hw hk

/-- The lookaheads of a closure hold what the kernel contributes, and are closed under the
productions of the expanded nonterminals. -/
theorem closureLookahead_spec :
    Within (g.survey.seeds kernel) (g.survey.closureLookahead kernel) ∧
      MembersBelow (Kind.count + 1) (g.survey.closureLookahead kernel) ∧
      g.survey.spread ((g.survey.expanded (kernel.map (·.1))).below g.nonterminalCount)
        (g.survey.closureLookahead kernel) = g.survey.closureLookahead kernel := by
  have hcount : Kind.count ≤ Kind.count + 1 := Nat.le_add_right _ _
  refine saturate_row (Kind.count + 1) (f := g.survey.spread _) (spread_grows _)
    (fun a ha => spread_membersBelow hw hcount _ ha) ?_ ?_
  · intro n k hmem
    obtain ⟨_, e, he, _, hcon⟩ := ((seeds_spec kernel).2 n k).mp hmem
    rcases mem_contribution.mp hcon with h | ⟨_, h⟩
    · exact (First.ofString_lt (firstSets_spec g).1.below _ k h).trans_le hcount
    · exact hk e he k h
  · rw [(seeds_spec kernel).1, survey_grammar]
    exact Nat.lt_add_one _

/-- What follows the next nonterminal of an item of the kernel is in its lookahead. -/
theorem mem_closureLookahead_kernel {i : Item} {la : NatSet} (hi : (i, la) ∈ kernel) {n : Nat}
    (hn : g.next i = some (.nonterminal n)) {j k : Nat} (hj : j ∈ la) (hf : g.Follows i j k) :
    k ∈ setAt (g.survey.closureLookahead kernel) n := by
  refine (closureLookahead_spec hw hk).1.2 n k (((seeds_spec kernel).2 n k).mpr
    ⟨lt_count_of_next hw hn, (i, la), hi, hn, mem_contribution.mpr ?_⟩)
  rcases hf with hf | ⟨hempty, rfl⟩
  · exact Or.inl hf
  · exact Or.inr ⟨hempty, hj⟩

/-- What follows the first nonterminal of a production of an expanded nonterminal is in its
lookahead. -/
theorem mem_closureLookahead_corner {p : Nat}
    (hp : (g.production p).lhs ∈ g.survey.expanded (kernel.map (·.1))) {n : Nat}
    (hn : g.next ⟨p, 0⟩ = some (.nonterminal n)) {j k : Nat}
    (hj : j ∈ setAt (g.survey.closureLookahead kernel) (g.production p).lhs)
    (hf : g.Follows ⟨p, 0⟩ j k) : k ∈ setAt (g.survey.closureLookahead kernel) n := by
  obtain ⟨hseeds, _, hfix⟩ := closureLookahead_spec hw hk
  have hlt : p < g.productions.size := prod_lt_of_next hn
  obtain ⟨rest, hrhs⟩ := rhs_of_next hn
  have hrest : g.rest ⟨p, 0⟩ = rest := by simp [Grammar.rest, hrhs]
  have hcorner : ⟨n, g.firstSets.ofString rest, g.firstSets.derivesEmpty rest⟩ ∈
      g.survey.corners.getD (g.production p).lhs [] :=
    (mem_corners hw).mpr ⟨p, hlt, rfl, rest, hrhs, rfl, rfl⟩
  rw [Follows, hrest] at hf
  refine spread_closed hfix (NatSet.mem_below.mpr ⟨hw.lhs_lt p hlt, hp⟩) hcorner ?_ ?_
  · rw [← hseeds.1, (seeds_spec kernel).1]
    exact lt_count_of_next hw hn
  · rcases hf with hf | ⟨hempty, rfl⟩
    · exact Or.inl hf
    · exact Or.inr ⟨hempty, hj⟩

end Closure

end ObjectPascal.Grammar
