import ObjectPascal.Grammar.First
import ObjectPascal.Proofs.Grammar.Derivation
import ObjectPascal.Proofs.Grammar.Growth
import ObjectPascal.Proofs.Kind
import ObjectPascal.Proofs.Saturation

/-!
The facts about empty derivations and first terminals are closed under the productions, because
their number bounds the rounds of the saturation. So they hold for all parse trees: what a tree
without leaves stands for is known to derive nothing, and the first leaf of any other tree is among
the first terminals of its root.
-/

namespace ObjectPascal.Grammar
namespace First

/-- The second knows all that the first knows, of the same nonterminals. -/
structure Le (f f' : First) : Prop where
  size : f.nullable.size = f'.nullable.size
  nullable : ∀ n, f.isNullable n = true → f'.isNullable n = true
  first : Within f.first f'.first

namespace Le

theorem refl (f : First) : Le f f := ⟨rfl, fun _ h => h, Within.refl _⟩

theorem trans {f f' f'' : First} (h : Le f f') (k : Le f' f'') : Le f f'' :=
  ⟨h.size.trans k.size, fun n hn => k.nullable n (h.nullable n hn), h.first.trans k.first⟩

theorem antisymm {f f' : First} (h : Le f f') (k : Le f' f) : f = f' := by
  have hnull : f.nullable = f'.nullable := by
    apply Array.ext h.size
    intro n hn hn'
    have heq : f.isNullable n = f'.isNullable n :=
      Bool.eq_iff_iff.mpr ⟨h.nullable n, k.nullable n⟩
    simpa [isNullable, Array.getD, hn, hn'] using heq
  have hfirst : f.first = f'.first := h.first.antisymm k.first
  cases f
  cases f'
  cases hnull
  cases hfirst
  rfl

end Le

theorem isNullable_learn (f : First) (p : Production) (n : Nat) :
    (f.learn p).isNullable n = true ↔ f.isNullable n = true ∨
      (p.lhs = n ∧ n < f.nullable.size ∧ f.derivesEmpty p.rhs = true) := by
  by_cases hn : n < f.nullable.size
  · by_cases hp : p.lhs = n
    · simp [isNullable, learn, Array.getD, hn, Array.getElem_modify, hp]
    · simp [isNullable, learn, Array.getD, hn, Array.getElem_modify, hp]
  · simp [isNullable, learn, Array.getD, hn]

theorem learn_grows (f : First) (p : Production) : Le f (f.learn p) :=
  ⟨by simp [learn], fun n hn => (isNullable_learn f p n).mpr (Or.inl hn), Within.modify _ _ _⟩

theorem round_grows (g : Grammar) (f : First) : Le f (round g f) := by
  rw [round, ← Array.foldl_toList]
  refine List.foldlRecOn g.productions.toList _ (motive := Le f) (Le.refl f) ?_
  intro f' hf' p _
  exact hf'.trans (learn_grows f' p)

theorem ofString_lt {f : First} (hf : MembersBelow Kind.count f.first) (xs : List Symbol) :
    ∀ j ∈ f.ofString xs, j < Kind.count := by
  induction xs with
  | nil => simp [ofString]
  | cons x xs ih =>
    intro j hj
    cases x with
    | terminal k =>
      obtain rfl := NatSet.mem_single.mp hj
      exact k.index_lt
    | nonterminal n =>
      simp only [ofString] at hj
      split at hj
      · rcases NatSet.mem_union.mp hj with hj | hj
        · exact hf n j hj
        · exact ih j hj
      · exact hf n j hj

theorem round_membersBelow (g : Grammar) {f : First} (hf : MembersBelow Kind.count f.first) :
    MembersBelow Kind.count (round g f).first := by
  rw [round, ← Array.foldl_toList]
  refine List.foldlRecOn g.productions.toList _
    (motive := fun f : First => MembersBelow Kind.count f.first) hf ?_
  intro f' hf' p _ n j hj
  rcases mem_modify.mp hj with hj | ⟨_, _, hj⟩
  · exact hf' n j hj
  · exact ofString_lt hf' p.rhs j hj

/-- What is known of each nonterminal; the bound on terminals stands for the fact that it derives
nothing. -/
def known (bound : Nat) (f : First) : Finset (Nat × Nat) :=
  (Finset.range f.nullable.size ×ˢ Finset.range (bound + 1)).filter fun e =>
    if e.2 = bound then f.isNullable e.1 = true else e.2 ∈ setAt f.first e.1

/-- More than is known already can only be a fact that is not. -/
theorem known_ssubset {bound : Nat} {f f' : First} (hs : f.first.size = f.nullable.size)
    (hf' : MembersBelow bound f'.first) (h : Le f f') (hne : f' ≠ f) :
    known bound f ⊂ known bound f' := by
  have hsub : known bound f ⊆ known bound f' := by
    intro e he
    simp only [known, Finset.mem_filter, ← h.size] at he ⊢
    refine ⟨he.1, ?_⟩
    split
    · rename_i heq
      exact h.nullable _ (by simpa [heq] using he.2)
    · rename_i heq
      exact h.first.2 _ _ (by simpa [heq] using he.2)
  refine ⟨hsub, fun hback => hne ?_⟩
  refine Le.antisymm ⟨h.size.symm, fun n hn => ?_, h.first.1.symm, fun n j hj => ?_⟩ h
  · -- What is known to derive nothing stands in the facts under the bound.
    have hlt : n < f'.nullable.size := by
      by_contra hlt
      simp [isNullable, Array.getD, hlt] at hn
    have hmem : (n, bound) ∈ known bound f' := by
      simp only [known, Finset.mem_filter, Finset.mem_product, Finset.mem_range]
      exact ⟨⟨hlt, Nat.lt_succ_self _⟩, by rwa [if_pos trivial]⟩
    have hcell := (Finset.mem_filter.mp (hback hmem)).2
    rwa [if_pos rfl] at hcell
  · have hlt : n < f'.nullable.size := by
      rw [← h.size, ← hs, h.first.1]
      exact lt_size_of_mem hj
    have hbelow := hf' n j hj
    have hmem : (n, j) ∈ known bound f' := by
      simp only [known, Finset.mem_filter, Finset.mem_product, Finset.mem_range]
      exact ⟨⟨hlt, hbelow.trans (Nat.lt_succ_self _)⟩, by rwa [if_neg hbelow.ne]⟩
    have hcell := (Finset.mem_filter.mp (hback hmem)).2
    rwa [if_neg hbelow.ne] at hcell

end First

variable {g : Grammar}

/-- Facts about all nonterminals of the grammar, and about kinds only. -/
structure First.Fits (g : Grammar) (f : First) : Prop where
  nullable_size : f.nullable.size = g.nonterminalCount
  first_size : f.first.size = g.nonterminalCount
  below : MembersBelow Kind.count f.first

/-- The saturation ends in facts that no production adds to. -/
theorem firstSets_spec (g : Grammar) :
    First.Fits g g.firstSets ∧ First.round g g.firstSets = g.firstSets := by
  have hblank : First.Fits g (First.blank g.nonterminalCount) :=
    ⟨Array.size_replicate, Array.size_replicate, fun n j hj => absurd hj (notMem_replicate _ n j)⟩
  have hround (f : First) (hf : First.Fits g f) : First.Fits g (First.round g f) := by
    have hle := First.round_grows g f
    exact ⟨hle.size ▸ hf.nullable_size, hle.first.1 ▸ hf.first_size,
      First.round_membersBelow g hf.below⟩
  refine ⟨saturate_induct hround _ _ hblank, ?_⟩
  refine saturate_fixed hround (First.known Kind.count)
    (Finset.range g.nonterminalCount ×ˢ Finset.range (Kind.count + 1)) ?_ ?_ _ _ hblank ?_
  · intro f hf
    rw [First.known, hf.nullable_size]
    exact Finset.filter_subset _ _
  · intro f hf hne
    exact First.known_ssubset (hf.first_size.trans hf.nullable_size.symm) (hround f hf).below
      (First.round_grows g f) hne
  · rw [Finset.card_product, Finset.card_range, Finset.card_range]
    omega

theorem learn_firstSets {i : Nat} (hi : i < g.productions.size) :
    g.firstSets.learn (g.production i) = g.firstSets := by
  have hround := (firstSets_spec g).2
  rw [First.round, ← Array.foldl_toList] at hround
  refine foldl_fixed First.Le.refl First.Le.trans First.Le.antisymm First.learn_grows hround _ ?_
  rw [production_eq_getElem hi]
  exact Array.mem_toList_iff.mpr (Array.getElem_mem hi)

/-- A nonterminal derives nothing if the right-hand side of one of its productions does. -/
theorem isNullable_of_derivesEmpty (hw : g.WellFormed) {i : Nat} (hi : i < g.productions.size)
    (h : g.firstSets.derivesEmpty (g.production i).rhs = true) :
    g.firstSets.isNullable (g.production i).lhs = true := by
  rw [← learn_firstSets hi, First.isNullable_learn]
  refine Or.inr ⟨rfl, ?_, h⟩
  rw [(firstSets_spec g).1.nullable_size]
  exact hw.lhs_lt i hi

/-- A nonterminal begins with what the right-hand sides of its productions begin with. -/
theorem mem_of_mem_ofString (hw : g.WellFormed) {i : Nat} (hi : i < g.productions.size) {j : Nat}
    (h : j ∈ g.firstSets.ofString (g.production i).rhs) :
    j ∈ g.firstSets.of (g.production i).lhs := by
  rw [← learn_firstSets hi]
  refine mem_modify.mpr (Or.inr ⟨rfl, ?_, h⟩)
  rw [(firstSets_spec g).1.first_size]
  exact hw.lhs_lt i hi

/-- What the facts say of a string that trees with given leaves stand over. -/
def Begins (g : Grammar) (xs : List Symbol) (w : List Token) : Prop :=
  (w = [] → g.firstSets.derivesEmpty xs = true) ∧
    ∀ token rest, w = token :: rest → token.kind.index ∈ g.firstSets.ofString xs

theorem Begins.cons {x : Symbol} {xs : List Symbol} {v w : List Token} (h : g.Begins [x] v)
    (k : g.Begins xs w) : g.Begins (x :: xs) (v ++ w) := by
  cases x with
  | terminal l =>
    -- A terminal does not derive nothing, so its tree has a leaf.
    refine ⟨fun hnil => ?_, fun token rest heq => ?_⟩
    · have hv := h.1 (List.append_eq_nil_iff.mp hnil).1
      simp [First.derivesEmpty] at hv
    · cases v with
      | nil =>
        have hv := h.1 rfl
        simp [First.derivesEmpty] at hv
      | cons token' rest' =>
        obtain rfl : token' = token := (List.cons.inj heq).1
        exact h.2 token' rest' rfl
  | nonterminal n =>
    have hone : g.firstSets.derivesEmpty [.nonterminal n] = g.firstSets.isNullable n := by
      simp [First.derivesEmpty]
    refine ⟨fun hnil => ?_, fun token rest heq => ?_⟩
    · obtain ⟨hv, hw⟩ := List.append_eq_nil_iff.mp hnil
      have hn := h.1 hv
      rw [hone] at hn
      simp only [First.derivesEmpty, hn, k.1 hw, Bool.and_self]
    · cases v with
      | nil =>
        have hn := h.1 rfl
        rw [hone] at hn
        simp only [First.ofString, hn, ↓reduceIte, NatSet.mem_union]
        exact Or.inr (k.2 token rest heq)
      | cons token' rest' =>
        obtain rfl : token' = token := (List.cons.inj heq).1
        have hfirst := h.2 token' rest' rfl
        simp only [First.ofString] at hfirst ⊢
        split
        · rename_i hn
          simp only [hn, ↓reduceIte, NatSet.mem_union, NatSet.notMem_empty, or_false] at hfirst
          exact NatSet.mem_union.mpr (Or.inl hfirst)
        · rename_i hn
          simpa only [hn, Bool.false_eq_true, ↓reduceIte] using hfirst

theorem Begins.forest {ts : List Tree} (h : ∀ t ∈ ts, g.Begins [t.root g] t.yield) :
    g.Begins (ts.map (Tree.root g)) (ts.flatMap Tree.yield) := by
  induction ts with
  | nil => exact ⟨fun _ => rfl, by simp⟩
  | cons t ts ih =>
    exact (h t List.mem_cons_self).cons (ih fun t' ht' => h t' (List.mem_cons_of_mem _ ht'))

/-- The facts hold of every parse tree. -/
theorem Tree.Valid.begins (hw : g.WellFormed) {t : Tree} (h : t.Valid g) :
    g.Begins [t.root g] t.yield := by
  induction h with
  | leaf token =>
    refine ⟨by simp, fun token' rest heq => ?_⟩
    obtain ⟨rfl, _⟩ : token = token' ∧ rest = [] := by simpa [eq_comm] using heq
    simp [Tree.root, First.ofString]
  | node i children hi hr _ ih =>
    have hrhs := Begins.forest ih
    rw [hr] at hrhs
    refine ⟨fun hnil => ?_, fun token rest heq => ?_⟩
    · rw [Tree.yield_node] at hnil
      have hn := isNullable_of_derivesEmpty hw hi (hrhs.1 hnil)
      simp [Tree.root, First.derivesEmpty, hn]
    · rw [Tree.yield_node] at heq
      have hfirst := mem_of_mem_ofString hw hi (hrhs.2 token rest heq)
      simp only [Tree.root, First.ofString]
      split
      · exact NatSet.mem_union.mpr (Or.inl hfirst)
      · exact hfirst

end ObjectPascal.Grammar

/-!
What strings of symbols begin with. The facts about empty derivations and first terminals are
exact: whatever a round adds is shown by a derivation, and a replacement in a derivation shows
nothing that is not known already.
-/

namespace ObjectPascal.Grammar

variable {g : Grammar}

/-- A string of symbols derives one that begins with a terminal. -/
def Opens (g : Grammar) (xs : List Symbol) (k : Kind) : Prop :=
  ∃ ys, g.Derives xs (.terminal k :: ys)

theorem derivesEmpty_append (f : First) (u v : List Symbol) :
    f.derivesEmpty (u ++ v) = (f.derivesEmpty u && f.derivesEmpty v) := by
  induction u with
  | nil => rfl
  | cons x u ih =>
    cases x with
    | terminal k => rfl
    | nonterminal n => simp only [List.cons_append, First.derivesEmpty, ih, Bool.and_assoc]

theorem mem_ofString_append (f : First) (u v : List Symbol) {j : Nat} :
    j ∈ f.ofString (u ++ v) ↔
      j ∈ f.ofString u ∨ (f.derivesEmpty u = true ∧ j ∈ f.ofString v) := by
  induction u with
  | nil => simp [First.ofString, First.derivesEmpty]
  | cons x u ih =>
    cases x with
    | terminal k => simp [First.ofString, First.derivesEmpty]
    | nonterminal n =>
      cases hn : f.isNullable n <;>
        simp [First.ofString, First.derivesEmpty, hn, ih, or_assoc]

section Complete

variable (hw : g.WellFormed)

include hw

/-- What a string is known to begin with it is known to begin with before a replacement. -/
theorem Produces.first {a b : List Symbol} (h : g.Produces a b) :
    (g.firstSets.derivesEmpty b = true → g.firstSets.derivesEmpty a = true) ∧
      ∀ j ∈ g.firstSets.ofString b, j ∈ g.firstSets.ofString a := by
  obtain ⟨i, hi, u, v, rfl, rfl⟩ := h
  have hempty (h : g.firstSets.derivesEmpty (g.production i).rhs = true) :
      g.firstSets.isNullable (g.production i).lhs = true := isNullable_of_derivesEmpty hw hi h
  have hhead {j : Nat} (h : j ∈ g.firstSets.ofString (g.production i).rhs) :
      j ∈ g.firstSets.of (g.production i).lhs := mem_of_mem_ofString hw hi h
  constructor
  · simp only [derivesEmpty_append, First.derivesEmpty, Bool.and_eq_true]
    rintro ⟨⟨hu, hrhs⟩, hv⟩
    exact ⟨hu, hempty hrhs, hv⟩
  · intro j hj
    rw [List.append_assoc, mem_ofString_append, mem_ofString_append] at hj
    rw [mem_ofString_append, First.ofString]
    refine hj.imp_right (And.imp_right fun hrest => ?_)
    rcases hrest with hrhs | ⟨hrhs, hv⟩
    · split
      · exact NatSet.mem_union.mpr (Or.inl (hhead hrhs))
      · exact hhead hrhs
    · rw [if_pos (hempty hrhs)]
      exact NatSet.mem_union.mpr (Or.inr hv)

theorem Derives.first {a b : List Symbol} (h : g.Derives a b) :
    (g.firstSets.derivesEmpty b = true → g.firstSets.derivesEmpty a = true) ∧
      ∀ j ∈ g.firstSets.ofString b, j ∈ g.firstSets.ofString a := by
  induction h using Relation.ReflTransGen.head_induction_on with
  | refl => exact ⟨id, fun _ => id⟩
  | head hstep _ ih =>
    obtain ⟨hempty, hfirst⟩ := hstep.first hw
    exact ⟨fun h => hempty (ih.1 h), fun j hj => hfirst j (ih.2 j hj)⟩

end Complete

section Sound

/-- What a string begins with comes first behind a string that vanishes. -/
theorem Opens.behind {u v : List Symbol} {k : Kind} (hu : g.Derives u []) (h : g.Opens v k) :
    g.Opens (u ++ v) k := by
  obtain ⟨ys, hys⟩ := h
  exact ⟨ys, hu.append hys⟩

theorem Opens.before {u : List Symbol} {k : Kind} (h : g.Opens u k) (v : List Symbol) :
    g.Opens (u ++ v) k := by
  obtain ⟨ys, hys⟩ := h
  exact ⟨ys ++ v, hys.append .refl⟩

/-- All that is known of the nonterminals is shown by derivations. -/
structure First.Sound (g : Grammar) (f : First) : Prop where
  nullable : ∀ n, f.isNullable n = true → g.Derives [.nonterminal n] []
  first : ∀ n, ∀ j ∈ f.of n, ∃ k : Kind, j = k.index ∧ g.Opens [.nonterminal n] k

namespace First.Sound

variable {f : First}

theorem blank (g : Grammar) (n : Nat) : First.Sound g (First.blank n) := by
  constructor
  · intro m hm
    simp [First.blank, First.isNullable, Array.getD] at hm
  · intro m j hj
    exact absurd hj (notMem_replicate n m j)

theorem derives_nil (h : First.Sound g f) (xs : List Symbol) (hxs : f.derivesEmpty xs = true) :
    g.Derives xs [] := by
  induction xs with
  | nil => exact .refl
  | cons x xs ih =>
    cases x with
    | terminal k => simp [First.derivesEmpty] at hxs
    | nonterminal n =>
      simp only [First.derivesEmpty, Bool.and_eq_true] at hxs
      exact (h.nullable n hxs.1).append (ih hxs.2)

theorem opens (h : First.Sound g f) (xs : List Symbol) (j : Nat) (hj : j ∈ f.ofString xs) :
    ∃ k : Kind, j = k.index ∧ g.Opens xs k := by
  induction xs with
  | nil => simp [First.ofString] at hj
  | cons x xs ih =>
    cases x with
    | terminal k => exact ⟨k, NatSet.mem_single.mp hj, xs, .refl⟩
    | nonterminal n =>
      -- The terminal comes from the nonterminal, or from behind it if the nonterminal may vanish.
      have hcases : j ∈ f.of n ∨ f.isNullable n = true ∧ j ∈ f.ofString xs := by
        simp only [First.ofString] at hj
        split at hj
        · rename_i hn
          exact (NatSet.mem_union.mp hj).imp_right fun hj => ⟨hn, hj⟩
        · exact Or.inl hj
      rcases hcases with hfirst | ⟨hn, hrest⟩
      · obtain ⟨k, hk, hopens⟩ := h.first n j hfirst
        exact ⟨k, hk, hopens.before xs⟩
      · obtain ⟨k, hk, hopens⟩ := ih hrest
        exact ⟨k, hk, hopens.behind (h.nullable n hn)⟩

/-- A production shows only what its right-hand side derives. -/
theorem learn (h : First.Sound g f) {i : Nat} (hi : i < g.productions.size) :
    First.Sound g (f.learn (g.production i)) := by
  have hstep : g.Derives [.nonterminal (g.production i).lhs] (g.production i).rhs :=
    (Rewrites.of_production hi).to_reflTransGen
  constructor
  · intro n hn
    rcases (First.isNullable_learn f _ n).mp hn with hold | ⟨rfl, _, hrhs⟩
    · exact h.nullable n hold
    · exact hstep.trans (h.derives_nil _ hrhs)
  · intro n j hj
    rcases mem_modify.mp hj with hold | ⟨rfl, _, hrhs⟩
    · exact h.first n j hold
    · obtain ⟨k, hk, ys, hys⟩ := h.opens _ j hrhs
      exact ⟨k, hk, ys, hstep.trans hys⟩

theorem round (h : First.Sound g f) : First.Sound g (First.round g f) := by
  rw [First.round, ← Array.foldl_toList]
  refine List.foldlRecOn g.productions.toList _ (motive := First.Sound g) h ?_
  intro f' hf' p hp
  obtain ⟨i, hi, rfl⟩ := Array.mem_iff_getElem.mp (Array.mem_toList_iff.mp hp)
  rw [← production_eq_getElem hi]
  exact hf'.learn hi

end First.Sound

theorem firstSets_sound (g : Grammar) : First.Sound g g.firstSets :=
  saturate_induct (fun _ h => h.round) _ _ (.blank g _)

end Sound

section Exact

variable (hw : g.WellFormed)

include hw

theorem derivesEmpty_iff (xs : List Symbol) :
    g.firstSets.derivesEmpty xs = true ↔ g.Derives xs [] :=
  ⟨(firstSets_sound g).derives_nil xs, fun h => (h.first hw).1 rfl⟩

theorem mem_ofString_iff (xs : List Symbol) (j : Nat) :
    j ∈ g.firstSets.ofString xs ↔ ∃ k : Kind, j = k.index ∧ g.Opens xs k := by
  constructor
  · exact (firstSets_sound g).opens xs j
  · rintro ⟨k, rfl, ys, hys⟩
    apply (hys.first hw).2
    rw [First.ofString, NatSet.mem_single]

end Exact

/-- The facts about empty derivations and first terminals are found and exact. Going through the
productions comes to an end. A nonterminal is known to derive nothing exactly if it does, and its
first terminals are those that something it derives begins with. The same holds of what remains of
each right-hand side from any position on. -/
theorem first_sets_exact (hb : g.Built) :
    Converges (First.round g) (First.blank g.nonterminalCount) g.firstSets ∧
    (∀ n, (g.firstSets.isNullable n = true ↔ g.Derives [.nonterminal n] []) ∧
      ∀ j, j ∈ g.firstSets.of n ↔ ∃ k : Kind, j = k.index ∧ g.Opens [.nonterminal n] k) ∧
    ∀ p < g.productions.size, ∀ d ≤ (g.production p).rhs.length,
      (g.firstSets.derivesEmpty ((g.production p).rhs.drop d) = true ↔
        g.Derives ((g.production p).rhs.drop d) []) ∧
      ∀ j, j ∈ g.firstSets.ofString ((g.production p).rhs.drop d) ↔
        ∃ k : Kind, j = k.index ∧ g.Opens ((g.production p).rhs.drop d) k := by
  have hw := hb.wellFormed
  refine ⟨converges_saturate (firstSets_spec g).2, fun n => ⟨?_, fun j => ?_⟩, fun p _ d _ => ⟨?_, ?_⟩⟩
  · have hone : g.firstSets.derivesEmpty [.nonterminal n] = g.firstSets.isNullable n := by
      simp [First.derivesEmpty]
    rw [← hone]
    exact derivesEmpty_iff hw _
  · have hone : j ∈ g.firstSets.ofString [.nonterminal n] ↔ j ∈ g.firstSets.of n := by
      simp only [First.ofString]
      split <;> simp
    rw [← hone]
    exact mem_ofString_iff hw _ j
  · exact derivesEmpty_iff hw _
  · exact mem_ofString_iff hw _

section Signs

/-- An integer with a sign that may be missing. -/
def signed : Grammar :=
  ((({} : Grammar).start "number").rule "number" [.name "sign", .token .integer]).rule "sign" []
    |>.rule "sign" [.token .minus]

theorem signed_built : signed.Built :=
  .rule (.rule (.rule (.start .empty _) _ _ none) _ _ none) _ _ none

theorem signed_eq : signed = ⟨#["$accept", "number", "sign"],
    #[⟨0, [.nonterminal 1], 0⟩, ⟨1, [.nonterminal 2, .terminal .integer], 0⟩, ⟨2, [], 0⟩,
      ⟨2, [.terminal .minus], 0⟩], [], 0⟩ := by
  simp [signed, start, rule, intern, symbolsOf, symbolOf, levelOfRule, precedenceOf,
    List.findIdx?_cons]

set_option maxRecDepth 20000 in
theorem signed_firstSets : signed.firstSets = ⟨#[false, false, true],
    #[.single Kind.integer.index ∪ .single Kind.minus.index,
      .single Kind.integer.index ∪ .single Kind.minus.index, .single Kind.minus.index]⟩ := by
  rw [signed_eq]
  cbv

/-- A sign may be missing, so a number begins with a sign or with its integer, and with nothing
else. -/
theorem first_sets_exact_signed : signed.Built ∧ signed.Derives [.nonterminal 2] [] ∧
    ¬ signed.Derives [.nonterminal 1] [] ∧
    ∀ k, signed.Opens [.nonterminal 1] k ↔ k = .integer ∨ k = .minus := by
  obtain ⟨_, hall, _⟩ := first_sets_exact signed_built
  refine ⟨signed_built, ?_, ?_, fun k => ?_⟩
  · rw [← (hall 2).1, signed_firstSets]
    rfl
  · rw [← (hall 1).1, signed_firstSets]
    decide
  · have hmem : k.index ∈ signed.firstSets.of 1 ↔
        k.index = Kind.integer.index ∨ k.index = Kind.minus.index := by
      rw [signed_firstSets]
      simp [First.of, Array.getD]
    constructor
    · intro h
      have hk := ((hall 1).2 k.index).mpr ⟨k, rfl, h⟩
      exact (hmem.mp hk).imp (fun h => Kind.index_inj h) fun h => Kind.index_inj h
    · intro h
      have hk := hmem.mpr (h.imp (congrArg Kind.index) (congrArg Kind.index))
      obtain ⟨k', hindex, hopens⟩ := ((hall 1).2 k.index).mp hk
      rwa [Kind.index_inj hindex]

end Signs

end ObjectPascal.Grammar
