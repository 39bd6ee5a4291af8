import Mathlib.Algebra.Order.BigOperators.Group.List
import Mathlib.Data.Finset.Card
import Mathlib.Data.Finset.Filter
import Mathlib.Data.Finset.Range
import Mathlib.Tactic.Ring
import ObjectPascal.Proofs.Grammar.Derivation

/-!
How large a parse tree grows. Where no nonterminal derives itself, a node over a single child with
leaves leads to a nonterminal of lower rank, so between two branchings there are only finitely many
nodes; and trees without leaves are bounded in the same way. So the size of a tree is at most
proportional to the number of its leaves.
-/

namespace ObjectPascal.Grammar

/-- To how many numbers below `n` a number is related. -/
noncomputable def rank (r : Nat → Nat → Prop) (n a : Nat) : Nat :=
  open Classical in ((Finset.range n).filter (r a)).card

theorem rank_le (r : Nat → Nat → Prop) (n a : Nat) : rank r n a ≤ n := by
  classical
  calc rank r n a ≤ (Finset.range n).card := Finset.card_filter_le _ _
    _ = n := Finset.card_range n

/-- A strict order lowers the rank. -/
theorem rank_lt {r : Nat → Nat → Prop} (htrans : ∀ {a b c}, r a b → r b c → r a c)
    (hirr : ∀ a, ¬ r a a) {n a b : Nat} (hb : b < n) (h : r a b) : rank r n b < rank r n a := by
  classical
  apply Finset.card_lt_card
  refine ⟨fun c hc => ?_, fun hsub => ?_⟩
  · simp only [Finset.mem_filter] at hc ⊢
    exact ⟨hc.1, htrans h hc.2⟩
  · have hmem := hsub (Finset.mem_filter.mpr ⟨Finset.mem_range.mpr hb, h⟩)
    exact hirr b (Finset.mem_filter.mp hmem).2

variable {g : Grammar}

theorem rhs_length_le_width {i : Nat} (hi : i < g.productions.size) :
    (g.production i).rhs.length ≤ g.width := by
  have hfold (l : List Production) (w : Nat) :
      w ≤ l.foldl (fun w p => max w p.rhs.length) w ∧
        ∀ p ∈ l, p.rhs.length ≤ l.foldl (fun w p => max w p.rhs.length) w := by
    induction l generalizing w with
    | nil => simp
    | cons p l ih =>
      obtain ⟨hstart, hall⟩ := ih (max w p.rhs.length)
      refine ⟨(Nat.le_max_left _ _).trans hstart, fun q hq => ?_⟩
      rcases List.mem_cons.mp hq with rfl | hq
      · exact (Nat.le_max_right _ _).trans hstart
      · exact hall q hq
  rw [width, ← Array.foldl_toList, production_eq_getElem hi]
  exact (hfold _ 0).2 _ (Array.getElem_mem_toList hi)

section Contexts

/-- At least one replacement. -/
def Rewrites (g : Grammar) : List Symbol → List Symbol → Prop := Relation.TransGen g.Produces

theorem Produces.context {a b : List Symbol} (h : g.Produces a b) (u v : List Symbol) :
    g.Produces (u ++ a ++ v) (u ++ b ++ v) := by
  obtain ⟨i, hi, u', v', rfl, rfl⟩ := h
  exact ⟨i, hi, u ++ u', v' ++ v, by simp, by simp⟩

theorem Rewrites.context {a b : List Symbol} (h : g.Rewrites a b) (u v : List Symbol) :
    g.Rewrites (u ++ a ++ v) (u ++ b ++ v) :=
  Relation.TransGen.lift (u ++ · ++ v) (fun _ _ hab => Produces.context hab u v) _ _ h

theorem Derives.context {a b : List Symbol} (h : g.Derives a b) (u v : List Symbol) :
    g.Derives (u ++ a ++ v) (u ++ b ++ v) :=
  Relation.ReflTransGen.lift (u ++ · ++ v) (fun _ _ hab => Produces.context hab u v) _ _ h

theorem Derives.append {a b a' b' : List Symbol} (h : g.Derives a b) (h' : g.Derives a' b') :
    g.Derives (a ++ a') (b ++ b') := by
  have hleft := h.context [] a'
  have hright := h'.context b []
  simp only [List.nil_append, List.append_nil] at hleft hright
  exact hleft.trans hright

theorem Derives.vanish {xs : List Symbol} (h : ∀ x ∈ xs, g.Derives [x] []) : g.Derives xs [] := by
  induction xs with
  | nil => exact .refl
  | cons x xs ih =>
    exact (h x List.mem_cons_self).append (ih fun y hy => h y (List.mem_cons_of_mem _ hy))

theorem Rewrites.of_production {i : Nat} (hi : i < g.productions.size) :
    g.Rewrites [.nonterminal (g.production i).lhs] (g.production i).rhs :=
  .single ⟨i, hi, [], [], by simp, by simp⟩

end Contexts

/-- No nonterminal derives itself. -/
def Acyclic (g : Grammar) : Prop := ∀ n, ¬ g.Rewrites [.nonterminal n] [.nonterminal n]

/-- How many nonterminals a nonterminal derives alone. -/
noncomputable def unitRank (g : Grammar) (n : Nat) : Nat :=
  rank (fun m k => g.Rewrites [.nonterminal m] [.nonterminal k]) g.nonterminalCount n

theorem unitRank_lt (ha : g.Acyclic) {m n : Nat} (hn : n < g.nonterminalCount)
    (h : g.Rewrites [.nonterminal m] [.nonterminal n]) : g.unitRank n < g.unitRank m := by
  refine rank_lt (r := fun m k => g.Rewrites [.nonterminal m] [.nonterminal k]) ?_ ha hn h
  intro a b c hab hbc
  exact Relation.TransGen.trans hab hbc

namespace Tree

/-- The number of nodes, leaves included. -/
def size : Tree → Nat
  | leaf _ => 1
  | node _ children => 1 + (children.map size).sum

@[simp]
theorem size_leaf (t : Token) : (leaf t).size = 1 := by rw [size]

@[simp]
theorem size_node (i : Nat) (children : List Tree) :
    (node i children).size = 1 + (children.map size).sum := by rw [size]

/-- The roots of trees derive their leaves. -/
theorem derives_forest {ts : List Tree}
    (h : ∀ t ∈ ts, g.Derives [t.root g] (t.yield.map fun token => .terminal token.kind)) :
    g.Derives (ts.map (root g))
      ((ts.flatMap yield).map fun token => .terminal token.kind) := by
  induction ts with
  | nil => exact .refl
  | cons t ts ih =>
    have hrest := ih fun t' ht' => h t' (List.mem_cons_of_mem _ ht')
    simpa using (h t List.mem_cons_self).append hrest

theorem Valid.derives {t : Tree} (h : t.Valid g) :
    g.Derives [t.root g] (t.yield.map fun token => .terminal token.kind) := by
  induction h with
  | leaf t =>
    rw [yield_leaf]
    exact .refl
  | node i children hi hr hc ih =>
    have hrest := derives_forest ih
    rw [hr] at hrest
    rw [yield_node]
    exact (Rewrites.of_production hi).to_reflTransGen.trans hrest

theorem Valid.vanish {t : Tree} (h : t.Valid g) (hy : t.yield = []) : g.Derives [t.root g] [] := by
  simpa [hy] using h.derives

/-- A node rewrites to the root of a child beside which no child has leaves. -/
theorem rewrites_child {i : Nat} {left right : List Tree} {t : Tree} (hi : i < g.productions.size)
    (hr : (left ++ t :: right).map (root g) = (g.production i).rhs)
    (hl : ∀ t' ∈ left, t'.Valid g ∧ t'.yield = [])
    (hright : ∀ t' ∈ right, t'.Valid g ∧ t'.yield = []) :
    g.Rewrites [.nonterminal (g.production i).lhs] [t.root g] := by
  have hvanish {ts : List Tree} (h : ∀ t' ∈ ts, t'.Valid g ∧ t'.yield = []) :
      g.Derives (ts.map (root g)) [] := by
    refine .vanish fun x hx => ?_
    obtain ⟨t', ht', rfl⟩ := List.mem_map.mp hx
    exact (h t' ht').1.vanish (h t' ht').2
  have hstep := Rewrites.of_production hi
  rw [← hr, List.map_append, List.map_cons] at hstep
  have hself : g.Derives [t.root g] [t.root g] := .refl
  have hrest := (hvanish hl).append (hself.append (hvanish hright))
  simp only [List.singleton_append, List.nil_append, List.append_nil] at hrest
  exact Relation.TransGen.trans_left hstep hrest

/-- The first tree with leaves. -/
theorem exists_first_with_leaves {ts : List Tree} (h : ts.flatMap yield ≠ []) :
    ∃ left t right, ts = left ++ t :: right ∧ (∀ t' ∈ left, t'.yield = []) ∧ t.yield ≠ [] := by
  cases hfind : ts.find? fun t => !t.yield.isEmpty with
  | none =>
    refine absurd (List.flatMap_eq_nil_iff.mpr fun t ht => ?_) h
    simpa using List.find?_eq_none.mp hfind t ht
  | some t =>
    obtain ⟨ht, left, right, rfl, hleft⟩ := List.find?_eq_some_iff_append.mp hfind
    exact ⟨left, t, right, rfl, fun t' ht' => by simpa using hleft t' ht', by simpa using ht⟩

end Tree

section Sizes

variable (g)

/-- A bound for the size of trees without leaves. -/
def vanishingSize : Nat := (g.width + 1) ^ g.nonterminalCount

/-- A bound for one node with all children without leaves. -/
def branchSize : Nat := g.width * g.vanishingSize + 1

/-- A bound for the nodes between two branchings. -/
def growth : Nat := (g.nonterminalCount + 2) * g.branchSize

/-- How many nodes in a row a tree with the given root can have above a branching or a leaf. -/
noncomputable def stem : Symbol → Nat
  | .terminal _ => 0
  | .nonterminal n => g.unitRank n + 1

variable {g}

theorem stem_mul_le (x : Symbol) : (g.stem x + 1) * g.branchSize ≤ g.growth := by
  apply Nat.mul_le_mul_right
  cases x with
  | terminal k => exact Nat.succ_le_succ (Nat.zero_le _)
  | nonterminal n => exact Nat.succ_le_succ (Nat.succ_le_succ (rank_le _ _ _))

theorem root_mem_rhs {i : Nat} {children : List Tree}
    (hr : children.map (Tree.root g) = (g.production i).rhs) {t : Tree} (ht : t ∈ children) :
    t.root g ∈ (g.production i).rhs := hr ▸ List.mem_map_of_mem ht

/-- A tree without leaves has a nonterminal root, whose rank bounds its size. -/
theorem Tree.Valid.size_le_of_vanishing (hw : g.WellFormed) (ha : g.Acyclic) {t : Tree}
    (h : t.Valid g) (hy : t.yield = []) :
    ∃ n, t.root g = .nonterminal n ∧ t.size ≤ (g.width + 1) ^ g.unitRank n := by
  induction h with
  | leaf t => simp at hy
  | node i children hi hr hc ih =>
    refine ⟨_, rfl, ?_⟩
    rw [Tree.yield_node, List.flatMap_eq_nil_iff] at hy
    -- A child is all that its parent derives, so its rank is lower.
    have hchild (t : Tree) (ht : t ∈ children) :
        ∃ r < g.unitRank (g.production i).lhs, t.size ≤ (g.width + 1) ^ r := by
      obtain ⟨n, hn, hsize⟩ := ih t ht (hy t ht)
      obtain ⟨left, right, rfl⟩ := List.append_of_mem ht
      have hrw := Tree.rewrites_child hi hr
        (fun t' ht' => ⟨hc t' (by simp [ht']), hy t' (by simp [ht'])⟩)
        (fun t' ht' => ⟨hc t' (by simp [ht']), hy t' (by simp [ht'])⟩)
      rw [hn] at hrw
      have hlt := hw.rhs_lt i hi n (hn ▸ root_mem_rhs hr ht)
      exact ⟨g.unitRank n, unitRank_lt ha hlt hrw, hsize⟩
    rw [Tree.size_node]
    cases hrank : g.unitRank (g.production i).lhs with
    | zero =>
      obtain rfl : children = [] := by
        refine List.eq_nil_iff_forall_not_mem.mpr fun t ht => ?_
        obtain ⟨r, hlt, _⟩ := hchild t ht
        omega
      simp
    | succ k =>
      have hsum : (children.map Tree.size).sum ≤ g.width * (g.width + 1) ^ k := by
        have hle := List.sum_le_card_nsmul (children.map Tree.size) ((g.width + 1) ^ k) (by
          intro s hs
          obtain ⟨t, ht, rfl⟩ := List.mem_map.mp hs
          obtain ⟨r, hlt, hsize⟩ := hchild t ht
          exact hsize.trans (Nat.pow_le_pow_right (Nat.succ_pos _) (by omega)))
        have hlen : children.length ≤ g.width := by
          rw [← List.length_map (f := Tree.root g), hr]
          exact rhs_length_le_width hi
        rw [List.length_map, Nat.nsmul_eq_mul] at hle
        exact hle.trans (Nat.mul_le_mul_right _ hlen)
      have hpos : 1 ≤ (g.width + 1) ^ k := Nat.one_le_pow _ _ (Nat.succ_pos _)
      calc 1 + (children.map Tree.size).sum
          ≤ (g.width + 1) ^ k + g.width * (g.width + 1) ^ k := Nat.add_le_add hpos hsum
        _ = (g.width + 1) ^ (k + 1) := by ring

theorem Tree.Valid.size_le_vanishingSize (hw : g.WellFormed) (ha : g.Acyclic) {t : Tree}
    (h : t.Valid g) (hy : t.yield = []) : t.size ≤ g.vanishingSize := by
  obtain ⟨n, _, hsize⟩ := h.size_le_of_vanishing hw ha hy
  exact hsize.trans (Nat.pow_le_pow_right (Nat.succ_pos _) (rank_le _ _ _))

/-- Trees in a row: those without leaves count one by one, the others by their leaves. -/
theorem forest_size_le {b c : Nat} (ts : List Tree) (hb : ∀ t ∈ ts, t.yield = [] → t.size ≤ b)
    (hc : ∀ t ∈ ts, t.yield ≠ [] → t.size + c ≤ 2 * t.yield.length * c) :
    (ts.map Tree.size).sum ≤ ts.length * b + 2 * (ts.flatMap Tree.yield).length * c ∧
      (ts.flatMap Tree.yield ≠ [] →
        (ts.map Tree.size).sum + c ≤ ts.length * b + 2 * (ts.flatMap Tree.yield).length * c) := by
  induction ts with
  | nil => simp
  | cons t ts ih =>
    obtain ⟨hall, hsome⟩ := ih (fun t' ht' => hb t' (List.mem_cons_of_mem _ ht'))
      (fun t' ht' => hc t' (List.mem_cons_of_mem _ ht'))
    have hsplit : (ts.length + 1) * b + 2 * (t.yield.length + (ts.flatMap Tree.yield).length) * c =
        b + 2 * t.yield.length * c +
          (ts.length * b + 2 * (ts.flatMap Tree.yield).length * c) := by ring
    simp only [List.map_cons, List.sum_cons, List.flatMap_cons, List.length_append,
      List.length_cons, hsplit]
    by_cases hy : t.yield = []
    · have ht := hb t List.mem_cons_self hy
      simp only [hy, List.nil_append, List.length_nil, Nat.mul_zero, Nat.zero_mul, Nat.add_zero]
      exact ⟨by omega, fun h => by have := hsome h; omega⟩
    · have ht := hc t List.mem_cons_self hy
      exact ⟨by omega, fun _ => by omega⟩

/-- The size of a tree with leaves: each leaf but the first may bring a branching, and above each
branching, as above each leaf, there are only as many nodes as the stem of the root allows. -/
theorem Tree.Valid.size_le_of_leaves (hw : g.WellFormed) (ha : g.Acyclic) {t : Tree}
    (h : t.Valid g) (hy : t.yield ≠ []) :
    t.size + 2 * g.growth ≤
      2 * t.yield.length * g.growth + (g.stem (t.root g) + 1) * g.branchSize := by
  induction h with
  | leaf t =>
    simp only [Tree.size_leaf, Tree.yield_leaf, List.length_singleton, Tree.root, stem, branchSize]
    omega
  | node i children hi hr hc ih =>
    rw [Tree.yield_node] at hy
    have hempty (t : Tree) (ht : t ∈ children) (hy : t.yield = []) : t.size ≤ g.vanishingSize :=
      (hc t ht).size_le_vanishingSize hw ha hy
    have hleaves (t : Tree) (ht : t ∈ children) (hy : t.yield ≠ []) :
        t.size + g.growth ≤ 2 * t.yield.length * g.growth := by
      have hsize := ih t ht hy
      have hstem := stem_mul_le (g := g) (t.root g)
      omega
    have hlen : children.length ≤ g.width := by
      rw [← List.length_map (f := Tree.root g), hr]
      exact rhs_length_le_width hi
    have hwidth : children.length * g.vanishingSize + 1 ≤ g.branchSize :=
      Nat.succ_le_succ (Nat.mul_le_mul_right _ hlen)
    obtain ⟨left, t, right, rfl, hleft, ht⟩ := Tree.exists_first_with_leaves hy
    have hl := (forest_size_le left (c := g.growth) (fun t' ht' => hempty t' (by simp [ht']))
      (fun t' ht' hy => absurd (hleft t' ht') hy)).1
    have hnil : left.flatMap Tree.yield = [] := List.flatMap_eq_nil_iff.mpr hleft
    obtain ⟨hall, hsome⟩ := forest_size_le right
      (fun t' ht' => hempty t' (by simp [ht'])) (fun t' ht' => hleaves t' (by simp [ht']))
    have hsplit : (left ++ t :: right).length * g.vanishingSize =
        left.length * g.vanishingSize + g.vanishingSize + right.length * g.vanishingSize := by
      simp only [List.length_append, List.length_cons]
      ring
    have hcount : 2 * (t.yield.length + (right.flatMap Tree.yield).length) * g.growth =
        2 * t.yield.length * g.growth + 2 * (right.flatMap Tree.yield).length * g.growth := by ring
    simp only [Tree.size_node, Tree.yield_node, List.map_append, List.map_cons, List.sum_append,
      List.sum_cons, List.flatMap_append, List.flatMap_cons, hnil, List.nil_append,
      List.length_append, hcount] at hl ⊢
    simp only [List.length_nil, Nat.mul_zero, Nat.zero_mul, Nat.add_zero] at hl
    by_cases hright : right.flatMap Tree.yield = []
    · -- A single child has leaves, so its root has a shorter stem.
      have hvanish := List.flatMap_eq_nil_iff.mp hright
      have hrw := Tree.rewrites_child hi hr (fun t' ht' => ⟨hc t' (by simp [ht']), hleft t' ht'⟩)
        (fun t' ht' => ⟨hc t' (by simp [ht']), hvanish t' ht'⟩)
      have hstem : g.stem (t.root g) + 2 ≤ g.stem (.nonterminal (g.production i).lhs) + 1 := by
        cases hroot : t.root g with
        | terminal k => simp only [stem]; omega
        | nonterminal n =>
          rw [hroot] at hrw
          have hlt := hw.rhs_lt i hi n (hroot ▸ root_mem_rhs hr (by simp))
          have := unitRank_lt ha hlt hrw
          simp only [stem]
          omega
      have hmul := Nat.mul_le_mul_right g.branchSize hstem
      have hsize := ih t (by simp) ht
      have hpart : (g.stem (t.root g) + 2) * g.branchSize =
          (g.stem (t.root g) + 1) * g.branchSize + g.branchSize := by ring
      simp only [hright, List.length_nil, Nat.mul_zero, Nat.zero_mul, Nat.add_zero] at hall ⊢
      rw [Tree.root]
      omega
    · have h1 := hleaves t (by simp) ht
      have h2 := hsome hright
      have hone : g.branchSize ≤ (g.stem (Tree.root g (.node i (left ++ t :: right))) + 1) *
          g.branchSize := Nat.le_mul_of_pos_left _ (Nat.succ_pos _)
      omega

/-- The size of a tree by its leaves alone. -/
theorem Tree.Valid.size_le_leaves (hw : g.WellFormed) (ha : g.Acyclic) {t : Tree}
    (h : t.Valid g) (hy : t.yield ≠ []) : t.size + g.growth ≤ 2 * t.yield.length * g.growth := by
  have hsize := h.size_le_of_leaves hw ha hy
  have hstem := stem_mul_le (g := g) (t.root g)
  omega

end Sizes

end ObjectPascal.Grammar
