import ObjectPascal.Proofs.Grammar.Growth
import ObjectPascal.Proofs.Grammar.Stack

/-!
How high a stack grows without leaves. An item of a state with a dot behind symbols that vanish,
before the nonterminal of another item, hides the second behind the first; a long row of vanishing
symbols on the stack is a long chain of such items. Where no nonterminal is hidden behind itself
the chain is bounded, and so is the size of all trees on a stack by the number of their leaves.
-/

namespace ObjectPascal.Grammar

variable {g : Grammar}

/-- A nonterminal derives a form in which only symbols that vanish, and at least one of them, stand
before another nonterminal. -/
def Hides (g : Grammar) (m n : Nat) : Prop :=
  ∃ left right, left ≠ [] ∧ g.Derives left [] ∧
    g.Rewrites [.nonterminal m] (left ++ .nonterminal n :: right)

/-- There is no hidden left recursion. -/
def Unhidden (g : Grammar) : Prop := ∀ n, ¬ g.Hides n n

theorem Hides.trans {k m n : Nat} (h : g.Hides k m) (h' : g.Hides m n) : g.Hides k n := by
  obtain ⟨left, right, hne, hleft, hrw⟩ := h
  obtain ⟨left', right', _, hleft', hrw'⟩ := h'
  refine ⟨left ++ left', right' ++ right, by simp [hne], hleft.append hleft', ?_⟩
  have hinner := hrw'.context left right
  simp only [List.append_assoc, List.cons_append, List.nil_append] at hinner ⊢
  exact Relation.TransGen.trans hrw hinner

/-- How many nonterminals hide a nonterminal. -/
noncomputable def hiddenRank (g : Grammar) (n : Nat) : Nat :=
  rank (fun m k => g.Hides k m) g.nonterminalCount n

theorem hiddenRank_lt (hh : g.Unhidden) {m n : Nat} (hm : m < g.nonterminalCount)
    (h : g.Hides m n) : g.hiddenRank m < g.hiddenRank n := by
  refine rank_lt (r := fun m k => g.Hides k m) ?_ hh hm h
  intro a b c hab hbc
  exact hbc.trans hab

/-- What a nonterminal leads to comes first in something that it derives. -/
theorem derives_of_leads {m n : Nat} (h : Relation.ReflTransGen g.Leads m n) :
    ∃ right, g.Derives [.nonterminal m] (.nonterminal n :: right) := by
  induction h with
  | refl => exact ⟨[], .refl⟩
  | tail _ hstep ih =>
    obtain ⟨right, hd⟩ := ih
    obtain ⟨i, rfl, hnext⟩ := hstep
    obtain ⟨rest, hrhs⟩ := rhs_of_next hnext
    have hprod := (Rewrites.of_production (prod_lt_of_next hnext)).context [] right
    rw [hrhs] at hprod
    exact ⟨rest ++ right, hd.trans (by simpa using hprod.to_reflTransGen)⟩

/-- An item hides what the nonterminal behind its dot leads to, if all before the dot vanishes. -/
theorem hides_of_item {j e m n : Nat} (hnext : g.next ⟨j, e⟩ = some (.nonterminal m))
    (hlead : Relation.ReflTransGen g.Leads m n) (he : 0 < e)
    (hv : ∀ x ∈ (g.production j).rhs.take e, g.Derives [x] []) :
    g.Hides (g.production j).lhs n := by
  have hget : (g.production j).rhs[e]? = some (.nonterminal m) := hnext
  obtain ⟨hlt, helem⟩ := List.getElem?_eq_some_iff.mp hget
  obtain ⟨right, hright⟩ := derives_of_leads hlead
  refine ⟨(g.production j).rhs.take e, right ++ (g.production j).rhs.drop (e + 1), ?_,
    .vanish hv, ?_⟩
  · intro hnil
    have hlen := congrArg List.length hnil
    simp only [List.length_take, List.length_nil] at hlen
    omega
  · have hprod := Rewrites.of_production (prod_lt_of_next hnext)
    have hinner := hright.context ((g.production j).rhs.take e) ((g.production j).rhs.drop (e + 1))
    have hsplit : (g.production j).rhs.take e ++ [.nonterminal m] ++
        (g.production j).rhs.drop (e + 1) = (g.production j).rhs := by
      rw [← helem, List.append_assoc, List.singleton_append, List.getElem_cons_drop,
        List.take_append_drop]
    rw [hsplit] at hinner
    rw [List.append_assoc, List.cons_append] at hinner
    exact Relation.TransGen.trans_left hprod hinner

section Runs

variable (hw : g.WellFormed) (hr : g.Unreserved)

include hw hr

/-- Above the first state, the dot of a kernel item is behind some symbol. -/
theorem dot_pos_of_path {states : List Nat} {x : Symbol} {xs : List Symbol}
    (h : g.survey.automaton.Path states (x :: xs)) {i : Item}
    (hi : i ∈ g.kernelAt (states.headD 0)) : 0 < i.dot := by
  cases h with
  | push _ he =>
    obtain ⟨j, _, _, rfl⟩ := (mem_kernelAt_of_step hw hr he).mp hi
    exact Nat.succ_pos _

/-- The dot of an item of the top state is within its production. -/
theorem dot_le_of_path {states : List Nat} {xs : List Symbol}
    (h : g.survey.automaton.Path states xs) {i d : Nat}
    (hi : ⟨i, d⟩ ∈ g.survey.closure (g.kernelAt (states.headD 0))) :
    d ≤ (g.production i).rhs.length ∧ d ≤ g.width := by
  obtain ⟨hle, htake, _⟩ := pop hw hr h hi
  have hlen := congrArg List.length htake
  simp only [List.length_take, List.length_reverse] at hlen
  have hwidth : (g.production i).rhs.length ≤ g.width :=
    rhs_length_le_width (prod_lt_of_mem_closure hw hr hi)
  omega

/-- Symbols that vanish in a row on top of the stack: below those that an item of the top state has
read there is an item that hides it, so there are only as many as the nonterminals that hide the
item's own. -/
theorem vanishing_run_le (hh : g.Unhidden) {i d : Nat} {states : List Nat} {xs : List Symbol}
    (hp : g.survey.automaton.Path states xs)
    (hi : ⟨i, d⟩ ∈ g.survey.closure (g.kernelAt (states.headD 0))) {n : Nat} (hn : n ≤ xs.length)
    (hv : ∀ x ∈ xs.take n, g.Derives [x] []) :
    n ≤ g.width * (g.hiddenRank (g.production i).lhs + 2) := by
  induction hrank : g.hiddenRank (g.production i).lhs using Nat.strong_induction_on
    generalizing i d states xs n with
  | _ rank ih =>
    subst hrank
    obtain ⟨_, hdw⟩ := dot_le_of_path hw hr hp hi
    have htwice : 2 * g.width ≤ g.width * (g.hiddenRank (g.production i).lhs + 2) := by
      rw [Nat.mul_comm 2]
      exact Nat.mul_le_mul_left _ (Nat.le_add_left _ _)
    by_cases hnd : n ≤ d
    · omega
    · obtain ⟨_, _, hzero⟩ := pop hw hr hp hi
      have hdrop := hp.drop (d := d) (by omega)
      -- The stack goes on below what the item has read, so the item was added by a closure there.
      obtain ⟨x, rest, hrest⟩ : ∃ x rest, xs.drop d = x :: rest :=
        List.exists_cons_of_length_pos (by rw [List.length_drop]; omega)
      have hpos {k : Item} (hk : k ∈ g.kernelAt ((states.drop d).headD 0)) : 0 < k.dot :=
        dot_pos_of_path hw hr (hrest ▸ hdrop) hk
      rcases (mem_closure hw).mp hzero with hk | ⟨_, _, hexp⟩
      · exact absurd (hpos hk) (Nat.lt_irrefl 0)
      obtain ⟨⟨j, e⟩, hj, m, hnext, hcone⟩ := mem_expanded.mp hexp
      have hlead := (mem_cones hw (lt_count_of_next hw hnext)).mp hcone
      have hjc := (mem_closure hw).mpr (Or.inl hj)
      obtain ⟨_, hew⟩ := dot_le_of_path hw hr hdrop hjc
      have hbelow (k : Nat) (hk : d + k ≤ n) (x : Symbol) (hx : x ∈ (xs.drop d).take k) :
          g.Derives [x] [] := by
        rw [List.take_drop] at hx
        exact hv x (List.take_subset_take_left _ hk (List.mem_of_mem_drop hx))
      by_cases hne : n - d ≤ e
      · omega
      · obtain ⟨_, htake, _⟩ := pop hw hr hdrop hjc
        have hread (x : Symbol) (hx : x ∈ (g.production j).rhs.take e) : g.Derives [x] [] := by
          rw [← List.mem_reverse, ← htake] at hx
          exact hbelow e (by omega) x hx
        have hhides := hides_of_item hnext hlead (hpos hj) hread
        have hlt : g.hiddenRank (g.production j).lhs < g.hiddenRank (g.production i).lhs :=
          hiddenRank_lt hh (hw.lhs_lt j (prod_lt_of_next hnext)) hhides
        have hrest := ih _ hlt hdrop hjc (n := n - d) (by rw [List.length_drop]; omega)
          (hbelow (n - d) (by omega)) rfl
        have hmul : g.width * (g.hiddenRank (g.production i).lhs + 2) =
            g.width * (g.hiddenRank (g.production i).lhs + 1) + g.width := by ring
        have hmono : g.width * (g.hiddenRank (g.production j).lhs + 2) ≤
            g.width * (g.hiddenRank (g.production i).lhs + 1) :=
          Nat.mul_le_mul_left _ (by omega)
        omega

/-- Trees without leaves in a row on top of a stack. -/
theorem vanishing_size_le (ha : g.Acyclic) (hh : g.Unhidden) {states : List Nat}
    (left ts : List Tree)
    (hp : g.survey.automaton.Path states ((left ++ ts).map (Tree.root g)))
    (hv : ∀ t ∈ left, t.Valid g) (hy : ∀ t ∈ left, t.yield = []) :
    (left.map Tree.size).sum ≤ g.growth := by
  have hlen : left.length ≤ g.width * (g.nonterminalCount + 2) := by
    cases left with
    | nil => exact Nat.zero_le _
    | cons t left =>
      obtain ⟨⟨i, d⟩, hi⟩ : ∃ i, i ∈ g.kernelAt (states.headD 0) := by
        cases hp with
        | push _ he =>
          obtain ⟨j, hj, hnext⟩ := exists_item_of_step hw hr he
          exact ⟨_, (mem_kernelAt_of_step hw hr he).mpr ⟨j, hj, hnext, rfl⟩⟩
      have hrun := vanishing_run_le hw hr hh hp ((mem_closure hw).mpr (Or.inl hi))
        (n := (t :: left).length) (by simp) (by
          intro x hx
          rw [List.map_append, List.take_left' (List.length_map _)] at hx
          obtain ⟨t', ht', rfl⟩ := List.mem_map.mp hx
          exact (hv t' ht').vanish (hy t' ht'))
      refine hrun.trans (Nat.mul_le_mul_left _ ?_)
      exact Nat.add_le_add_right (rank_le _ _ _) 2
  have hsum := (forest_size_le left (c := 0)
    (fun t ht hy => (hv t ht).size_le_vanishingSize hw ha hy)
    (fun t ht hne => absurd (hy t ht) hne)).1
  calc (left.map Tree.size).sum ≤ left.length * g.vanishingSize := by simpa using hsum
    _ ≤ g.width * (g.nonterminalCount + 2) * g.vanishingSize := Nat.mul_le_mul_right _ hlen
    _ = (g.nonterminalCount + 2) * (g.width * g.vanishingSize) := by ring
    _ ≤ g.growth := Nat.mul_le_mul_left _ (Nat.le_succ _)

/-- The trees on a stack are at most as large as the number of their leaves allows. -/
theorem stack_size_le (ha : g.Acyclic) (hh : g.Unhidden) {states : List Nat} {ts : List Tree}
    (hp : g.survey.automaton.Path states (ts.map (Tree.root g))) (hv : ∀ t ∈ ts, t.Valid g) :
    (ts.map Tree.size).sum ≤ (3 * (ts.flatMap Tree.yield).length + 1) * g.growth := by
  induction hn : ts.length using Nat.strong_induction_on generalizing states ts with
  | _ n ih =>
    subst hn
    by_cases hy : ts.flatMap Tree.yield = []
    · have hall := vanishing_size_le hw hr ha hh ts [] (by simpa using hp) hv
        (List.flatMap_eq_nil_iff.mp hy)
      simpa [hy] using hall
    · -- The trees above the first one with leaves, that tree, and the stack below it.
      obtain ⟨left, t, right, rfl, hleft, ht⟩ := Tree.exists_first_with_leaves hy
      have htop := vanishing_size_le hw hr ha hh left (t :: right) hp
        (fun t' ht' => hv t' (by simp [ht'])) hleft
      have hsize := (hv t (by simp)).size_le_leaves hw ha ht
      have hdrop := hp.drop (d := left.length + 1) (by simp)
      have hsplit : (left ++ t :: right).drop (left.length + 1) = right := by simp
      rw [← List.map_drop, hsplit] at hdrop
      have hbelow := ih right.length (by simp; omega) hdrop
        (fun t' ht' => hv t' (by simp [ht'])) rfl
      have hleaf : 1 * g.growth ≤ t.yield.length * g.growth :=
        Nat.mul_le_mul_right _ (List.length_pos_iff.mpr ht)
      have hcount : (3 * (t.yield.length + (right.flatMap Tree.yield).length) + 1) * g.growth =
          3 * (t.yield.length * g.growth) +
            (3 * (right.flatMap Tree.yield).length + 1) * g.growth := by ring
      have htwo : 2 * t.yield.length * g.growth = 2 * (t.yield.length * g.growth) := by ring
      simp only [List.map_append, List.map_cons, List.sum_append, List.sum_cons,
        List.flatMap_append, List.flatMap_cons, List.flatMap_eq_nil_iff.mpr hleft,
        List.nil_append, List.length_append, hcount]
      omega

end Runs

end ObjectPascal.Grammar

/-!
Rankings of the symbols of a grammar. If each right-hand side ranks no higher than its left-hand
side as far as the symbols before vanish, and lower wherever something vanishes before it or all
behind it does, then no nonterminal derives itself and none is hidden behind itself. What vanishes
may be estimated too high.
-/

namespace ObjectPascal.Grammar

/-- The symbols up to the first that does not vanish rank at most `top`, and below `top` behind
others or before a rest that vanishes. The flag tells whether no symbol came before. -/
def Descends {α : Type} (vanishes : α → Bool) (rank : α → Nat) (top : Nat) : Bool → List α → Bool
  | _, [] => true
  | first, x :: xs =>
    decide (rank x ≤ top) && (first && !xs.all vanishes || decide (rank x < top)) &&
      (!vanishes x || Descends vanishes rank top false xs)

theorem all_congr {α β : Type} {p : α → Bool} {q : β → Bool} {xs : List α} {ys : List β}
    (h : List.Forall₂ (fun x y => p x = q y) xs ys) : xs.all p = ys.all q := by
  induction h with
  | nil => rfl
  | cons hxy _ ih => rw [List.all_cons, List.all_cons, hxy, ih]

/-- Only ranks and what vanishes matter. -/
theorem Descends.congr {α β : Type} {vanishes : α → Bool} {vanishes' : β → Bool} {rank : α → Nat}
    {rank' : β → Nat} {xs : List α} {ys : List β}
    (h : List.Forall₂ (fun x y => vanishes x = vanishes' y ∧ rank x = rank' y) xs ys) (top : Nat)
    (first : Bool) :
    Descends vanishes rank top first xs = Descends vanishes' rank' top first ys := by
  induction h generalizing first with
  | nil => rfl
  | cons hxy hrest ih =>
    rw [Descends, Descends, hxy.1, hxy.2, all_congr (hrest.imp fun _ _ => And.left), ih]

/-- What the check says of each symbol behind symbols that vanish. -/
theorem Descends.spec {α : Type} {vanishes : α → Bool} {rank : α → Nat} {top : Nat} {first : Bool}
    {left right : List α} {x : α} (h : Descends vanishes rank top first (left ++ x :: right) = true)
    (hleft : left.all vanishes = true) :
    rank x ≤ top ∧
      (first = false ∨ left ≠ [] ∨ right.all vanishes = true → rank x < top) := by
  induction left generalizing first with
  | nil =>
    simp only [List.nil_append, Descends, Bool.and_eq_true, Bool.or_eq_true, decide_eq_true_eq,
      Bool.not_eq_true'] at h
    obtain ⟨⟨hle, hlt⟩, _⟩ := h
    refine ⟨hle, ?_⟩
    rintro (rfl | hne | hright)
    · simpa using hlt
    · exact absurd rfl hne
    · simpa [hright] using hlt
  | cons y left ih =>
    simp only [List.cons_append, Descends, Bool.and_eq_true, Bool.or_eq_true,
      Bool.not_eq_true'] at h
    rw [List.all_cons, Bool.and_eq_true] at hleft
    have hrest := h.2.resolve_left (by simp [hleft.1])
    obtain ⟨hle, hlt⟩ := ih hrest hleft.2
    exact ⟨hle, fun _ => hlt (Or.inl rfl)⟩

/-- A place in two lists in a row is in one of them. -/
theorem place_of_append {α : Type} {u v left right : List α} {x : α}
    (h : u ++ v = left ++ x :: right) :
    (∃ m, u = left ++ x :: m ∧ right = m ++ v) ∨ ∃ m, left = u ++ m ∧ v = m ++ x :: right := by
  rcases List.append_eq_append_iff.mp h with ⟨m, hleft, hv⟩ | ⟨m, hu, hright⟩
  · exact Or.inr ⟨m, hleft, hv⟩
  · cases m with
    | nil => exact Or.inr ⟨[], by simpa using hu.symm, by simpa using hright.symm⟩
    | cons y m =>
      obtain ⟨rfl, rfl⟩ := List.cons.inj hright
      exact Or.inl ⟨m, hu, rfl⟩

variable {g : Grammar} {vanishes : Symbol → Bool} {rank : Symbol → Nat}

/-- A ranking of the symbols by which every production descends. -/
structure Ranked (g : Grammar) (vanishes : Symbol → Bool) (rank : Symbol → Nat) : Prop where
  vanish : ∀ i < g.productions.size, (g.production i).rhs.all vanishes = true →
    vanishes (.nonterminal (g.production i).lhs) = true
  descends : ∀ i < g.productions.size, Descends vanishes rank
    (rank (.nonterminal (g.production i).lhs)) true (g.production i).rhs = true

/-- A form that a symbol derives: what is behind symbols that vanish ranks no higher, and lower if
something is before it, or if the rest vanishes too and the form is not the symbol itself. -/
def Below (vanishes : Symbol → Bool) (rank : Symbol → Nat) (start : Symbol) (xs : List Symbol) :
    Prop :=
  ∀ left x right, xs = left ++ x :: right → left.all vanishes = true →
    rank x ≤ rank start ∧
      (left ≠ [] ∨ (right.all vanishes = true ∧ xs ≠ [start]) → rank x < rank start)

namespace Ranked

variable (h : Ranked g vanishes rank)

include h

/-- All that derives nothing is taken to vanish. -/
theorem all_vanish {xs : List Symbol} (hd : g.Derives xs []) : xs.all vanishes = true := by
  induction hd using Relation.ReflTransGen.head_induction_on with
  | refl => rfl
  | head hstep _ ih =>
    obtain ⟨i, hi, u, v, rfl, rfl⟩ := hstep
    simp only [List.all_append, List.all_cons, Bool.and_eq_true] at ih ⊢
    exact ⟨ih.1.1, h.vanish i hi ih.1.2, ih.2⟩

omit h in
theorem below_refl (start : Symbol) : Below vanishes rank start [start] := by
  intro left x right heq hleft
  rcases List.cons_eq_append_iff.mp heq with ⟨rfl, hx⟩ | ⟨m, rfl, hm⟩
  · obtain ⟨rfl, rfl⟩ := List.cons.inj hx
    exact ⟨Nat.le_refl _, by simp⟩
  · simp at hm

/-- A replacement goes below, also where nothing is before and the rest vanishes. -/
theorem below_of_produces {start : Symbol} {xs ys : List Symbol}
    (hb : Below vanishes rank start xs) (hp : g.Produces xs ys) {left right : List Symbol}
    {x : Symbol} (hy : ys = left ++ x :: right) (hleft : left.all vanishes = true) :
    rank x ≤ rank start ∧
      (left ≠ [] ∨ right.all vanishes = true → rank x < rank start) := by
  obtain ⟨i, hi, u, v, rfl, rfl⟩ := hp
  rcases place_of_append hy with ⟨m, hm, rfl⟩ | ⟨m, rfl, rfl⟩
  · rcases place_of_append hm with ⟨m, rfl, rfl⟩ | ⟨m, rfl, hrhs⟩
    · -- The place is before the replacement, and what vanishes behind it did so before.
      obtain ⟨hle, hlt⟩ := hb left x (m ++ .nonterminal (g.production i).lhs :: v) (by simp) hleft
      refine ⟨hle, fun hcase => hlt (hcase.imp id fun hright => ⟨?_, fun heq => ?_⟩)⟩
      · simp only [List.all_append, List.all_cons, Bool.and_eq_true] at hright ⊢
        exact ⟨hright.1.1, h.vanish i hi hright.1.2, hright.2⟩
      · have hlen := congrArg List.length heq
        simp only [List.length_append, List.length_cons, List.length_nil] at hlen
        omega
    · -- The place is in the right-hand side, which descends from the symbol replaced.
      rw [List.all_append, Bool.and_eq_true] at hleft
      obtain ⟨hle, hlt⟩ := hb u (.nonterminal (g.production i).lhs) v rfl hleft.1
      have hdesc := h.descends i hi
      rw [hrhs] at hdesc
      obtain ⟨hle', hlt'⟩ := Descends.spec hdesc hleft.2
      refine ⟨hle'.trans hle, ?_⟩
      rintro (hne | hright)
      · by_cases hu : u = []
        · subst hu
          exact (hlt' (Or.inr (Or.inl hne))).trans_le hle
        · exact hle'.trans_lt (hlt (Or.inl hu))
      · rw [List.all_append, Bool.and_eq_true] at hright
        exact (hlt' (Or.inr (Or.inr hright.1))).trans_le hle
  · -- The place is behind the replacement, and the symbol replaced vanishes before it.
    simp only [List.all_append, Bool.and_eq_true] at hleft
    have hlt := (hb (u ++ .nonterminal (g.production i).lhs :: m) x right (by simp) (by
      simp only [List.all_append, List.all_cons, Bool.and_eq_true]
      exact ⟨hleft.1.1, h.vanish i hi hleft.1.2, hleft.2⟩)).2 (Or.inl (by simp))
    exact ⟨hlt.le, fun _ => hlt⟩

theorem below_of_derives {start : Symbol} {xs : List Symbol} (hd : g.Derives [start] xs) :
    Below vanishes rank start xs := by
  induction hd with
  | refl => exact below_refl start
  | tail _ hstep ih =>
    intro left x right heq hleft
    obtain ⟨hle, hlt⟩ := h.below_of_produces ih hstep heq hleft
    exact ⟨hle, fun hcase => hlt (hcase.imp id And.left)⟩

theorem rank_lt_of_rewrites {start x : Symbol} (left right : List Symbol)
    (hr : g.Rewrites [start] (left ++ x :: right)) (hleft : left.all vanishes = true)
    (hcase : left ≠ [] ∨ right.all vanishes = true) : rank x < rank start := by
  obtain ⟨xs, hd, hstep⟩ := Relation.TransGen.tail'_iff.mp hr
  exact (h.below_of_produces (h.below_of_derives hd) hstep rfl hleft).2 hcase

theorem acyclic : g.Acyclic := fun _ hr =>
  Nat.lt_irrefl _ (h.rank_lt_of_rewrites [] [] hr rfl (Or.inr rfl))

theorem unhidden : g.Unhidden := by
  rintro n ⟨left, right, hne, hleft, hr⟩
  exact Nat.lt_irrefl _ (h.rank_lt_of_rewrites left right hr (h.all_vanish hleft) (Or.inl hne))

end Ranked

end ObjectPascal.Grammar
