import Mathlib.Data.List.Basic
import Mathlib.Logic.Relation
import Mathlib.Order.Basic
import Mathlib.Data.Nat.Basic
import ObjectPascal.Grammar.Basic

/-!
What a grammar derives. A grammar made by the operations on grammars names only nonterminals that it
has; a derivation rewrites one nonterminal at a time, a rightmost one always the last; and every
derivation of tokens is the frontier of parse trees.
-/

namespace ObjectPascal.Grammar

/-- The grammars that the operations on grammars make. -/
inductive Built : Grammar → Prop
  | empty : Built {}
  | declare {g : Grammar} (h : Built g) (assoc : Associativity) (tokens : List Kind) :
      Built (g.declare assoc tokens)
  | start {g : Grammar} (h : Built g) (name : String) : Built (g.start name)
  | rule {g : Grammar} (h : Built g) (lhs : String) (rhs : List Part) (prec : Option Kind) :
      Built (g.rule lhs rhs prec)

/-- All nonterminals have a number below their count, and production 0 derives the goal from at
most one nonterminal. -/
structure WellFormed (g : Grammar) : Prop where
  size_pos : 0 < g.productions.size
  lhs_lt : ∀ i < g.productions.size, (g.production i).lhs < g.nonterminalCount
  rhs_lt : ∀ i < g.productions.size, ∀ n,
    .nonterminal n ∈ (g.production i).rhs → n < g.nonterminalCount
  goal_lhs : (g.production 0).lhs = 0
  goal_rhs : (g.production 0).rhs = [] ∨ ∃ n, (g.production 0).rhs = [.nonterminal n]

/-- No rule derives the goal, and neither a rule nor the start symbol uses it. -/
structure Unreserved (g : Grammar) : Prop where
  lhs_ne : ∀ i < g.productions.size, 0 < i → (g.production i).lhs ≠ 0
  notMem_rhs : ∀ i < g.productions.size, .nonterminal 0 ∉ (g.production i).rhs

/-- No rule uses the end of the input as a token. -/
def EndFree (g : Grammar) : Prop :=
  ∀ i < g.productions.size, .terminal .eof ∉ (g.production i).rhs

theorem production_eq_getElem {g : Grammar} {i : Nat} (hi : i < g.productions.size) :
    g.production i = g.productions[i] := by
  simp [production, Array.getD, hi]

/-- There is no production with a number that is not in use, not even an empty one of the goal. -/
theorem production_of_size_le {g : Grammar} {i : Nat} (hi : g.productions.size ≤ i) :
    g.production i = ⟨0, [], 0⟩ := by
  simp only [production, Array.getD, Nat.not_lt.mpr hi, ↓reduceDIte]
  rfl

/-- One production more leaves the others as they are. -/
theorem production_push {g g' : Grammar} {p : Production}
    (h : g'.productions = g.productions.push p) :
    (∀ i < g.productions.size, g'.production i = g.production i) ∧
      g'.production g.productions.size = p := by
  have hsize : g'.productions.size = g.productions.size + 1 := by rw [h, Array.size_push]
  refine ⟨fun i hi => ?_, ?_⟩
  · rw [production_eq_getElem (by omega), production_eq_getElem hi]
    simp only [h, Array.getElem_push_lt hi]
  · rw [production_eq_getElem (by omega)]
    simp only [h, Array.getElem_push_eq]

section Operations

variable (g : Grammar)

theorem intern_productions (name : String) : (g.intern name).1.productions = g.productions := by
  unfold intern
  split <;> rfl

theorem intern_count_le (name : String) :
    g.nonterminalCount ≤ (g.intern name).1.nonterminalCount := by
  unfold intern nonterminalCount
  split <;> simp

theorem intern_lt (name : String) : (g.intern name).2 < (g.intern name).1.nonterminalCount := by
  unfold intern nonterminalCount
  split
  · rename_i n hn
    exact (Array.findIdx?_eq_some_iff_findIdx_eq.mp hn).1
  · simp

/-- Naming the parts of a rule adds no production, keeps the numbers in use and gives only numbers
in use. -/
theorem symbolsOf_spec (ps : List Part) :
    (g.symbolsOf ps).1.productions = g.productions ∧
      g.nonterminalCount ≤ (g.symbolsOf ps).1.nonterminalCount ∧
      ∀ n, .nonterminal n ∈ (g.symbolsOf ps).2 → n < (g.symbolsOf ps).1.nonterminalCount := by
  induction ps generalizing g with
  | nil => simp [symbolsOf]
  | cons p ps ih =>
    have hp : (g.symbolOf p).1.productions = g.productions ∧
        g.nonterminalCount ≤ (g.symbolOf p).1.nonterminalCount ∧
        ∀ n, .nonterminal n = (g.symbolOf p).2 → n < (g.symbolOf p).1.nonterminalCount := by
      cases p with
      | token k => simp [symbolOf]
      | name s =>
        refine ⟨g.intern_productions s, g.intern_count_le s, ?_⟩
        intro n hn
        obtain rfl : n = (g.intern s).2 := Symbol.nonterminal.inj hn
        exact g.intern_lt s
    obtain ⟨hprods, hcount, hlt⟩ := ih (g.symbolOf p).1
    simp only [symbolsOf]
    refine ⟨hprods.trans hp.1, hp.2.1.trans hcount, ?_⟩
    intro n hn
    rcases List.mem_cons.mp hn with hn | hn
    · exact (hp.2.2 n hn).trans_le hcount
    · exact hlt n hn

theorem intern_levels (name : String) : (g.intern name).1.levels = g.levels := by
  unfold intern
  split <;> rfl

theorem symbolOf_levels (p : Part) : (g.symbolOf p).1.levels = g.levels := by
  cases p with
  | token k => rfl
  | name s => exact g.intern_levels s

theorem symbolsOf_levels (ps : List Part) : (g.symbolsOf ps).1.levels = g.levels := by
  induction ps generalizing g with
  | nil => rfl
  | cons p ps ih => exact (ih _).trans (g.symbolOf_levels p)

end Operations

theorem WellFormed.empty : WellFormed {} := by
  refine ⟨by decide, by decide, ?_, rfl, Or.inl rfl⟩
  intro i hi n hn
  obtain rfl : i = 0 := Nat.lt_one_iff.mp hi
  cases hn

theorem WellFormed.declare {g : Grammar} (h : g.WellFormed) (assoc : Associativity)
    (tokens : List Kind) : (g.declare assoc tokens).WellFormed :=
  ⟨h.size_pos, h.lhs_lt, h.rhs_lt, h.goal_lhs, h.goal_rhs⟩

theorem WellFormed.start {g : Grammar} (h : g.WellFormed) (name : String) :
    (g.start name).WellFormed := by
  have hprods : (g.start name).productions =
      g.productions.modify 0 fun p => { p with rhs := [.nonterminal (g.intern name).2] } := by
    simp only [Grammar.start, intern_productions]
  have hcount : g.nonterminalCount ≤ (g.start name).nonterminalCount := g.intern_count_le name
  have hsize : (g.start name).productions.size = g.productions.size := by
    rw [hprods, Array.size_modify]
  have hzero : (g.start name).production 0 =
      { g.production 0 with rhs := [.nonterminal (g.intern name).2] } := by
    rw [production_eq_getElem (by rw [hsize]; exact h.size_pos), production_eq_getElem h.size_pos]
    simp only [hprods, Array.getElem_modify, ↓reduceIte]
  -- Only the right-hand side of production 0 is replaced.
  have hother (i : Nat) (hi : i < g.productions.size) (hne : i ≠ 0) :
      (g.start name).production i = g.production i := by
    rw [production_eq_getElem (by rw [hsize]; exact hi), production_eq_getElem hi]
    simp only [hprods, Array.getElem_modify, Ne.symm hne, ↓reduceIte]
  refine ⟨by rw [hsize]; exact h.size_pos, ?_, ?_, by rw [hzero]; exact h.goal_lhs, ?_⟩
  · intro i hi
    rw [hsize] at hi
    have hlt := (h.lhs_lt i hi).trans_le hcount
    by_cases hne : i = 0
    · subst hne
      rw [hzero]
      exact hlt
    · rw [hother i hi hne]
      exact hlt
  · intro i hi n hn
    rw [hsize] at hi
    by_cases hne : i = 0
    · subst hne
      rw [hzero] at hn
      obtain rfl : n = (g.intern name).2 := by simpa using hn
      exact g.intern_lt name
    · rw [hother i hi hne] at hn
      exact (h.rhs_lt i hi n hn).trans_le hcount
  · rw [hzero]
    exact Or.inr ⟨_, rfl⟩

theorem WellFormed.rule {g : Grammar} (h : g.WellFormed) (lhs : String) (rhs : List Part)
    (prec : Option Kind) : (g.rule lhs rhs prec).WellFormed := by
  obtain ⟨hsame, hgrow, hlt⟩ := (g.intern lhs).1.symbolsOf_spec rhs
  rw [intern_productions] at hsame
  have hcount : g.nonterminalCount ≤ (g.rule lhs rhs prec).nonterminalCount :=
    (g.intern_count_le lhs).trans hgrow
  obtain ⟨level, hprods⟩ : ∃ level, (g.rule lhs rhs prec).productions =
      g.productions.push ⟨(g.intern lhs).2, ((g.intern lhs).1.symbolsOf rhs).2, level⟩ :=
    ⟨_, by simp only [Grammar.rule, hsame]; rfl⟩
  have hsize : (g.rule lhs rhs prec).productions.size = g.productions.size + 1 := by
    rw [hprods, Array.size_push]
  obtain ⟨hold, hnew⟩ := production_push hprods
  refine ⟨by omega, ?_, ?_, ?_, ?_⟩
  · intro i hi
    rcases Nat.lt_succ_iff_lt_or_eq.mp (hsize ▸ hi) with hi | rfl
    · rw [hold i hi]
      exact (h.lhs_lt i hi).trans_le hcount
    · rw [hnew]
      exact (g.intern_lt lhs).trans_le hgrow
  · intro i hi n hn
    rcases Nat.lt_succ_iff_lt_or_eq.mp (hsize ▸ hi) with hi | rfl
    · rw [hold i hi] at hn
      exact (h.rhs_lt i hi n hn).trans_le hcount
    · rw [hnew] at hn
      exact hlt n hn
  · rw [hold 0 h.size_pos]
    exact h.goal_lhs
  · rw [hold 0 h.size_pos]
    exact h.goal_rhs

theorem Built.wellFormed {g : Grammar} (h : g.Built) : g.WellFormed := by
  induction h with
  | empty => exact .empty
  | declare _ assoc tokens ih => exact ih.declare assoc tokens
  | start _ name ih => exact ih.start name
  | rule _ lhs rhs prec ih => exact ih.rule lhs rhs prec

/-- One nonterminal is replaced by the right-hand side of one of its productions. -/
def Produces (g : Grammar) (a b : List Symbol) : Prop :=
  ∃ i < g.productions.size, ∃ u v, a = u ++ .nonterminal (g.production i).lhs :: v ∧
    b = u ++ (g.production i).rhs ++ v

/-- Any number of replacements. -/
def Derives (g : Grammar) : List Symbol → List Symbol → Prop := Relation.ReflTransGen g.Produces

/-- A list of kinds that the start symbol derives. The start symbol is all that stands on the right
of production 0. -/
def Sentence (g : Grammar) (w : List Kind) : Prop :=
  g.Derives (g.production 0).rhs (w.map .terminal)

/-- A derivation that always replaces the last nonterminal, with the productions it uses in
order. -/
inductive Rightmost (g : Grammar) : List Symbol → List Nat → List Symbol → Prop
  | refl (a : List Symbol) : Rightmost g a [] a
  | step {i : Nat} {u : List Symbol} {w : List Kind} {is : List Nat} {b : List Symbol}
      (hi : i < g.productions.size)
      (h : Rightmost g (u ++ (g.production i).rhs ++ w.map .terminal) is b) :
      Rightmost g (u ++ .nonterminal (g.production i).lhs :: w.map .terminal) (i :: is) b

/-- Terminals behind a rightmost derivation do not disturb it. -/
theorem Rightmost.append_terminals {g : Grammar} {a b : List Symbol} {is : List Nat}
    (h : g.Rightmost a is b) (v : List Kind) :
    g.Rightmost (a ++ v.map .terminal) is (b ++ v.map .terminal) := by
  induction h with
  | refl a => exact .refl _
  | @step i u w is b hi _ ih =>
    have hsplit : u ++ Symbol.nonterminal (g.production i).lhs :: w.map .terminal ++
        v.map .terminal = u ++ .nonterminal (g.production i).lhs :: (w ++ v).map .terminal := by
      simp
    rw [hsplit]
    apply Rightmost.step hi
    simpa using ih

theorem Rightmost.derives {g : Grammar} {a b : List Symbol} {is : List Nat}
    (h : g.Rightmost a is b) : g.Derives a b := by
  induction h with
  | refl a => exact .refl
  | @step i u w is b hi _ ih => exact .head ⟨i, hi, u, _, rfl, rfl⟩ ih

/-- A nonterminal that derives anything but itself is replaced first. -/
theorem Rightmost.exists_first {g : Grammar} {n : Nat} {b : List Symbol} {is : List Nat}
    (h : g.Rightmost [.nonterminal n] is b) (hb : b ≠ [.nonterminal n]) :
    ∃ i ∈ is, i < g.productions.size ∧ (g.production i).lhs = n := by
  generalize ha : [Symbol.nonterminal n] = a at h hb
  cases h with
  | refl => exact absurd rfl hb
  | @step i u w is _ hi _ =>
    refine ⟨i, List.mem_cons_self, hi, ?_⟩
    have hmem : .nonterminal (g.production i).lhs ∈ [Symbol.nonterminal n] := by
      rw [ha]
      exact List.mem_append_right _ List.mem_cons_self
    exact Symbol.nonterminal.inj (List.mem_singleton.mp hmem)

/-- A parse tree: tokens at its leaves, productions at its nodes. -/
inductive Tree where
  | leaf (t : Token)
  | node (i : Nat) (children : List Tree)

namespace Tree

/-- The symbol that a tree is a parse of. -/
def root (g : Grammar) : Tree → Symbol
  | leaf t => .terminal t.kind
  | node i _ => .nonterminal (g.production i).lhs

/-- The tokens at the leaves from left to right. -/
def yield : Tree → List Token
  | leaf t => [t]
  | node _ children => children.flatMap yield

@[simp]
theorem yield_leaf (t : Token) : (leaf t).yield = [t] := by rw [yield]

@[simp]
theorem yield_node (i : Nat) (children : List Tree) :
    (node i children).yield = children.flatMap yield := by rw [yield]

/-- Each node stands over the right-hand side of its production. -/
inductive Valid (g : Grammar) : Tree → Prop
  | leaf (t : Token) : Valid g (leaf t)
  | node (i : Nat) (children : List Tree) (hi : i < g.productions.size)
      (hr : children.map (root g) = (g.production i).rhs) (hc : ∀ c ∈ children, Valid g c) :
      Valid g (node i children)

end Tree

/-- One replacement read backwards joins the trees over its right-hand side under a new node. -/
theorem Produces.forest {g : Grammar} {a b : List Symbol} (h : g.Produces a b) {ts : List Tree}
    (hr : ts.map (Tree.root g) = b) (hv : ∀ t ∈ ts, t.Valid g) :
    ∃ ts' : List Tree, ts'.map (Tree.root g) = a ∧ (∀ t ∈ ts', t.Valid g) ∧
      ts'.flatMap Tree.yield = ts.flatMap Tree.yield := by
  obtain ⟨i, hi, u, v, rfl, rfl⟩ := h
  obtain ⟨front, back, rfl, hfront, hback⟩ := List.map_eq_append_iff.mp hr
  obtain ⟨left, children, rfl, hleft, hchildren⟩ := List.map_eq_append_iff.mp hfront
  refine ⟨left ++ .node i children :: back, ?_, ?_, ?_⟩
  · simp only [List.map_append, List.map_cons, hleft, hback, Tree.root]
  · intro t ht
    rcases List.mem_append.mp ht with ht | ht
    · exact hv t (by simp [ht])
    · rcases List.mem_cons.mp ht with rfl | ht
      · exact .node i children hi hchildren fun c hc => hv c (by simp [hc])
      · exact hv t (by simp [ht])
  · simp

/-- What derives a list of tokens is parsed by trees with these tokens at their leaves. -/
theorem Derives.forest {g : Grammar} {a : List Symbol} {w : List Token}
    (h : g.Derives a (w.map fun t => .terminal t.kind)) :
    ∃ ts : List Tree, ts.map (Tree.root g) = a ∧ (∀ t ∈ ts, t.Valid g) ∧
      ts.flatMap Tree.yield = w := by
  induction h using Relation.ReflTransGen.head_induction_on with
  | refl =>
    refine ⟨w.map .leaf, by simp [Tree.root, Function.comp_def], ?_, by simp [List.flatMap_map]⟩
    intro t ht
    obtain ⟨token, _, rfl⟩ := List.mem_map.mp ht
    exact .leaf token
  | head hstep _ ih =>
    obtain ⟨ts, hr, hv, hy⟩ := ih
    obtain ⟨ts', hr', hv', hy'⟩ := hstep.forest hr hv
    exact ⟨ts', hr', hv', hy'.trans hy⟩

end ObjectPascal.Grammar
