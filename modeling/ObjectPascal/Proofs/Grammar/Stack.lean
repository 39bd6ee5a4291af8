import Mathlib.Data.List.Forall2
import ObjectPascal.Proofs.Grammar.Cells
import ObjectPascal.Proofs.Grammar.Runs

/-!
The stacks of the machine. The states on the stack are a path of the automaton from its first state,
spelled by the roots of the parse trees that the moves have built. An item of the top state tells
which symbols stand on top, so every reduction finds its right-hand side there, whatever the token
ahead, and the state below it has a step over its left-hand side.
-/

namespace ObjectPascal.Grammar

variable {V G M : Type} {g : Grammar} {t : Tables} {s : Semantics V G M}

/-- The states of a stack, the top first, with the symbols of the steps that lead from each to the
one above it. -/
inductive Automaton.Path (a : Automaton) : List Nat → List Symbol → Prop
  | bottom : Path a [0] []
  | push {p : Nat} {ps : List Nat} {xs : List Symbol} {x : Symbol} {q : Nat}
      (h : Path a (p :: ps) xs) (he : (x, q) ∈ a.edges.getD p []) :
      Path a (q :: p :: ps) (x :: xs)

namespace Automaton.Path

variable {a : Automaton} {states : List Nat} {xs : List Symbol}

theorem length (h : a.Path states xs) : states.length = xs.length + 1 := by
  induction h with
  | bottom => rfl
  | push _ _ ih => simp [ih]

theorem step (h : a.Path states xs) {x : Symbol} {q : Nat}
    (he : (x, q) ∈ a.edges.getD (states.headD 0) []) : a.Path (q :: states) (x :: xs) := by
  cases h with
  | bottom => exact .push .bottom he
  | push h he' => exact .push (.push h he') he

theorem drop (h : a.Path states xs) {d : Nat} (hd : d ≤ xs.length) :
    a.Path (states.drop d) (xs.drop d) := by
  induction d generalizing states xs with
  | zero => exact h
  | succ d ih =>
    cases h with
    | bottom => cases hd
    | push h _ => exact ih h (Nat.le_of_succ_le_succ hd)

end Automaton.Path

section Pop

variable (hw : g.WellFormed) (hr : g.Unreserved)

include hw hr

theorem prod_lt_of_mem_closure {q : Nat} {i : Item} (h : i ∈ g.survey.closure (g.kernelAt q)) :
    i.prod < g.productions.size := by
  rcases (mem_closure hw).mp h with h | ⟨_, hlt, _⟩
  · exact (mem_items.mp ((isKernel_kernelAt hw hr q).sublist.subset h)).1
  · exact hlt

/-- An item of the top state tells the symbols on top of the stack: they are the part of its
production before the dot, and the state below them has the item at its beginning. -/
theorem pop {states : List Nat} {xs : List Symbol}
    (h : g.survey.automaton.Path states xs) {i d : Nat}
    (hi : ⟨i, d⟩ ∈ g.survey.closure (g.kernelAt (states.headD 0))) :
    d ≤ xs.length ∧ xs.take d = ((g.production i).rhs.take d).reverse ∧
      ⟨i, 0⟩ ∈ g.survey.closure (g.kernelAt ((states.drop d).headD 0)) := by
  induction d generalizing states xs with
  | zero => exact ⟨Nat.zero_le _, by simp, hi⟩
  | succ d ih =>
    -- What the closure adds stands at its beginning, so this item is in the kernel.
    have hkernel : ⟨i, d + 1⟩ ∈ g.kernelAt (states.headD 0) := by
      rcases (mem_closure hw).mp hi with hk | ⟨hdot, _⟩
      · exact hk
      · cases hdot
    cases h with
    | bottom =>
      rw [List.headD_cons, kernelAt_zero hw hr, List.mem_singleton] at hkernel
      cases hkernel
    | @push p ps xs x q h he =>
      obtain ⟨⟨j, e⟩, hj, hnext, heq⟩ := (mem_kernelAt_of_step hw hr he).mp hkernel
      obtain ⟨rfl, hde⟩ := Item.mk.inj heq
      obtain rfl : d = e := Nat.succ.inj hde
      obtain ⟨hlen, htake, hzero⟩ := ih h hj
      refine ⟨Nat.succ_le_succ hlen, ?_, hzero⟩
      have hx : (g.production i).rhs[d]? = some x := hnext
      rw [List.take_succ_cons, htake, List.take_add_one, hx]
      simp

/-- A production other than the first that stands at its beginning in a state has there a step over
its left-hand side. -/
theorem exists_goto {q i : Nat} (hi : i ≠ 0)
    (h : ⟨i, 0⟩ ∈ g.survey.closure (g.kernelAt q)) :
    ∃ q', (.nonterminal (g.production i).lhs, q') ∈ g.stepsAt q := by
  rcases (mem_closure hw).mp h with h | ⟨_, _, hexp⟩
  · exact absurd ((isKernel_kernelAt hw hr q).zero_of_dot _ h rfl) hi
  · obtain ⟨j, hj, hnext⟩ := (mem_expanded_iff_next hw).mp hexp
    exact exists_step hw hr hj hnext

end Pop

/-- Reductions that the tables allow on a stack with a given top, on whatever token. -/
def Tables.Reduces (t : Tables) (q i : Nat) : Prop :=
  t.defaultAt q = some i ∨ ∃ k, t.action q k = .reduce i

/-- The tables reduce by production `i` in state `q` before a token of kind `k`, by default or by
the action on that kind. -/
def Tables.Chooses (t : Tables) (q : Nat) (k : Kind) (i : Nat) : Prop :=
  t.defaultAt q = some i ∨ (t.defaultAt q = none ∧ t.action q k = .reduce i)

theorem Tables.Chooses.reduces {q i : Nat} {k : Kind} (h : t.Chooses q k i) : t.Reduces q i :=
  h.imp id fun h => ⟨k, h.2⟩

theorem Configuration.chooses_of_move {c : Configuration V G M} {i : Nat}
    (h : c.move? t = some (.reduce i)) : t.Chooses c.top c.token.kind i := by
  unfold Configuration.move? at h
  split at h
  · rename_i j hj
    obtain rfl := Move.reduce.inj (Option.some.inj h)
    exact Or.inl hj
  · rename_i hd
    split at h
    · cases h
    · split at h
      · cases Option.some.inj h
      · rename_i j hj
        obtain rfl := Move.reduce.inj (Option.some.inj h)
        exact Or.inr ⟨hd, hj⟩
      · cases h
      · cases h

theorem Configuration.reduces_of_move {c : Configuration V G M} {i : Nat}
    (h : c.move? t = some (.reduce i)) : t.Reduces c.top i :=
  (chooses_of_move h).reduces

section Reduce

variable (hw : g.WellFormed) (hr : g.Unreserved) (ht : g.tables = .ok t)

include hw hr ht

theorem Tables.Reduces.complete {q i : Nat} (h : t.Reduces q i) :
    i ≠ 0 ∧ ⟨i, (g.production i).rhs.length⟩ ∈ g.survey.closure (g.kernelAt q) := by
  obtain ⟨k, hk⟩ : ∃ k, t.action q k = .reduce i := by
    rcases h with h | h
    · exact (default_spec hw hr ht h).1
    · exact h
  have happ := action_applies hw hr ht q k
  rw [hk] at happ
  cases happ with
  | reduce hi hmem _ => exact ⟨hi, complete_of_mem_reductionsAt hw hr hmem⟩

/-- A reduction finds its right-hand side on top of the stack, and a step over its left-hand side
in the state below it. -/
theorem Tables.Reduces.finds {states : List Nat} {xs : List Symbol}
    (hp : g.survey.automaton.Path states xs) {i : Nat} (h : t.Reduces (states.headD 0) i) :
    i < g.productions.size ∧ (g.production i).rhs.length ≤ xs.length ∧
      (xs.take (g.production i).rhs.length).reverse = (g.production i).rhs ∧
      ∃ q, t.goto ((states.drop (g.production i).rhs.length).headD 0) (g.production i).lhs =
        some q := by
  obtain ⟨hi, hmem⟩ := h.complete hw hr ht
  obtain ⟨hlen, htake, hzero⟩ := pop hw hr hp hmem
  obtain ⟨q, hq⟩ := exists_goto hw hr hi hzero
  refine ⟨prod_lt_of_mem_closure hw hr hmem, hlen, ?_, q, (goto_eq_some_iff hw hr ht).mpr hq⟩
  rw [htake, List.take_length, List.reverse_reverse]

end Reduce

/-- What holds of every configuration that a run reaches: there is a stack of parse trees over the
tokens shifted so far, from which the values are computed and whose roots spell the path of the
states, and the reductions read backwards derive these tokens from the roots. -/
structure Parsing (g : Grammar) (s : Semantics V G M) (ms : List Move) (c : Configuration V G M)
    (ts : List Tree) : Prop where
  path : g.survey.automaton.Path c.states (ts.map (Tree.root g))
  valid : ∀ tree ∈ ts, tree.Valid g
  values : List.Forall₂ s.Computes ts c.values
  yield : ts.reverse.flatMap Tree.yield = shifted ms
  rightmost : g.Rightmost (ts.map (Tree.root g)).reverse (reduced ms).reverse
    ((shifted ms).map fun token => .terminal token.kind)

namespace Parsing

variable {ms : List Move} {c c' : Configuration V G M} {ts : List Tree}

theorem initial (supply : Supply) (memory : M) :
    Parsing g s [] { supply, memory } [] :=
  ⟨.bottom, by simp, .nil, rfl, .refl _⟩

theorem shift (hw : g.WellFormed) (hr : g.Unreserved) (ht : g.tables = .ok t)
    (h : Parsing g s ms c ts) {q : Nat} (hq : t.action c.top c.token.kind = .shift q)
    (hstates : c'.states = q :: c.states) (hvalues : c'.values = s.ofToken c.token :: c.values) :
    Parsing g s (ms ++ [.shift c.token]) c' (.leaf c.token :: ts) := by
  have hstep : (.terminal c.token.kind, q) ∈ g.stepsAt c.top := by
    have happ := action_applies hw hr ht c.top c.token.kind
    rw [hq] at happ
    cases happ with
    | shift hmem => exact hmem
  refine ⟨?_, ?_, ?_, ?_, ?_⟩
  · rw [hstates]
    exact h.path.step hstep
  · intro tree htree
    rcases List.mem_cons.mp htree with rfl | htree
    · exact .leaf _
    · exact h.valid tree htree
  · rw [hvalues]
    exact .cons (.leaf _) h.values
  · simp [h.yield]
  · have hr := h.rightmost.append_terminals [c.token.kind]
    simpa [Tree.root] using hr

theorem reduce (hw : g.WellFormed) (hr : g.Unreserved) (ht : g.tables = .ok t)
    (h : Parsing g s ms c ts) {i : Nat} (hi : t.Reduces c.top i) {c₁ : Configuration V G M}
    (hstates : c₁.states = c.states) (hvalues : c₁.values = c.values)
    (hstep : c₁.reduce t s i = .more c') :
    Parsing g s (ms ++ [.reduce i]) c'
      (.node i (ts.take (g.production i).rhs.length).reverse ::
        ts.drop (g.production i).rhs.length) := by
  obtain ⟨hlt, hlen, hrhs, _⟩ := Tables.Reduces.finds hw hr ht h.path hi
  obtain ⟨r, q, hvalue, hgoto, rfl⟩ := Configuration.reduce_eq_more hstep
  rw [(tables_spec ht).2.1] at hgoto ⊢
  generalize hn : (g.production i).rhs.length = n at *
  rw [← List.map_take, ← List.map_reverse] at hrhs
  -- The trees of the right-hand side become the children of one tree, in their order in the input.
  refine ⟨?_, ?_, ?_, ?_, ?_⟩
  · have hdrop := h.path.drop hlen
    rw [← List.map_drop] at hdrop
    simp only [hstates, List.map_cons, Tree.root] at hgoto ⊢
    exact hdrop.step ((goto_eq_some_iff hw hr ht).mp hgoto)
  · intro tree htree
    rcases List.mem_cons.mp htree with rfl | htree
    · refine .node i _ hlt hrhs fun child hchild => h.valid child ?_
      exact List.mem_of_mem_take (List.mem_reverse.mp hchild)
    · exact h.valid tree (List.mem_of_mem_drop htree)
  · simp only [hvalues]
    refine .cons (.node ?_ hvalue) (List.forall₂_drop n h.values)
    rw [Configuration.args, (tables_spec ht).2.1, hn, hvalues]
    exact List.forall₂_reverse_iff.mpr (List.forall₂_take n h.values)
  · have hsplit : ts.reverse = (ts.drop n).reverse ++ (ts.take n).reverse := by
      rw [← List.reverse_append, List.take_append_drop]
    have hy := h.yield
    rw [hsplit, List.flatMap_append] at hy
    simpa using hy
  · have hform : (ts.map (Tree.root g)).reverse =
        ((ts.drop n).map (Tree.root g)).reverse ++ (g.production i).rhs ++ [].map .terminal := by
      rw [← hrhs, List.map_reverse, List.map_nil, List.append_nil, ← List.reverse_append,
        ← List.map_append, List.take_append_drop]
    have hd := h.rightmost
    rw [hform] at hd
    simpa [Tree.root] using Rightmost.step hlt hd

/-- One step keeps the stacks in order. -/
theorem step (hw : g.WellFormed) (hr : g.Unreserved) (ht : g.tables = .ok t)
    (h : Parsing g s ms c ts) (hs : c.step t s = .more c') :
    ∃ ts', Parsing g s (ms ++ (c.move? t).toList) c' ts' := by
  rcases Configuration.step_eq_more hs with ⟨q, hq, hmove, rfl⟩ | ⟨i, hmove, _⟩
  · rw [hmove]
    exact ⟨_, h.shift hw hr ht hq rfl rfl⟩
  · obtain ⟨c₁, hstates, hvalues, _, hred⟩ := Configuration.reduce_of_step hs hmove
    rw [hmove]
    exact ⟨_, h.reduce hw hr ht (Configuration.reduces_of_move hmove) hstates hvalues hred⟩

/-- The stacks are in order wherever a run leads. -/
theorem of_run (hw : g.WellFormed) (hr : g.Unreserved) (ht : g.tables = .ok t)
    {supply : Supply} {memory : M} (h : Run t s { supply, memory } ms c) :
    ∃ ts, Parsing g s ms c ts := by
  induction h with
  | refl => exact ⟨[], initial supply memory⟩
  | tail _ hs ih =>
    obtain ⟨ts, hts⟩ := ih
    exact hts.step hw hr ht hs

/-- A step fails only for the token it looks at, for a failure of the computation of a value, or for
want of a goal: a state to go to is always there. -/
theorem step_eq_failed (hw : g.WellFormed) (hr : g.Unreserved) (ht : g.tables = .ok t)
    (h : Parsing g s ms c ts) {f : Failure} (hfail : c.step t s = .failed f c') :
    ((c.token.kind = .invalid ∨ t.action c.top c.token.kind = .error) ∧
      ∃ message, f = .rejection c.token.place message) ∨
    (∃ i, c.move? t = some (.reduce i) ∧
      (c.valueOf s i (c.args t i) = .error f ∨ c.look.valueOf s i (c.args t i) = .error f)) ∨
    (c.Accepting t ∧ c.goal = none ∧ f = .breach "accepted without goal") := by
  rcases Configuration.step_eq_failed hfail with htoken | ⟨i, hmove, hred⟩ | haccept
  · exact Or.inl htoken
  · refine Or.inr (Or.inl ⟨i, hmove, ?_⟩)
    obtain ⟨_, _, _, q, hgoto⟩ := Tables.Reduces.finds hw hr ht h.path
      (Configuration.reduces_of_move hmove)
    rw [← (tables_spec ht).2.1] at hgoto
    -- A look at the next token leaves the stacks as they are, so both cases find the same state.
    rcases hred with hred | hred
    · rcases Configuration.reduce_eq_failed hred with hvalue | hnone
      · exact Or.inl hvalue
      · rw [hgoto] at hnone
        cases hnone
    · rcases Configuration.reduce_eq_failed hred with hvalue | hnone
      · rw [Configuration.args, Configuration.look_values] at hvalue
        exact Or.inr hvalue
      · rw [Configuration.look_states, hgoto] at hnone
        cases hnone
  · exact Or.inr (Or.inr haccept)

end Parsing

end ObjectPascal.Grammar
