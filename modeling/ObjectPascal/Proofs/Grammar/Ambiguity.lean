import ObjectPascal.Proofs.Grammar.First
import ObjectPascal.Proofs.Grammar.Completeness
import ObjectPascal.Proofs.Grammar.Reports

/-!
Clashes and ambiguity. The lookahead of an item is what can come behind it when it has been read in
a state, and a complete item applies on the tokens of its lookahead. Where one action at most
applies in every cell, the tables follow every parse tree from its first leaf to its root, so no two
trees stand over the same tokens. Tables without conflicts have such cells but where they accept:
there a second action is not reported, and a grammar may derive its start symbol from itself.
-/

namespace ObjectPascal.Grammar

variable {g : Grammar} {t : Tables}

/-- The tokens that come behind an item in a state: the end of the input behind the start item,
behind a production that an item expands to what the rest of this item begins with, or what comes
behind it if the rest may be empty, and behind an item that has been advanced what came before. -/
inductive Lookahead (g : Grammar) : Nat → Item → Kind → Prop
  | start : Lookahead g 0 ⟨0, 0⟩ .eof
  | first {q p : Nat} {i : Item} {j k : Kind} {xs : List Symbol} (h : Lookahead g q i j)
      (hp : p < g.productions.size) (hn : g.next i = some (.nonterminal (g.production p).lhs))
      (hf : g.Derives (g.rest i) (.terminal k :: xs)) : Lookahead g q ⟨p, 0⟩ k
  | pass {q p : Nat} {i : Item} {k : Kind} (h : Lookahead g q i k)
      (hp : p < g.productions.size) (hn : g.next i = some (.nonterminal (g.production p).lhs))
      (hf : g.Derives (g.rest i) []) : Lookahead g q ⟨p, 0⟩ k
  | step {q q' : Nat} {i : Item} {k : Kind} {x : Symbol} (h : Lookahead g q i k)
      (hx : g.next i = some x) (hq : (x, q') ∈ g.stepsAt q) : Lookahead g q' ⟨i.prod, i.dot + 1⟩ k

section First

variable (hw : g.WellFormed)

include hw

/-- The lookahead of an item is part of what the item expects by the tables' own account. -/
theorem Lookahead.expects (hr : g.Unreserved) {q : Nat} {i : Item} {k : Kind}
    (h : g.Lookahead q i k) : g.Expects q i k.index := by
  induction h with
  | start => exact expects_start hw hr
  | first _ hp hn hf ih =>
    refine ih.closure hp hn (Or.inl ((hf.first hw).2 _ ?_))
    rw [First.ofString, NatSet.mem_single]
  | pass _ hp hn hf ih => exact ih.closure hp hn (Or.inr ⟨(hf.first hw).1 rfl, rfl⟩)
  | step _ hx hq ih => exact ih.step hw hr hx hq

/-- A complete item applies on its lookahead. -/
theorem Expects.applies {q : Nat} {i : Item} {k : Kind} (h : g.Expects q i k.index)
    (hn : g.next i = none) : g.Applies q k (Row.entry i.prod) := by
  obtain ⟨la, hmem, hk⟩ := h.reduction hw hn
  unfold Row.entry
  split
  · rename_i hzero
    exact .accept (hzero ▸ hmem) hk
  · rename_i hne
    exact .reduce hne hmem hk

end First

/-- One action at most applies in each cell, and the cell holds it. -/
def Tables.Decided (t : Tables) (g : Grammar) : Prop :=
  ∀ q k a, a ≠ .error → g.Applies q k a → t.action q k = a

section Trees

variable (hw : g.WellFormed) (hr : g.Unreserved) (ht : g.tables = .ok t)

include hw hr

theorem lt_stateCount_of_applies {q : Nat} {k : Kind} {a : Action} (ha : a ≠ .error)
    (h : g.Applies q k a) : q < g.stateCount := by
  cases h with
  | error => exact absurd rfl ha
  | shift hstep => exact lt_of_mem_stepsAt hw hr hstep
  | reduce _ hmem _ => exact lt_stateCount_of_reduction hw hr hmem
  | accept hmem _ => exact lt_stateCount_of_reduction hw hr hmem

/-- The trees over the rest of a right-hand side are followed to its end. -/
theorem track_forest {ts : List Token} {p d : Nat} {forest : List Tree}
    (htree : ∀ tree ∈ forest, ∀ ts a, g.Awaits a tree ts →
      ∃ q, (tree.root g, q) ∈ g.stepsAt (a.headD 0) ∧ t.Track ts a tree.moves (q :: a))
    {a : List Nat} (h : g.AwaitsRest a p d forest ts) :
    ∃ b, t.Track ts a (forest.flatMap Tree.moves) b ∧
      g.Climbs a (forest.map (Tree.root g)) b := by
  induction forest generalizing a d with
  | nil => exact ⟨a, .refl a, .refl a⟩
  | cons tree forest ih =>
    obtain ⟨q, hq, htrack⟩ := htree tree List.mem_cons_self _ a (h.head hw)
    obtain ⟨b, hrest, hclimb⟩ := ih (fun tree' h' => htree tree' (.tail _ h')) (h.tail hw hr hq)
    rw [← shifted_forest] at htrack
    exact ⟨b, by rw [List.flatMap_cons]; exact htrack.append hrest, .step hq hclimb⟩

include ht

/-- Tables without conflicts decide all cells, if acceptance only applies alone. -/
theorem decided_of_conflicts (hc : t.conflicts = [])
    (hacc : ∀ q k a, g.Applies q k .accept → g.Applies q k a → a = .error ∨ a = .accept) :
    t.Decided g := by
  intro q k a ha happ
  have hq := lt_stateCount_of_applies hw hr ha happ
  have hnone : ¬ Noted q k t.conflicts := by
    rintro ⟨c, hmem, _⟩
    rw [hc] at hmem
    cases hmem
  by_cases haccept : g.Applies q k .accept
  · obtain rfl := (hacc q k a haccept happ).resolve_left ha
    obtain ⟨la, hmem, hk⟩ : ∃ la, (0, la) ∈ g.reductionsAt q ∧ k.index ∈ la := by
      cases happ with
      | accept hmem hk => exact ⟨_, hmem, hk⟩
    rcases action_of_reduction hw hr ht hc hmem hk with hact | hact <;> exact hact
  · exact action_of_unnoted ht hq hnone haccept ha happ

variable (hd : t.Decided g)

include hd

/-- Tables that decide all cells follow every tree that is awaited. -/
theorem Tree.Valid.track {tree : Tree} (h : tree.Valid g) (ts : List Token) (a : List Nat)
    (haw : g.Awaits a tree ts) :
    ∃ q, (tree.root g, q) ∈ g.stepsAt (a.headD 0) ∧ t.Track ts a tree.moves (q :: a) := by
  induction h generalizing ts a with
  | leaf token =>
    obtain ⟨i, j, hexp, hnext, _⟩ := haw
    obtain ⟨q, hq⟩ := exists_step hw hr (hexp.mem_closure hw) hnext
    have hact : t.action (a.headD 0) token.kind = .shift q := hd _ _ _ (by simp) (.shift hq)
    have hnone := default_eq_none hw hr ht (by rw [hact]; simp) (by rw [hact]; simp)
    rw [Tree.moves_leaf]
    exact ⟨q, hq, .shift hnone hact (.refl _)⟩
  | node p children hp hroots hchildren ih =>
    obtain ⟨hzero, hrest⟩ := haw.children hw hr (.node p children hp hroots hchildren)
    obtain ⟨b, htrack, hclimb⟩ := track_forest hw hr ih hrest
    -- All children are on the stack, so the production is complete and reduces to its node.
    have hend := hclimb.expects hw hr hrest.expects (hrest.roots ▸ List.prefix_refl _)
    rw [hroots, Nat.zero_add] at hend
    rw [hroots] at hclimb
    have happ := hend.applies hw (List.getElem?_eq_none (Nat.le_refl _))
    rw [Row.entry, if_neg hzero] at happ
    have hact := hd _ _ _ (by simp) happ
    obtain ⟨q, hq⟩ := exists_goto hw hr hzero (hrest.expects.mem_closure hw)
    refine ⟨q, hq, ?_⟩
    have hlast : t.Track ts b [.reduce p] (q :: a) := by
      have hstep : t.Track ts b [.reduce p]
          (q :: b.drop (t.grammar.production p).rhs.length) := by
        refine .reduce (chooses_of_action hw hr ht hact) ?_ (.refl _)
        rw [(tables_spec ht).2.1, hclimb.drop]
        exact (goto_eq_some_iff hw hr ht).mpr hq
      rwa [(tables_spec ht).2.1, hclimb.drop] at hstep
    rw [Tree.moves_node]
    exact Tables.Track.append htrack hlast

/-- Tables that decide all cells leave one parse tree of the start symbol over given tokens. -/
theorem Tree.Valid.eq_of_yield {tree tree' : Tree} (hv : tree.Valid g) (hv' : tree'.Valid g)
    (hroot : (g.production 0).rhs = [tree.root g])
    (hroot' : (g.production 0).rhs = [tree'.root g]) (hyield : tree.yield = tree'.yield) :
    tree = tree' := by
  have hrun {tree : Tree} (hv : tree.Valid g) (hroot : (g.production 0).rhs = [tree.root g]) :
      ∃ q, (tree.root g, q) ∈ g.stepsAt 0 ∧ t.Track [] [0] tree.moves [q, 0] ∧
        t.action q .eof = .accept := by
    have hstart := awaits_start hw hr [tree] hroot.symm fun tree' h => by
      rwa [List.mem_singleton.mp h]
    obtain ⟨q, hq, htrack⟩ := hv.track hw hr ht hd _ _ (hstart.head hw)
    refine ⟨q, hq, htrack, ?_⟩
    have hend := (hstart.tail hw hr hq).expects.applies hw (k := .eof) (by simp [next, hroot])
    exact hd _ _ _ (by simp) hend
  obtain ⟨q, hq, htrack, hacc⟩ := hrun hv hroot
  obtain ⟨q', hq', htrack', _⟩ := hrun hv' hroot'
  have hsame : tree.root g = tree'.root g := List.cons.inj (hroot.symm.trans hroot') |>.1
  obtain rfl : q = q' := step_unique hw hr hq (hsame ▸ hq')
  -- Behind the start symbol the tables only accept, so neither list of moves goes on.
  have hstop {rest : List Move} {b : List Nat} (h : t.Track [] [q, 0] rest b)
      (hnone : shifted rest = []) : rest = [] := by
    cases h with
    | refl => rfl
    | shift => cases hnone
    | @reduce _ _ ms i _ hi _ _ =>
      have hnil : shifted ms = [] := hnone
      rw [hnil] at hi
      have hdefault : t.defaultAt q = none :=
        default_eq_none hw hr ht (by rw [hacc]; simp) (by rw [hacc]; simp)
      have hact : t.action q .eof = .reduce i := hi.action_eq hdefault
      rw [hacc] at hact
      cases hact
  have hshifted : shifted tree.moves = shifted tree'.moves := by
    rw [Tree.shifted_moves, Tree.shifted_moves, hyield]
  have hmoves : tree.moves = tree'.moves := by
    rcases htrack.compare htrack' (by rw [hshifted]) with
      ⟨rest, heq, hrest⟩ | ⟨rest, heq, hrest⟩
    · rw [heq, shifted_append] at hshifted
      rw [heq, hstop hrest (List.self_eq_append_right.mp hshifted), List.append_nil]
    · rw [heq, shifted_append] at hshifted
      rw [heq, hstop hrest (List.append_right_eq_self.mp hshifted), List.append_nil]
  have hbuilt := hv.built_moves
  rw [hmoves, hv'.built_moves] at hbuilt
  exact (List.cons.inj hbuilt).1.symm

end Trees

/-- Which clashes are reported, and what tables without conflicts leave of ambiguity. Where two
actions apply on a token, a conflict over the token is reported exactly if acceptance is not one of
them. In a grammar whose rules do not use the goal these actions are at least those that the
lookaheads of its items ask for. If no conflict is reported and acceptance applies only alone, then
one action at most applies in each cell, and the start symbol has one parse tree at most over given
tokens. -/
theorem clashes_reported (hb : g.Built) (ht : g.tables = .ok t) :
    (∀ q < t.stateCount, ∀ k a b, a ≠ .error → b ≠ .error → a ≠ b → g.Applies q k a →
      g.Applies q k b →
        ((∃ c ∈ t.conflicts, c.state = q ∧ c.token = k) ↔ ¬ g.Applies q k .accept)) ∧
    (g.Unreserved →
      (∀ q i k, g.Lookahead q i k → g.next i = none →
        g.Applies q k (if i.prod = 0 then .accept else .reduce i.prod)) ∧
      (t.conflicts = [] →
        (∀ q k a, g.Applies q k .accept → g.Applies q k a → a = .error ∨ a = .accept) →
          (∀ q k a, a ≠ .error → g.Applies q k a → t.action q k = a) ∧
          ∀ tree tree' : Tree, tree.Valid g → tree'.Valid g →
            (g.production 0).rhs = [tree.root g] → (g.production 0).rhs = [tree'.root g] →
            tree.yield = tree'.yield → tree = tree')) := by
  have hw := hb.wellFormed
  refine ⟨fun q hq k a b ha hb hne happ happ' => ?_, fun hr => ⟨fun q i k h hn => ?_, ?_⟩⟩
  · rw [Tables.stateCount, (tables_spec ht).2.2.2.1] at hq
    exact noted_iff ht hq ha hb hne happ happ'
  · exact (h.expects hw hr).applies hw hn
  · intro hc hacc
    have hd := decided_of_conflicts hw hr ht hc hacc
    exact ⟨hd, fun tree tree' hv hv' hroot hroot' hyield =>
      hv.eq_of_yield hw hr ht hd hv' hroot hroot' hyield⟩

set_option maxRecDepth 20000 in
theorem equations_clash : equations.Applies 5 .equal (.shift 4) ∧
    equations.Applies 5 .equal (.reduce 2) ∧ ¬ equations.Applies 5 .equal .accept := by
  have hsteps : equations.stepsAt 5 = [(.terminal .equal, 4)] := by
    rw [stepsAt, equations_automaton]
    rfl
  have hreductions : equations.reductionsAt 5 =
      [(2, NatSet.single Kind.eof.index ∪ .single Kind.equal.index)] := by
    unfold reductionsAt Survey.reductions kernelSets
    rw [equations_lookaheads, slots, equations_automaton, equations_survey, equations_eq]
    simp only [mergeSort_reductions]
    rfl
  refine ⟨.shift (by rw [hsteps]; exact List.mem_cons_self), .reduce (by simp)
    (by rw [hreductions]; exact List.mem_cons_self) (by simp), fun h => ?_⟩
  cases h with
  | accept hmem _ =>
    rw [hreductions] at hmem
    simp at hmem

set_option maxRecDepth 20000 in
/-- Behind a sum the end of the input is accepted, and a sum that ends is not read on. -/
theorem sums_accept_alone (q : Nat) (k : Kind) (a : Action) (hacc : sums.Applies q k .accept)
    (h : sums.Applies q k a) : a = .error ∨ a = .accept := by
  have hw := sums_built.wellFormed
  obtain ⟨la, hmem, hk⟩ : ∃ la, (0, la) ∈ sums.reductionsAt q ∧ k.index ∈ la := by
    cases hacc with
    | accept hmem hk => exact ⟨_, hmem, hk⟩
  have hq := lt_stateCount_of_reduction hw sums_unreserved hmem
  rw [stateCount, sums_automaton] at hq
  have hq : q < 6 := hq
  have hzero : 0 ∈ (sums.reductionsAt q).map (·.1) := List.mem_map.mpr ⟨_, hmem, rfl⟩
  have hthree : q = 3 := by
    have hrow : (sums.reductionsAt q).map (·.1) = [[], [3], [1], [0], [], [2]].getD q [] := by
      unfold reductionsAt Survey.reductions kernelSets
      rw [sums_lookaheads, slots, sums_automaton, sums_survey, sums_eq]
      obtain rfl | rfl | rfl | rfl | rfl | rfl :
        q = 0 ∨ q = 1 ∨ q = 2 ∨ q = 3 ∨ q = 4 ∨ q = 5 := by omega
      all_goals
        simp only [mergeSort_reductions]
        decide +kernel
    have honly : ∀ q < 6,
        0 ∈ ([[], [3], [1], [0], [], [2]] : List (List Nat)).getD q [] → q = 3 := by
      decide
    exact honly q hq (hrow ▸ hzero)
  subst hthree
  have hreductions : sums.reductionsAt 3 = [(0, .single Kind.eof.index)] := by
    unfold reductionsAt Survey.reductions kernelSets
    rw [sums_lookaheads, slots, sums_automaton, sums_survey, sums_eq]
    simp only [mergeSort_reductions]
    rfl
  have hsteps : sums.stepsAt 3 = [(.terminal .plus, 4)] := by
    rw [stepsAt, sums_automaton]
    rfl
  rw [hreductions, List.mem_singleton, Prod.mk.injEq] at hmem
  obtain rfl := hmem.2
  obtain rfl : k = .eof := Kind.index_inj (NatSet.mem_single.mp hk)
  cases h with
  | error => exact Or.inl rfl
  | accept => exact Or.inr rfl
  | shift hstep =>
    rw [hsteps] at hstep
    simp at hstep
  | reduce hne hin =>
    rw [hreductions, List.mem_singleton, Prod.mk.injEq] at hin
    exact absurd hin.1 hne

/-- Behind the second side of an equation the sign can be read and the equation be reduced, which is
reported. No two sums stand over the same tokens. -/
theorem clashes_reported_equations : (∃ t, equations.tables = .ok t ∧ 5 < t.stateCount ∧
      equations.Applies 5 .equal (.shift 4) ∧ equations.Applies 5 .equal (.reduce 2) ∧
      ∃ c ∈ t.conflicts, c.state = 5 ∧ c.token = .equal) ∧
    ∃ t, sums.tables = .ok t ∧ t.conflicts = [] ∧
      (∀ q k a, sums.Applies q k .accept → sums.Applies q k a → a = .error ∨ a = .accept) ∧
      ∀ tree tree' : Tree, tree.Valid sums → tree'.Valid sums →
        (sums.production 0).rhs = [tree.root sums] → (sums.production 0).rhs = [tree'.root sums] →
        tree.yield = tree'.yield → tree = tree' := by
  constructor
  · obtain ⟨t, ht, _⟩ := equations_tables
    obtain ⟨hshift, hreduce, hacc⟩ := equations_clash
    have hq : 5 < t.stateCount := by
      rw [Tables.stateCount, (tables_spec ht).2.2.2.1, stateCount, equations_automaton]
      decide
    exact ⟨t, ht, hq, hshift, hreduce, ((clashes_reported equations_built ht).1 5 hq .equal _ _
      (by simp) (by simp) (by simp) hshift hreduce).mpr hacc⟩
  · obtain ⟨t, ht, hc⟩ := sums_tables
    obtain ⟨_, hclean⟩ := (clashes_reported sums_built ht).2 sums_unreserved
    exact ⟨t, ht, hc, sums_accept_alone, (hclean hc sums_accept_alone).2⟩

section Cycles

/-- A goal that is derived from itself or from an integer. -/
def cycles : Grammar := ((({} : Grammar).start "s").rule "s" [.name "s"]).rule "s" [.token .integer]

/-- The states of the grammar of cycles. -/
def cyclesStates : Automaton :=
  ⟨#[[⟨0, 0⟩], [⟨2, 1⟩], [⟨0, 1⟩, ⟨1, 1⟩]],
    #[[(.terminal .integer, 1), (.nonterminal 1, 2)], [], []]⟩

theorem cycles_built : cycles.Built := .rule (.rule (.start .empty _) _ _ none) _ _ none

/-- There is a kernel for each state. -/
example : cyclesStates.kernels.size = 3 := by decide +kernel

theorem cycles_eq : cycles = ⟨#["$accept", "s"],
    #[⟨0, [.nonterminal 1], 0⟩, ⟨1, [.nonterminal 1], 0⟩, ⟨1, [.terminal .integer], 0⟩], [], 0⟩ := by
  decide +kernel

theorem cycles_unreserved : cycles.Unreserved := by
  rw [cycles_eq]
  exact ⟨by decide, by decide⟩

theorem cycles_survey : cycles.survey = ⟨cycles,
    ⟨#[false, false], #[.single Kind.integer.index, .single Kind.integer.index]⟩, #[[0], [1, 2]],
    #[[⟨1, ∅, true⟩], [⟨1, ∅, true⟩]], #[⟨3⟩, ⟨2⟩]⟩ := by
  rw [cycles_eq]
  decide +kernel

theorem cycles_automaton : cycles.survey.automaton = cyclesStates := by
  rw [Survey.automaton_eq, cycles_survey, cycles_eq]
  decide +kernel

set_option maxRecDepth 20000 in
/-- Only the end of the input comes behind what the grammar of cycles derives. -/
theorem cycles_lookaheads :
    cycles.slots.lookaheads = .replicate 4 (.single Kind.eof.index) := by
  rw [slots, cycles_automaton, cycles_survey, cycles_eq]
  decide

set_option maxRecDepth 20000 in
theorem cycles_tables : ∃ t, cycles.tables = .ok t ∧ t.conflicts = [] := by
  obtain ⟨t, ht⟩ := exists_tables (g := cycles) (by rw [cycles_eq]; decide +kernel)
  refine ⟨t, ht, conflicts_eq_nil ht fun q hq => ?_⟩
  rw [stateCount, cycles_automaton] at hq
  have hq : q < 3 := hq
  unfold rowAt reductionsAt Survey.reductions shiftRow stepsAt kernelSets
  rw [cycles_lookaheads, slots, cycles_automaton, cycles_survey, cycles_eq]
  obtain rfl | rfl | rfl : q = 0 ∨ q = 1 ∨ q = 2 := by omega
  all_goals
    simp only [mergeSort_reductions]
    rfl

/-- The parse of an integer in which the goal is derived from itself `n` times. -/
def cyclesTree : Nat → Tree
  | 0 => .node 2 [.leaf ⟨.integer, 1, ⟨1, 1⟩, ∅⟩]
  | n + 1 => .node 1 [cyclesTree n]

theorem cyclesTree_valid (n : Nat) : (cyclesTree n).Valid cycles ∧
    (cyclesTree n).root cycles = .nonterminal 1 ∧
    (cyclesTree n).yield = [⟨.integer, 1, ⟨1, 1⟩, ∅⟩] := by
  induction n with
  | zero =>
    refine ⟨.node 2 _ ?_ ?_ ?_, ?_, by simp [cyclesTree]⟩
    · rw [cycles_eq]; decide
    · rw [cycles_eq]; rfl
    · intro tree htree
      rw [List.mem_singleton.mp htree]
      exact .leaf _
    · rw [cycles_eq]; rfl
  | succ n ih =>
    obtain ⟨hv, hroot, hyield⟩ := ih
    refine ⟨.node 1 _ ?_ ?_ ?_, ?_, by simp [cyclesTree, hyield]⟩
    · rw [cycles_eq]; decide
    · rw [List.map_singleton, hroot, cycles_eq]; rfl
    · intro tree htree
      rwa [List.mem_singleton.mp htree]
    · rw [cycles_eq]; rfl

/-- A goal that is derived from itself: acceptance and a reduction apply at the end of the input, no
conflict is reported, and an integer has any number of parse trees. -/
theorem cycles_unreported : cycles.Built ∧ cycles.Unreserved ∧
    ∃ t, cycles.tables = .ok t ∧ 2 < t.stateCount ∧ t.conflicts = [] ∧
      cycles.Lookahead 2 ⟨0, 1⟩ .eof ∧ cycles.next ⟨0, 1⟩ = none ∧
      cycles.Lookahead 2 ⟨1, 1⟩ .eof ∧ cycles.next ⟨1, 1⟩ = none ∧
      cyclesTree 0 ≠ cyclesTree 1 ∧ ∀ n, (cyclesTree n).Valid cycles ∧
        (cycles.production 0).rhs = [(cyclesTree n).root cycles] ∧
        (cyclesTree n).yield = [⟨.integer, 1, ⟨1, 1⟩, ∅⟩] := by
  obtain ⟨t, ht, hc⟩ := cycles_tables
  have hstep : (.nonterminal 1, 2) ∈ cycles.stepsAt 0 := by
    rw [stepsAt, cycles_automaton]
    decide
  have hnext : cycles.next ⟨0, 0⟩ = some (.nonterminal 1) ∧
      cycles.next ⟨1, 0⟩ = some (.nonterminal 1) ∧ (cycles.production 1).lhs = 1 ∧
      cycles.rest ⟨0, 0⟩ = [] ∧ 1 < cycles.productions.size := by
    rw [cycles_eq]
    decide
  obtain ⟨hgoal, hself, hlhs, hrest, hsize⟩ := hnext
  have hbegin : cycles.Lookahead 0 ⟨1, 0⟩ .eof :=
    .pass .start hsize (by rw [hgoal, hlhs]) (by rw [hrest]; exact .refl)
  refine ⟨cycles_built, cycles_unreserved, t, ht, ?_, hc, .step .start hgoal hstep, ?_,
    .step hbegin hself hstep, ?_, by simp [cyclesTree], fun n => ?_⟩
  · rw [Tables.stateCount, (tables_spec ht).2.2.2.1, stateCount, cycles_automaton]
    decide
  · rw [cycles_eq]; rfl
  · rw [cycles_eq]; rfl
  · obtain ⟨hv, hroot, hyield⟩ := cyclesTree_valid n
    refine ⟨hv, ?_, hyield⟩
    rw [hroot, cycles_eq]
    rfl

end Cycles

end ObjectPascal.Grammar
