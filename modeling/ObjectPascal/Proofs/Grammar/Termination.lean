import ObjectPascal.Proofs.Grammar.Recursion
import ObjectPascal.Proofs.Grammar.Soundness

/-!
Termination of the machine. Each move adds one node to the trees on the stack, whatever the tables
chose and whether or not they looked at the next token. Where no nonterminal derives itself and none
is hidden behind itself, the trees are bounded by the tokens shifted; and where no rule uses the end
of the input, only the tokens before it are shifted. So the machine ends.
-/

namespace ObjectPascal.Grammar

variable {V G M : Type} {g : Grammar} {t : Tables} {s : Semantics V G M}

namespace Configuration

/-- A reduction may stop the supply of tokens, but brings none. -/
theorem coming_of_reduce {c c' : Configuration V G M} {i : Nat} (h : c.reduce t s i = .more c') :
    c'.coming <+: c.coming := by
  obtain ⟨r, q, _, _, rfl⟩ := reduce_eq_more h
  unfold coming
  dsimp only
  split
  · rw [Supply.stop, List.map_nil, List.append_nil, List.takeWhile_append]
    split
    · rename_i hlen
      rw [(List.takeWhile_prefix _).eq_of_length hlen]
      exact List.prefix_append _ _
    · exact List.prefix_refl _
  · exact List.prefix_refl _

theorem length_move {c c' : Configuration V G M} (h : c.step t s = .more c') :
    (c.move? t).toList.length = 1 := by
  rcases step_eq_more h with ⟨_, _, hmove, _⟩ | ⟨_, hmove, _⟩
  · rw [hmove]
    rfl
  · rw [hmove]
    rfl

/-- A goal is accepted only where the tables accept. -/
theorem step_eq_accepted {c c' : Configuration V G M} {goal : G}
    (h : c.step t s = .accepted goal c') : c.Accepting t ∧ c.goal = some goal := by
  have hreduce {c : Configuration V G M} {i : Nat} : c.reduce t s i ≠ .accepted goal c' := by
    intro h
    unfold reduce at h
    dsimp only at h
    split at h
    · cases h
    · split at h <;> cases h
  cases hd : t.defaultAt c.top with
  | some i =>
    rw [step, hd] at h
    exact absurd h hreduce
  | none =>
    rcases step_of_default_none (s := s) hd with ⟨_, hstep⟩ | ⟨_, _, hstep⟩
    · rw [hstep, act, look_top] at h
      split at h
      · cases h
      · exact absurd h hreduce
      · rename_i ha
        split at h
        · rename_i goal' hgoal
          rw [look_goal] at hgoal
          rw [hgoal, (Progress.accepted.inj h).1]
          exact ⟨⟨hd, ha⟩, rfl⟩
        · cases h
      · cases h
    · rw [hstep] at h
      cases h

/-- As many steps as are given have been made when the machine goes on. -/
theorem exists_run_of_more (n : Nat) {c c' : Configuration V G M} (h : run t s n c = .more c') :
    ∃ ms, Run t s c ms c' ∧ ms.length = n := by
  induction n generalizing c with
  | zero =>
    obtain rfl := Progress.more.inj h
    exact ⟨[], .refl, rfl⟩
  | succ n ih =>
    rw [run] at h
    split at h
    · rename_i c₁ hs
      obtain ⟨ms, hrun, hlen⟩ := ih h
      refine ⟨_, (Run.refl.tail hs).trans hrun, ?_⟩
      rw [List.nil_append, List.length_append, hlen, length_move hs, Nat.add_comm]
    · rename_i hne
      exact absurd h (hne c')

/-- A property that every step keeps and that lets it go on holds off the end for ever. -/
theorem run_eq_more {P : Configuration V G M → Prop}
    (hP : ∀ c, P c → ∃ c', c.step t s = .more c' ∧ P c') (n : Nat) {c : Configuration V G M}
    (hc : P c) : ∃ c', run t s n c = .more c' := by
  induction n generalizing c with
  | zero => exact ⟨c, rfl⟩
  | succ n ih =>
    obtain ⟨c', hs, hc'⟩ := hP c hc
    obtain ⟨c'', hrun⟩ := ih hc'
    exact ⟨c'', by rw [run, hs]; exact hrun⟩

end Configuration

/-- There are more steps in a parse than the trees over its tokens have nodes. -/
theorem lt_stepBound (hg : t.grammar = g) (tokens : Nat) :
    (3 * tokens + 1) * g.growth < t.stepBound tokens := by
  subst hg
  rw [Tables.stepBound]
  generalize hk : t.stateCount + t.grammar.nonterminalCount + t.grammar.width = k
  have hvanish : 1 ≤ t.grammar.vanishingSize := Nat.one_le_pow _ _ (Nat.succ_pos _)
  have hgrowth : t.grammar.growth ≤ (k + 2) ^ (k + 2) :=
    calc t.grammar.growth
        = (t.grammar.nonterminalCount + 2) *
            (t.grammar.width * t.grammar.vanishingSize + 1) := rfl
      _ ≤ (t.grammar.nonterminalCount + 2) *
            (t.grammar.width * t.grammar.vanishingSize + t.grammar.vanishingSize) :=
          Nat.mul_le_mul_left _ (Nat.add_le_add_left hvanish _)
      _ = (t.grammar.nonterminalCount + 2) *
            (t.grammar.width + 1) ^ (t.grammar.nonterminalCount + 1) := by
          rw [vanishingSize]
          ring
      _ ≤ (k + 2) * (k + 2) ^ (t.grammar.nonterminalCount + 1) :=
          Nat.mul_le_mul (by omega) (Nat.pow_le_pow_left (by omega) _)
      _ = (k + 2) ^ (t.grammar.nonterminalCount + 2) := by ring
      _ ≤ (k + 2) ^ (k + 2) := Nat.pow_le_pow_right (Nat.succ_pos _) (by omega)
  have hpos : 0 < (k + 2) ^ (k + 2) := Nat.pow_pos (Nat.succ_pos _)
  refine Nat.mul_lt_mul_of_lt_of_le ?_ hgrowth hpos
  have hsquare : (tokens + 2) * (tokens + 2) = tokens * tokens + 4 * tokens + 4 := by ring
  omega

section Bound

variable (hw : g.WellFormed) (hr : g.Unreserved) (ht : g.tables = .ok t)

include hw hr ht

/-- Each move adds one node to the trees on the stack. -/
theorem Parsing.exists_sized {supply : Supply} {memory : M} {ms : List Move}
    {c : Configuration V G M} (h : Run t s { supply, memory } ms c) :
    ∃ ts, Parsing g s ms c ts ∧ (ts.map Tree.size).sum = ms.length := by
  induction h with
  | refl => exact ⟨[], .initial supply memory, rfl⟩
  | @tail ms c c' _ hs ih =>
    obtain ⟨ts, hts, hsize⟩ := ih
    rcases Configuration.step_eq_more hs with ⟨q, hq, hmove, rfl⟩ | ⟨i, hmove, _⟩
    · rw [hmove]
      refine ⟨_, hts.shift hw hr ht hq rfl rfl, ?_⟩
      simp [hsize]
      omega
    · obtain ⟨c₁, hstates, hvalues, _, hred⟩ := Configuration.reduce_of_step hs hmove
      rw [hmove]
      refine ⟨_, hts.reduce hw hr ht (Configuration.reduces_of_move hmove) hstates hvalues hred, ?_⟩
      have hsplit := congrArg (fun l : List Tree => (l.map Tree.size).sum)
        (List.take_append_drop (g.production i).rhs.length ts)
      simp only [List.map_append, List.sum_append, hsize] at hsplit
      simp only [List.map_cons, List.sum_cons, Tree.size_node, List.map_reverse, List.sum_reverse,
        Option.toList_some, List.length_append, List.length_singleton]
      omega

/-- In grammars whose rules do not use the end of the input the tokens that come are shifted one
after the other, until a reduction stops their supply. -/
theorem Run.shifted_prefix (he : g.EndFree) {c c' : Configuration V G M} {ms : List Move}
    (h : Run t s c ms c') : shifted ms ++ c'.coming <+: c.coming := by
  induction h with
  | refl => exact List.prefix_refl _
  | @tail ms c₁ c₂ _ hs ih =>
    refine List.IsPrefix.trans ?_ ih
    rw [shifted_append, List.append_assoc]
    refine (List.prefix_append_right_inj _).mpr ?_
    rcases Configuration.step_eq_more hs with ⟨q, hq, hmove, rfl⟩ | ⟨i, hmove, hred⟩
    · rw [hmove, Configuration.coming_eq_cons (kind_ne_eof_of_shift hw hr ht he hq)]
      exact List.prefix_refl _
    · rw [hmove]
      rcases hred with ⟨_, hred⟩ | ⟨_, hred⟩
      · exact Configuration.coming_of_reduce hred
      · have hlook := Configuration.coming_of_reduce hred
        rwa [Configuration.look_coming] at hlook

/-- The number of moves of a run is bounded by the tokens that it has shifted. -/
theorem Run.length_le (ha : g.Acyclic) (hh : g.Unhidden) {supply : Supply} {memory : M}
    {ms : List Move} {c : Configuration V G M} (h : Run t s { supply, memory } ms c) :
    ms.length ≤ (3 * (shifted ms).length + 1) * g.growth := by
  obtain ⟨ts, hts, hsize⟩ := Parsing.exists_sized hw hr ht h
  have hle := stack_size_le hw hr ha hh hts.path hts.valid
  have hleaves : (ts.flatMap Tree.yield).length = (shifted ms).length := by
    rw [← hts.yield, List.length_flatMap, List.length_flatMap, List.map_reverse, List.sum_reverse]
  rwa [hsize, hleaves] at hle

/-- The machine ends: after a bounded number of moves it accepts, refuses the token it looks at, or
comes to a reduction that fails; and that is how the parse ends. -/
theorem exists_end (he : g.EndFree) (ha : g.Acyclic) (hh : g.Unhidden) (s : Semantics V G M)
    (supply : Supply) (memory : M) :
    ∃ ms c, Run t s { supply, memory } ms c ∧
      ms.length ≤ (3 * supply.ahead.length + 1) * g.growth ∧
      t.parse s supply memory = c.step t s ∧ (∀ c', c.step t s ≠ .more c') ∧
      (c.Accepting t ∨
        ((c.token.kind = .invalid ∨ t.action c.top c.token.kind = .error) ∧
          ∃ message c', c.step t s = .failed (.rejection c.token.place message) c') ∨
        ∃ i f c', c.move? t = some (.reduce i) ∧
          (c.valueOf s i (c.args t i) = .error f ∨ c.look.valueOf s i (c.args t i) = .error f) ∧
          c.step t s = .failed f c') := by
  have hbound {ms : List Move} {c : Configuration V G M} (hrun : Run t s { supply, memory } ms c) :
      ms.length ≤ (3 * supply.ahead.length + 1) * g.growth := by
    have hlen := hrun.length_le hw hr ht ha hh
    have hshifted := (hrun.shifted_prefix hw hr ht he).length_le
    rw [List.length_append] at hshifted
    have hcoming : Configuration.coming (V := V) (G := G) { supply, memory } =
        (supply.ahead.map (·.1)).takeWhile (·.kind != .eof) := rfl
    have hle := (List.takeWhile_sublist (·.kind != .eof) (l := supply.ahead.map (·.1))).length_le
    rw [List.length_map] at hle
    rw [hcoming] at hshifted
    exact hlen.trans (Nat.mul_le_mul_right _ (by omega))
  obtain ⟨ms, c, hrun, hmore | ⟨hlast, hne⟩⟩ :=
    exists_run (t := t) (s := s) (t.stepBound supply.ahead.length) { supply, memory }
  · -- All steps that the parse allows would have been made, but there are more than a run has.
    obtain ⟨ms', hrun', hlen⟩ := Configuration.exists_run_of_more _ hmore
    have hlt := lt_stepBound (tables_spec ht).2.1 supply.ahead.length
    have hle := hbound hrun'
    omega
  · refine ⟨ms, c, hrun, hbound hrun, hlast, hne, ?_⟩
    cases hstep : c.step t s with
    | more c' => exact absurd hstep (hne c')
    | accepted goal c' => exact Or.inl (Configuration.step_eq_accepted hstep).1
    | failed f c' =>
      obtain ⟨ts, hts⟩ := Parsing.of_run hw hr ht hrun
      rcases hts.step_eq_failed hw hr ht hstep with
        ⟨htoken, message, rfl⟩ | ⟨i, hmove, hvalue⟩ | ⟨haccept, _⟩
      · exact Or.inr (Or.inl ⟨htoken, message, c', rfl⟩)
      · exact Or.inr (Or.inr ⟨i, f, c', hmove, hvalue, rfl⟩)
      · exact Or.inl haccept

end Bound

section Endings

/-- Lists of ends of the input, which only a semicolon completes. -/
def endings : Grammar :=
  (((({} : Grammar).start "goal").rule "goal" [.name "list", .token .semicolon]).rule "list"
    [.token .eof]).rule "list" [.name "list", .token .eof]

/-- The states of the grammar of endings. -/
def endingsStates : Automaton :=
  ⟨#[[⟨0, 0⟩], [⟨2, 1⟩], [⟨0, 1⟩], [⟨1, 1⟩, ⟨3, 1⟩], [⟨1, 2⟩], [⟨3, 2⟩]],
    #[[(.terminal .eof, 1), (.nonterminal 1, 2), (.nonterminal 2, 3)], [], [],
      [(.terminal .semicolon, 4), (.terminal .eof, 5)], [], []]⟩

/-- The lookaheads of the grammar of endings: a list may go on or be completed. -/
def endingsLookaheads : Array NatSet :=
  let last := NatSet.single Kind.eof.index
  let inner := last ∪ .single Kind.semicolon.index
  #[last, inner, last, last, inner, last, inner]

/-- There is a kernel for each state. -/
example : endingsStates.kernels.size = 6 := by decide +kernel

theorem endings_eq : endings = ⟨#["$accept", "goal", "list"],
    #[⟨0, [.nonterminal 1], 0⟩, ⟨1, [.nonterminal 2, .terminal .semicolon], 0⟩,
      ⟨2, [.terminal .eof], 0⟩, ⟨2, [.nonterminal 2, .terminal .eof], 0⟩], [], 0⟩ := by
  decide +kernel

theorem endings_survey : endings.survey = ⟨endings,
    ⟨#[false, false, false], #[.single Kind.eof.index, .single Kind.eof.index,
      .single Kind.eof.index]⟩, #[[0], [1], [2, 3]],
    #[[⟨1, ∅, true⟩], [⟨2, .single Kind.semicolon.index, false⟩],
      [⟨2, .single Kind.eof.index, false⟩]], #[⟨7⟩, ⟨6⟩, ⟨4⟩]⟩ := by
  rw [endings_eq]
  decide +kernel

theorem endings_automaton : endings.survey.automaton = endingsStates := by
  rw [Survey.automaton_eq, endings_survey, endings_eq]
  decide +kernel

/-- There is a set for each kernel item. -/
example : endingsLookaheads.size = 7 := by decide +kernel

theorem endings_lookaheads : endings.slots.lookaheads = endingsLookaheads := by
  rw [slots, endings_automaton, endings_survey, endings_eq]
  decide +kernel

/-- The cells of the tables of endings that a run over ends of the input meets. -/
structure EndingsCells (t : Tables) : Prop where
  grammar : t.grammar = endings
  first : t.defaultAt 0 = none ∧ t.action 0 .eof = .shift 1
  single : t.defaultAt 1 = some 2
  list : t.defaultAt 3 = none ∧ t.action 3 .eof = .shift 5
  longer : t.defaultAt 5 = some 3
  goto : t.goto 0 2 = some 3

theorem endings_unreserved : endings.Unreserved := by
  rw [endings_eq]
  exact ⟨by decide, by decide⟩

theorem endings_built : endings.Built :=
  .rule (.rule (.rule (.start .empty _) _ _ none) _ _ none) _ _ none

set_option maxRecDepth 20000 in
theorem endings_tables : ∃ t, endings.tables = .ok t ∧ EndingsCells t := by
  obtain ⟨t, ht⟩ := exists_tables (g := endings) (by rw [endings_eq]; decide +kernel)
  obtain ⟨_, hg, _, _, _, _, hrows⟩ := tables_spec ht
  have hcount : endings.stateCount = 6 := by rw [stateCount, endings_automaton]; rfl
  obtain ⟨_, h0⟩ := hrows 0 (by rw [hcount]; decide)
  obtain ⟨_, h1⟩ := hrows 1 (by rw [hcount]; decide)
  obtain ⟨_, h3⟩ := hrows 3 (by rw [hcount]; decide)
  obtain ⟨_, h5⟩ := hrows 5 (by rw [hcount]; decide)
  have hgoto : (.nonterminal 2, 3) ∈ endings.stepsAt 0 := by
    rw [stepsAt, endings_automaton]
    decide
  have hnext := (goto_eq_some_iff endings_built.wellFormed endings_unreserved ht).mpr hgoto
  refine ⟨t, ht, hg, ⟨?_, ?_⟩, ?_, ⟨?_, ?_⟩, ?_, hnext⟩
  all_goals
    simp only [default_of_hasRow h0, action_of_hasRow h0, default_of_hasRow h1,
      default_of_hasRow h3, action_of_hasRow h3, default_of_hasRow h5]
    unfold rowAt reductionsAt Survey.reductions shiftRow stepsAt kernelSets
    rw [endings_lookaheads, slots, endings_automaton, endings_survey, endings_eq]
    simp only [mergeSort_reductions]
    rfl

/-- A list is below the goal that it is part of. -/
theorem endings_ranked : Ranked endings (fun _ => false) (fun
    | .nonterminal n => 3 - n
    | .terminal _ => 0) := by
  rw [endings_eq]
  exact ⟨by decide, by decide⟩

/-- The stacks that endings go through while only the end of the input comes. -/
structure Lasting (c : Configuration Unit Unit Unit) : Prop where
  ahead : c.ahead = none
  supply : c.supply.ahead = []
  states : c.states = [0] ∨ c.states = [1, 0] ∨ c.states = [3, 0] ∨ c.states = [5, 3, 0]

theorem Lasting.step (h : EndingsCells t) {c : Configuration Unit Unit Unit} (hc : Lasting c) :
    ∃ c', c.step t silent = .more c' ∧ Lasting c' := by
  obtain ⟨ha, hs, hstates⟩ := hc
  have hshift {p : Nat} (hd : t.defaultAt c.top = none) (hact : t.action c.top .eof = .shift p) :
      ∃ c', c.step t silent = .more c' ∧ c'.ahead = none ∧ c'.supply.ahead = [] ∧
        c'.states = p :: c.states := by
    have htop : Configuration.top { c with
        ahead := some ⟨.eof, 0, c.supply.here, ∅⟩, supply := c.supply } = c.top := rfl
    have hstep : c.step t silent = .more { c with
        states := p :: c.states
        values := () :: c.values
        ahead := none
        lastLine := c.supply.here.line } := by
      simp only [Configuration.step, hd, ha, Supply.next, hs, Configuration.act, htop, hact]
      rfl
    exact ⟨_, hstep, rfl, hs, rfl⟩
  have hreduce {i n : Nat} (hd : t.defaultAt c.top = some i)
      (hn : (t.grammar.production i).rhs.length = n ∧ (t.grammar.production i).lhs = 2)
      (hdrop : c.states.drop n = [0]) :
      ∃ c', c.step t silent = .more c' ∧ c'.ahead = none ∧ c'.supply.ahead = [] ∧
        c'.states = [3, 0] := by
    obtain ⟨r, hr, hgoal⟩ : ∃ r, c.valueOf silent i (c.values.take n).reverse = .ok r ∧
        r.goal = none := by
      unfold Configuration.valueOf silent
      dsimp only
      split <;> exact ⟨_, rfl, rfl⟩
    have hstep : c.step t silent = .more { c with
        states := [3, 0]
        values := r.value :: c.values.drop n
        memory := r.memory } := by
      simp [Configuration.step, hd, Configuration.reduce, hn, hr, hdrop, h.goto, hgoal]
    exact ⟨_, hstep, ha, hs, rfl⟩
  have hone : (t.grammar.production 2).rhs.length = 1 ∧ (t.grammar.production 2).lhs = 2 := by
    rw [h.grammar, endings_eq]
    decide
  have htwo : (t.grammar.production 3).rhs.length = 2 ∧ (t.grammar.production 3).lhs = 2 := by
    rw [h.grammar, endings_eq]
    decide
  rcases hstates with h0 | h1 | h3 | h5
  · have htop : c.top = 0 := by rw [Configuration.top, h0]; rfl
    obtain ⟨c', hstep, ha', hs', hstates'⟩ := hshift (htop ▸ h.first.1) (htop ▸ h.first.2)
    exact ⟨c', hstep, ha', hs', by simp [hstates', h0]⟩
  · have htop : c.top = 1 := by rw [Configuration.top, h1]; rfl
    obtain ⟨c', hstep, ha', hs', hstates'⟩ := hreduce (htop ▸ h.single) hone (by rw [h1]; rfl)
    exact ⟨c', hstep, ha', hs', by simp [hstates']⟩
  · have htop : c.top = 3 := by rw [Configuration.top, h3]; rfl
    obtain ⟨c', hstep, ha', hs', hstates'⟩ := hshift (htop ▸ h.list.1) (htop ▸ h.list.2)
    exact ⟨c', hstep, ha', hs', by simp [hstates', h3]⟩
  · have htop : c.top = 5 := by rw [Configuration.top, h5]; rfl
    obtain ⟨c', hstep, ha', hs', hstates'⟩ := hreduce (htop ▸ h.longer) htwo (by rw [h5]; rfl)
    exact ⟨c', hstep, ha', hs', by simp [hstates']⟩

/-- The grammar of endings meets both conditions, but its machine never ends: when no token is left,
it shifts ends of the input for ever. -/
theorem endings_never_end : endings.Built ∧ endings.Unreserved ∧ endings.Acyclic ∧
    endings.Unhidden ∧ ∃ t, endings.tables = .ok t ∧ ∀ n, ∃ c,
      Configuration.run t silent n { supply := supplyOf [], memory := () } = .more c := by
  obtain ⟨t, ht, hcells⟩ := endings_tables
  refine ⟨endings_built, endings_unreserved, endings_ranked.acyclic, endings_ranked.unhidden, t, ht,
    fun n => ?_⟩
  exact Configuration.run_eq_more (P := Lasting) (fun c hc => hc.step hcells) n
    ⟨rfl, rfl, Or.inl rfl⟩

end Endings

end ObjectPascal.Grammar
