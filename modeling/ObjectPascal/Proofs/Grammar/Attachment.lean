import ObjectPascal.Proofs.Grammar.Decisions
import ObjectPascal.Proofs.Grammar.Soundness

/-!
Productions that begin alike. Where one has been read to its end, so has the other as far, and if
the longer one goes on with a token then the token can be shifted. Unless the shorter production
wins over the token it is not reduced by there, whatever other productions end in the same state and
whether or not the state has a default reduction.
-/

namespace ObjectPascal.Grammar

variable {V G M : Type} {g : Grammar} {t : Tables} {s : Semantics V G M}

/-- Production `j` goes on with a token where production `i` for the same nonterminal ends. -/
structure Continues (g : Grammar) (i j : Nat) (k : Kind) : Prop where
  lhs : (g.production j).lhs = (g.production i).lhs
  rhs : (g.production i).rhs ++ [.terminal k] <+: (g.production j).rhs

/-- A production gives way to a token: one of them has no level, or the production is on a lower
one, or both are on the same and of two equal operators the right one binds first. -/
def GivesWay (g : Grammar) (i : Nat) (k : Kind) : Prop :=
  (g.production i).prec = 0 ∨ g.precedenceOf k = none ∨ ∃ p, g.precedenceOf k = some p ∧
    ((g.production i).prec < p.level ∨ ((g.production i).prec = p.level ∧ p.assoc = .right))

theorem not_nonassociative {k : Kind} {p : Precedence} (hp : g.precedenceOf k = some p)
    (ha : p.assoc ≠ .nonassoc) : ¬ g.Nonassociative k := by
  rintro ⟨p', hp', hnone⟩
  obtain rfl := Option.some.inj (hp.symm.trans hp')
  exact ha hnone

theorem GivesWay.not_wins {i : Nat} {k : Kind} (h : g.GivesWay i k) : ¬ g.Wins i k := by
  rintro ⟨hzero, p, hp, hwins⟩
  rcases h with hnone | hnone | ⟨p', hp', hgives⟩
  · exact hzero hnone
  · rw [hnone] at hp
    cases hp
  · obtain rfl := Option.some.inj (hp.symm.trans hp')
    rcases hwins with hlt | ⟨heq, hleft⟩ <;> rcases hgives with hlt' | ⟨heq', hright⟩
    · omega
    · omega
    · omega
    · rw [hleft] at hright
      cases hright

section Siblings

variable (hw : g.WellFormed) (hr : g.Unreserved)

include hw hr

/-- Productions for one nonterminal that begin with the same symbols have been read together. -/
theorem mem_closure_of_sibling {states : List Nat} {xs : List Symbol}
    (h : g.survey.automaton.Path states xs) {i j d : Nat} (hi : i ≠ 0)
    (hj : j < g.productions.size) (hlhs : (g.production j).lhs = (g.production i).lhs)
    (hbegin : (g.production j).rhs.take d = (g.production i).rhs.take d)
    (hmem : ⟨i, d⟩ ∈ g.survey.closure (g.kernelAt (states.headD 0))) :
    ⟨j, d⟩ ∈ g.survey.closure (g.kernelAt (states.headD 0)) := by
  -- The induction follows the stack downwards, to the state in which both stand at their beginning.
  induction d generalizing states xs with
  | zero =>
    rcases (mem_closure hw).mp hmem with hkernel | ⟨_, _, hexp⟩
    · exact absurd ((isKernel_kernelAt hw hr _).zero_of_dot _ hkernel rfl) hi
    · exact (mem_closure hw).mpr (Or.inr ⟨rfl, hj, by rwa [hlhs]⟩)
  | succ d ih =>
    have hkernel : ⟨i, d + 1⟩ ∈ g.kernelAt (states.headD 0) := by
      rcases (mem_closure hw).mp hmem with hk | ⟨hdot, _⟩
      · exact hk
      · cases hdot
    cases h with
    | bottom =>
      rw [List.headD_cons, kernelAt_zero hw hr, List.mem_singleton] at hkernel
      cases hkernel
    | @push p ps xs x q h he =>
      obtain ⟨⟨i', e⟩, hbelow, hnext, heq⟩ := (mem_kernelAt_of_step hw hr he).mp hkernel
      obtain ⟨rfl, hde⟩ := Item.mk.inj heq
      obtain rfl : d = e := Nat.succ.inj hde
      have htake : (g.production j).rhs.take d = (g.production i).rhs.take d := by
        have hless := congrArg (List.take d) hbegin
        rwa [List.take_take, List.take_take, Nat.min_eq_left (Nat.le_succ d)] at hless
      have hsame : g.next ⟨j, d⟩ = g.next ⟨i, d⟩ := by
        have hget := congrArg (fun l : List Symbol => l[d]?) hbegin
        simpa only [next, List.getElem?_take, Nat.lt_succ_self, ↓reduceIte] using hget
      have hread : ⟨j, d⟩ ∈ g.survey.closure (g.kernelAt p) := ih h htake hbelow
      have hstep : ⟨j, d + 1⟩ ∈ g.kernelAt q :=
        (mem_kernelAt_of_step hw hr he).mpr ⟨⟨j, d⟩, hread, hsame.trans hnext, rfl⟩
      exact (mem_closure hw).mpr (Or.inl hstep)

/-- A token with which another production goes on can be shifted. -/
theorem Continues.exists_step {states : List Nat} {xs : List Symbol}
    (hp : g.survey.automaton.Path states xs) {i j : Nat} {k : Kind} (h : g.Continues i j k)
    (hi : i ≠ 0)
    (hmem : ⟨i, (g.production i).rhs.length⟩ ∈ g.survey.closure (g.kernelAt (states.headD 0))) :
    ∃ q, (.terminal k, q) ∈ g.stepsAt (states.headD 0) := by
  obtain ⟨rest, hrest⟩ := h.rhs
  have hj : j < g.productions.size := by
    by_contra hsize
    rw [production_of_size_le (Nat.not_lt.mp hsize)] at hrest
    simp at hrest
  have hbegin : (g.production j).rhs.take (g.production i).rhs.length =
      (g.production i).rhs.take (g.production i).rhs.length := by
    rw [← hrest, List.append_assoc, List.take_left, List.take_length]
  have hread := mem_closure_of_sibling hw hr hp hi hj h.lhs hbegin hmem
  refine Grammar.exists_step hw hr hread ?_
  rw [next, ← hrest]
  simp

/-- Where a production ends that gives way to a token, and another one goes on with the token, the
tables do not reduce by the first. -/
theorem Continues.not_chooses (ht : g.tables = .ok t) {states : List Nat} {xs : List Symbol}
    (hp : g.survey.automaton.Path states xs) {i j : Nat} {k : Kind} (h : g.Continues i j k)
    (hk : ¬ g.Nonassociative k) (hi : g.GivesWay i k) : ¬ t.Chooses (states.headD 0) k i := by
  intro hchooses
  obtain ⟨hne, hmem⟩ := hchooses.reduces.complete hw hr ht
  obtain ⟨q, hq⟩ := h.exists_step hw hr hp hne hmem
  obtain ⟨herror, hreduce⟩ := action_of_not_wins hw hr ht hq hk hi.not_wins
  rcases hchooses with hdefault | ⟨_, haction⟩
  -- A default reduction stands in a state that has no other action, so there is no shift either.
  · rcases (default_spec hw hr ht hdefault).2 k with hnone | haction
    · exact herror hnone
    · exact hreduce haction
  · exact hreduce haction

/-- Wherever a run leads, its next step is not a reduction by a production that gives way to the
next token while another one goes on with it. -/
theorem Continues.move_ne (ht : g.tables = .ok t) {supply : Supply} {memory : M}
    {ms : List Move} {c : Configuration V G M} (hrun : Run t s { supply, memory } ms c)
    {i j : Nat} (h : g.Continues i j c.token.kind) (hk : ¬ g.Nonassociative c.token.kind)
    (hi : g.GivesWay i c.token.kind) : c.move? t ≠ some (.reduce i) := by
  obtain ⟨ts, hts⟩ := Parsing.of_run hw hr ht hrun
  intro hmove
  exact h.not_chooses hw hr ht hts.path hk hi (Configuration.chooses_of_move hmove)

end Siblings

section Conditionals

/-- Conditionals of integers, with an else part or without one. -/
def conditionals : Grammar :=
  ((((({} : Grammar).declare .right [.IF, .ELSE]).start "stmt").rule "stmt"
    [.token .IF, .name "stmt"]).rule "stmt"
    [.token .IF, .name "stmt", .token .ELSE, .name "stmt"]).rule "stmt" [.token .integer]

/-- The states of the grammar of conditionals. -/
def conditionalsStates : Automaton :=
  ⟨#[[⟨0, 0⟩], [⟨1, 1⟩, ⟨2, 1⟩], [⟨3, 1⟩], [⟨0, 1⟩], [⟨1, 2⟩, ⟨2, 2⟩], [⟨2, 3⟩], [⟨2, 4⟩]],
    #[[(.terminal .IF, 1), (.terminal .integer, 2), (.nonterminal 1, 3)],
      [(.terminal .IF, 1), (.terminal .integer, 2), (.nonterminal 1, 4)], [], [],
      [(.terminal .ELSE, 5)], [(.terminal .IF, 1), (.terminal .integer, 2), (.nonterminal 1, 6)],
      []]⟩

/-- The lookaheads of the grammar of conditionals: an else part or the end. -/
def conditionalsLookaheads : Array NatSet :=
  let last := NatSet.single Kind.eof.index
  let inner := last ∪ .single Kind.ELSE.index
  #[last, inner, inner, inner, last, inner, inner, inner, inner]

theorem conditionals_built : conditionals.Built :=
  .rule (.rule (.rule (.start (.declare .empty _ _) _) _ _ none) _ _ none) _ _ none

/-- There is a kernel for each state. -/
example : conditionalsStates.kernels.size = 7 := by decide +kernel

theorem conditionals_eq : conditionals = ⟨#["$accept", "stmt"],
    #[⟨0, [.nonterminal 1], 0⟩, ⟨1, [.terminal .IF, .nonterminal 1], 1⟩,
      ⟨1, [.terminal .IF, .nonterminal 1, .terminal .ELSE, .nonterminal 1], 1⟩,
      ⟨1, [.terminal .integer], 0⟩],
    [(.ELSE, ⟨1, .right⟩), (.IF, ⟨1, .right⟩)], 1⟩ := by
  decide +kernel

theorem conditionals_unreserved : conditionals.Unreserved := by
  rw [conditionals_eq]
  exact ⟨by decide, by decide⟩

theorem conditionals_survey : conditionals.survey = ⟨conditionals,
    ⟨#[false, false], #[.single Kind.IF.index ∪ .single Kind.integer.index,
      .single Kind.IF.index ∪ .single Kind.integer.index]⟩,
    #[[0], [1, 2, 3]], #[[⟨1, ∅, true⟩], []], #[⟨3⟩, ⟨2⟩]⟩ := by
  rw [conditionals_eq]
  decide +kernel

theorem conditionals_automaton : conditionals.survey.automaton = conditionalsStates := by
  rw [Survey.automaton_eq, conditionals_survey, conditionals_eq]
  decide +kernel

/-- There is a set for each kernel item. -/
example : conditionalsLookaheads.size = 9 := by decide +kernel

theorem conditionals_lookaheads : conditionals.slots.lookaheads = conditionalsLookaheads := by
  rw [slots, conditionals_automaton, conditionals_survey, conditionals_eq]
  decide +kernel

/-- The cells of the tables of conditionals that a parse up to an else part meets. -/
structure ConditionalsCells (t : Tables) : Prop where
  grammar : t.grammar = conditionals
  start : t.defaultAt 0 = none ∧ t.action 0 .IF = .shift 1
  test : t.defaultAt 1 = none ∧ t.action 1 .integer = .shift 2
  integer : t.defaultAt 2 = some 3
  goto : t.goto 1 1 = some 4

set_option maxRecDepth 20000 in
theorem conditionals_tables : ∃ t, conditionals.tables = .ok t ∧ ConditionalsCells t := by
  obtain ⟨t, ht⟩ := exists_tables (g := conditionals) (by rw [conditionals_eq]; decide +kernel)
  obtain ⟨_, hg, _, _, _, _, hrows⟩ := tables_spec ht
  have hcount : conditionals.stateCount = 7 := by rw [stateCount, conditionals_automaton]; rfl
  obtain ⟨_, h0⟩ := hrows 0 (by rw [hcount]; decide)
  obtain ⟨_, h1⟩ := hrows 1 (by rw [hcount]; decide)
  obtain ⟨_, h2⟩ := hrows 2 (by rw [hcount]; decide)
  have hgoto : t.goto 1 1 = some 4 := by
    refine (goto_eq_some_iff conditionals_built.wellFormed conditionals_unreserved ht).mpr ?_
    rw [stepsAt, conditionals_automaton]
    decide
  refine ⟨t, ht, hg, ⟨?_, ?_⟩, ⟨?_, ?_⟩, ?_, hgoto⟩
  all_goals
    simp only [default_of_hasRow h0, action_of_hasRow h0, default_of_hasRow h1,
      action_of_hasRow h1, default_of_hasRow h2]
    unfold rowAt reductionsAt Survey.reductions shiftRow stepsAt kernelSets
    rw [conditionals_lookaheads, slots, conditionals_automaton, conditionals_survey,
      conditionals_eq]
    simp only [mergeSort_reductions]
    rfl

/-- The tables read a conditional up to an else part. -/
theorem ConditionalsCells.track (h : ConditionalsCells t) (test i : Token) (ts : List Token)
    (htest : test.kind = .IF) (hi : i.kind = .integer) :
    t.Track ts [0] [.shift test, .shift i, .reduce 3] [4, 1, 0] := by
  have hprod : t.grammar.production 3 = ⟨1, [.terminal .integer], 0⟩ := by
    rw [h.grammar, conditionals_eq]
    rfl
  refine .shift h.start.1 (by rw [htest]; exact h.start.2) ?_
  refine .shift h.test.1 (by rw [hi]; exact h.test.2) ?_
  refine .reduce (Or.inl h.integer) (by rw [hprod]; exact h.goto) ?_
  rw [hprod]
  exact .refl _

/-- A conditional with an else part. -/
def conditionalsInput : Supply := supplyOf [.IF, .integer, .ELSE, .integer]

theorem conditionals_meet_else : ∃ t ms c, conditionals.tables = .ok t ∧
    Run t silent { supply := conditionalsInput, memory := () } ms c ∧ c.states = [4, 1, 0] ∧
    c.token.kind = .ELSE := by
  obtain ⟨t, ht, hcells⟩ := conditionals_tables
  have hquiet : silent.Quiet := by
    intro i reduce h
    cases h
  have htrack := hcells.track ⟨.IF, 1, ⟨1, 1⟩, ∅⟩ ⟨.integer, 1, ⟨1, 1⟩, ∅⟩
    [⟨.ELSE, 1, ⟨1, 1⟩, ∅⟩, ⟨.integer, 1, ⟨1, 1⟩, ∅⟩] rfl rfl
  obtain ⟨c, hrun, hstates, hcome⟩ := htrack.run (s := silent)
    (c := { supply := conditionalsInput, memory := () }) rfl rfl (by decide)
    fun ms c _ i q hmove hgoto => hquiet.step_eq_more hmove hgoto
  refine ⟨t, _, c, ht, hrun, hstates, ?_⟩
  rw [Configuration.token_kind, hcome]
  rfl

end Conditionals

end ObjectPascal.Grammar
