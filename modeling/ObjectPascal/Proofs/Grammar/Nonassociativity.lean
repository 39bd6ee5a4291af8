import ObjectPascal.Proofs.Grammar.Precedence

/-!
Operators without associativity. A shift and a reduction on the same level empty their cell, so that
equal operators should not stand side by side. On the right they never do. On the left the tables
may still reduce: a production that is entered later finds the empty cell, and a state that is left
with one reduction takes it without a look at the token.
-/

namespace ObjectPascal.Grammar

variable {V G M : Type} {g : Grammar} {t : Tables}

section Order

/-- The reduction that a complete item asks for. -/
def reductionOf (g : Grammar) (e : Item × NatSet) : Option (Nat × NatSet) :=
  match g.next e.1 with
  | none => some (e.1.prod, e.2)
  | some _ => none

/-- The reduction that an empty production asks for. -/
def emptyReductionOf (g : Grammar) (la : NatSet) (i : Nat) : Option (Nat × NatSet) :=
  match g.next ⟨i, 0⟩ with
  | none => some (i, la)
  | some _ => none

/-- The productions that a state reduces by are those of the complete items of its closure. -/
theorem reductionsAt_perm (q : Nat) : ((g.reductionsAt q).map (·.1)).Perm
    (((g.survey.closure (g.kernelAt q)).filter fun i => (g.next i).isNone).map Item.prod) := by
  have hcomplete (l : List (Item × NatSet)) :
      (l.filterMap g.reductionOf).map (·.1) =
      ((l.map (·.1)).filter fun i => (g.next i).isNone).map Item.prod := by
    induction l with
    | nil => rfl
    | cons e l ih =>
      obtain ⟨i, la⟩ := e
      cases hi : g.next i <;> simp [reductionOf, hi, ih]
  have hvanishing (la : NatSet) (l : List Nat) :
      (l.filterMap (g.emptyReductionOf la)).map (·.1) =
      ((l.map fun i => (⟨i, 0⟩ : Item)).filter fun i => (g.next i).isNone).map Item.prod := by
    induction l with
    | nil => rfl
    | cons i l ih => cases hi : g.next ⟨i, 0⟩ <;> simp [emptyReductionOf, hi, ih]
  refine ((List.mergeSort_perm _ _).map _).trans (List.Perm.of_eq ?_)
  rw [List.map_append, Survey.closure, List.filter_append, List.map_append]
  congr 1
  · exact (hcomplete _).trans (by rw [kernelSets_fst])
  · simp only [List.map_flatMap, List.filter_flatMap, kernelSets_fst]
    exact List.flatMap_congr fun n _ => hvanishing _ _

/-- Reductions are entered in the order of their productions. -/
theorem reductionsAt_ascending (q : Nat) : (g.reductionsAt q).Pairwise fun e f => e.1 ≤ f.1 := by
  have hsorted := @List.pairwise_mergeSort _ (fun a b : Nat × NatSet => decide (a.1 ≤ b.1))
    (fun a b c hab hbc => by simp only [decide_eq_true_eq] at hab hbc ⊢; omega)
    (fun a b => by simp only [Bool.or_eq_true, decide_eq_true_eq]; omega)
  exact (hsorted _).imp fun h => of_decide_eq_true h

/-- Reductions are entered in the order of their productions, each one once. -/
theorem reductionsAt_sorted (hw : g.WellFormed) (hr : g.Unreserved) (q : Nat) :
    (g.reductionsAt q).Pairwise fun e f => e.1 < f.1 := by
  have hle := reductionsAt_ascending (g := g) q
  have hnodup : ((g.reductionsAt q).map (·.1)).Nodup := by
    rw [(reductionsAt_perm q).nodup_iff]
    refine (((isKernel_kernelAt hw hr q).closure_nodup hw hr).filter _).map_on ?_
    -- A complete item is told by its production.
    intro i hi j hj hprod
    have hdot {i : Item} (hi : i ∈ (g.survey.closure (g.kernelAt q)).filter
        fun i => (g.next i).isNone) : i.dot = (g.production i.prod).rhs.length := by
      obtain ⟨hmem, hnone⟩ := List.mem_filter.mp hi
      have hge := List.getElem?_eq_none_iff.mp (Option.isNone_iff_eq_none.mp hnone)
      refine le_antisymm ?_ hge
      rcases (mem_closure hw).mp hmem with hk | ⟨hzero, _, _⟩
      · exact (mem_items.mp ((isKernel_kernelAt hw hr q).sublist.subset hk)).2
      · rw [hzero]
        exact Nat.zero_le _
    obtain ⟨p, d⟩ := i
    obtain ⟨p', d'⟩ := j
    obtain rfl : p = p' := hprod
    rw [Item.mk.injEq]
    exact ⟨rfl, (hdot hi).trans (hdot hj).symm⟩
  exact (hle.and (List.pairwise_map.mp hnodup)).imp fun h => lt_of_le_of_ne h.1 h.2

end Order

section Cells

variable (hw : g.WellFormed) (hr : g.Unreserved) (ht : g.tables = .ok t)

include hw hr ht

/-- A production in the cell of a token that could be read and that must not stand beside it was
entered behind another one on the level of the token. -/
theorem exists_clash_of_reduce {q q' p : Nat} {k : Kind} (h : (.terminal k, q') ∈ g.stepsAt q)
    (hp : g.Clashes p k) (hact : t.action q k = .reduce p) :
    ∃ i < p, ∃ la, (i, la) ∈ g.reductionsAt q ∧ k.index ∈ la ∧ g.Clashes i k := by
  by_contra hnone
  obtain ⟨la, hmem, hk⟩ : ∃ la, (p, la) ∈ g.reductionsAt q ∧ k.index ∈ la := by
    have happ := action_applies hw hr ht q k
    rw [hact] at happ
    cases happ with
    | @reduce _ la _ hmem hk => exact ⟨la, hmem, hk⟩
  obtain ⟨before, after, hsplit⟩ := List.append_of_mem hmem
  have hsorted := reductionsAt_sorted hw hr q
  rw [hsplit, List.pairwise_append, List.pairwise_cons] at hsorted
  obtain ⟨_, ⟨hafter, _⟩, hbefore⟩ := hsorted
  obtain ⟨cs, hrow⟩ := (tables_spec ht).2.2.2.2.2.2 q (lt_of_mem_stepsAt hw hr h)
  rw [action_of_hasRow hrow] at hact
  -- In front of the production the cell is neither emptied nor given to it, so it empties the cell
  -- itself, and what is entered behind it is another production.
  refine cell_split (P := fun a => a ≠ .error ∧ a ≠ .reduce p) (Q := fun a => a ≠ .reduce p) cs
    hsplit ?_ ?_ ?_ ?_ hact
  · rw [shiftRow_of_step hw hr h]
    simp
  · rintro ⟨i, la'⟩ he a a' ha henters
    have hlt : i < p := hbefore _ he _ List.mem_cons_self
    rcases henters with ⟨_, rfl⟩ | ⟨hk', ⟨_, rfl⟩ | ⟨_, hset⟩⟩
    · exact ha
    · simp
    · cases hset with
      | error => exact absurd rfl ha.1
      | reduce | accept | keep => exact ha
      | win => simpa using Nat.ne_of_lt hlt
      | clash hclash =>
        have hi : (i, la') ∈ g.reductionsAt q := by
          rw [hsplit]
          exact List.mem_append_left _ he
        exact absurd ⟨i, hlt, la', hi, hk', hclash⟩ hnone
  · rintro a a' ha (⟨hk', _⟩ | ⟨_, ⟨_, rfl⟩ | ⟨_, hset⟩⟩)
    · exact absurd hk hk'
    · simp
    · cases hset with
      | error => exact absurd rfl ha.1
      | reduce | accept => exact ha.2
      | keep _ hfits => exact absurd hp hfits
      | win hwin => exact absurd hwin hp.not_wins
      | clash => simp
  · rintro ⟨i, la'⟩ he a a' ha henters
    have hlt : p < i := hafter _ he
    rcases henters with ⟨_, rfl⟩ | ⟨_, ⟨_, rfl⟩ | ⟨_, hset⟩⟩
    · exact ha
    · simp
    · cases hset with
      | error | win => simpa using Nat.ne_of_gt hlt
      | reduce | accept | keep => exact ha
      | clash => simp

end Cells

/-- The tables reduce by a production before a token of its level in a state in which the token
could be read. Its cell was emptied, but the state has no other action left than the reduction and
takes it on whatever token; or another production had emptied it, and this one was entered then. -/
def Tables.Slips (t : Tables) (g : Grammar) (p : Nat) (k : Kind) : Prop :=
  ∃ b b', (.terminal k, b') ∈ g.stepsAt b ∧
    ((t.action b k = .error ∧ t.defaultAt b = some p) ∨
      (t.action b k = .reduce p ∧
        ∃ i < p, ∃ la, (i, la) ∈ g.reductionsAt b ∧ k.index ∈ la ∧ g.Clashes i k))

theorem Tables.Chooses.slips (hw : g.WellFormed) (hr : g.Unreserved) (ht : g.tables = .ok t)
    {b b' p : Nat} {k : Kind} (h : t.Chooses b k p) (hstep : (.terminal k, b') ∈ g.stepsAt b)
    (hp : g.Clashes p k) : t.Slips g p k := by
  have hcell (hact : t.action b k = .reduce p) : t.Slips g p k :=
    ⟨b, b', hstep, Or.inr ⟨hact, exists_clash_of_reduce hw hr ht hstep hp hact⟩⟩
  rcases h with hd | ⟨_, hact⟩
  · rcases (default_spec hw hr ht hd).2 k with hempty | hact
    · exact ⟨b, b', hstep, Or.inl ⟨hempty, hd⟩⟩
    · exact hcell hact
  · exact hcell hact

/-- Levels are counted from one. -/
theorem Built.level_pos (hb : g.Built) {k : Kind} {p : Precedence}
    (h : g.precedenceOf k = some p) : 0 < p.level := by
  have hall : ∀ l ∈ g.levels, 0 < l.2.level := by
    clear h
    induction hb with
    | empty => simp
    | declare _ assoc tokens ih =>
      intro l hl
      rcases List.mem_append.mp hl with hl | hl
      · obtain ⟨k, _, rfl⟩ := List.mem_map.mp hl
        exact Nat.succ_pos _
      · exact ih l hl
    | @start g _ name ih =>
      have hlevels : (g.start name).levels = g.levels := g.intern_levels name
      rwa [hlevels]
    | @rule g _ lhs rhs prec ih =>
      have hlevels : (g.rule lhs rhs prec).levels = g.levels :=
        ((g.intern lhs).1.symbolsOf_levels rhs).trans (g.intern_levels lhs)
      rwa [hlevels]
  obtain ⟨l, hl, rfl⟩ := Option.map_eq_some_iff.mp h
  exact hall l (List.mem_of_find?_eq_some hl)

section Equations

/-- Equations between integers. Two of them side by side should be refused. -/
def equations : Grammar :=
  (((({} : Grammar).declare .nonassoc [.equal]).start "goal").rule "goal" [.name "expr"]).rule "expr"
    [.name "expr", .token .equal, .name "expr"] |>.rule "expr" [.token .integer]

/-- The states of the grammar of equations. -/
def equationsStates : Automaton :=
  ⟨#[[⟨0, 0⟩], [⟨3, 1⟩], [⟨0, 1⟩], [⟨1, 1⟩, ⟨2, 1⟩], [⟨2, 2⟩], [⟨2, 1⟩, ⟨2, 3⟩]],
    #[[(.terminal .integer, 1), (.nonterminal 1, 2), (.nonterminal 2, 3)], [], [],
      [(.terminal .equal, 4)], [(.terminal .integer, 1), (.nonterminal 2, 5)],
      [(.terminal .equal, 4)]]⟩

/-- The lookaheads of the grammar of equations: a side goes on or ends, but the goal only ends. -/
def equationsLookaheads : Array NatSet :=
  let last := NatSet.single Kind.eof.index
  let side := last ∪ .single Kind.equal.index
  #[last, side, last, last, side, side, side, side]

theorem equations_built : equations.Built :=
  .rule (.rule (.rule (.start (.declare .empty _ _) _) _ _ none) _ _ none) _ _ none

/-- There is a kernel for each state. -/
example : equationsStates.kernels.size = 6 := by decide +kernel

theorem equations_eq : equations = ⟨#["$accept", "goal", "expr"],
    #[⟨0, [.nonterminal 1], 0⟩, ⟨1, [.nonterminal 2], 0⟩,
      ⟨2, [.nonterminal 2, .terminal .equal, .nonterminal 2], 1⟩,
      ⟨2, [.terminal .integer], 0⟩],
    [(.equal, ⟨1, .nonassoc⟩)], 1⟩ := by
  decide +kernel

theorem equations_unreserved : equations.Unreserved := by
  rw [equations_eq]
  exact ⟨by decide, by decide⟩

theorem equations_meeting : equations.Meeting 2 2 .equal := by
  rw [equations_eq]
  exact ⟨rfl, ⟨[.nonterminal 2, .terminal .equal], rfl⟩, ⟨[.nonterminal 2], rfl⟩⟩

theorem equations_level :
    equations.precedenceOf .equal = some ⟨(equations.production 2).prec, .nonassoc⟩ := by
  rw [equations_eq]
  rfl

theorem equations_survey : equations.survey = ⟨equations,
    ⟨#[false, false, false], #[.single Kind.integer.index, .single Kind.integer.index,
      .single Kind.integer.index]⟩, #[[0], [1], [2, 3]],
    #[[⟨1, ∅, true⟩], [⟨2, ∅, true⟩], [⟨2, .single Kind.equal.index, false⟩]],
    #[⟨7⟩, ⟨6⟩, ⟨4⟩]⟩ := by
  rw [equations_eq]
  decide +kernel

theorem equations_automaton : equations.survey.automaton = equationsStates := by
  rw [Survey.automaton_eq, equations_survey, equations_eq]
  decide +kernel

/-- There is a set for each kernel item. -/
example : equationsLookaheads.size = 8 := by decide +kernel

theorem equations_lookaheads : equations.slots.lookaheads = equationsLookaheads := by
  rw [slots, equations_automaton, equations_survey, equations_eq]
  decide +kernel

/-- The cells of the tables of equations that a parse of three sides meets. Behind the second side
of an equation the cell of the equals sign is empty, but the state reduces by default. -/
structure EquationsCells (t : Tables) : Prop where
  start : t.defaultAt 0 = none ∧ t.action 0 .integer = .shift 1
  integer : t.defaultAt 1 = some 3
  goal : t.defaultAt 2 = none ∧ t.action 2 .eof = .accept
  side : t.defaultAt 3 = none ∧ t.action 3 .equal = .shift 4 ∧ t.action 3 .eof = .reduce 1
  sign : t.defaultAt 4 = none ∧ t.action 4 .integer = .shift 1
  equation : t.defaultAt 5 = some 2
  goto : t.goto 0 1 = some 2 ∧ t.goto 0 2 = some 3 ∧ t.goto 4 2 = some 5

set_option maxRecDepth 20000 in
theorem equations_tables : ∃ t, equations.tables = .ok t ∧ EquationsCells t := by
  obtain ⟨t, ht⟩ := exists_tables (g := equations) (by rw [equations_eq]; decide +kernel)
  obtain ⟨_, _, _, _, _, _, hrows⟩ := tables_spec ht
  have hcount : equations.stateCount = 6 := by rw [stateCount, equations_automaton]; rfl
  obtain ⟨_, h0⟩ := hrows 0 (by rw [hcount]; decide)
  obtain ⟨_, h1⟩ := hrows 1 (by rw [hcount]; decide)
  obtain ⟨_, h2⟩ := hrows 2 (by rw [hcount]; decide)
  obtain ⟨_, h3⟩ := hrows 3 (by rw [hcount]; decide)
  obtain ⟨_, h4⟩ := hrows 4 (by rw [hcount]; decide)
  obtain ⟨_, h5⟩ := hrows 5 (by rw [hcount]; decide)
  have hgoto {q n q' : Nat} (h : (.nonterminal n, q') ∈ equationsStates.edges.getD q []) :
      t.goto q n = some q' := by
    refine (goto_eq_some_iff equations_built.wellFormed equations_unreserved ht).mpr ?_
    rwa [stepsAt, equations_automaton]
  refine ⟨t, ht, ⟨?_, ?_⟩, ?_, ⟨?_, ?_⟩, ⟨?_, ?_, ?_⟩, ⟨?_, ?_⟩, ?_,
    hgoto (by decide), hgoto (by decide), hgoto (by decide)⟩
  all_goals
    simp only [default_of_hasRow h0, action_of_hasRow h0, default_of_hasRow h1,
      default_of_hasRow h2, action_of_hasRow h2, default_of_hasRow h3, action_of_hasRow h3,
      default_of_hasRow h4, action_of_hasRow h4, default_of_hasRow h5]
    unfold rowAt reductionsAt Survey.reductions shiftRow stepsAt kernelSets
    rw [equations_lookaheads, slots, equations_automaton, equations_survey, equations_eq]
    simp only [mergeSort_reductions]
    rfl

/-- The moves over three sides with equals signs between them: the first equation is reduced before
the second sign is read. -/
def equationsMoves (i sign : Token) : List Move :=
  [.shift i, .reduce 3, .shift sign, .shift i, .reduce 3, .reduce 2, .shift sign, .shift i,
    .reduce 3, .reduce 2, .reduce 1]

theorem EquationsCells.track (h : EquationsCells t) (ht : equations.tables = .ok t)
    (i sign : Token) (hi : i.kind = .integer) (hsign : sign.kind = .equal) :
    t.Track [] [0] (equationsMoves i sign) [2, 0] := by
  have hprods : t.grammar.production 1 = ⟨1, [.nonterminal 2], 0⟩ ∧
      t.grammar.production 2 = ⟨2, [.nonterminal 2, .terminal .equal, .nonterminal 2], 1⟩ ∧
      t.grammar.production 3 = ⟨2, [.terminal .integer], 0⟩ := by
    rw [(tables_spec ht).2.1, equations_eq]
    decide
  obtain ⟨h1, h2, h3⟩ := hprods
  obtain ⟨hgoal, hside, hequation⟩ := h.goto
  refine .shift h.start.1 (by rw [hi]; exact h.start.2) ?_
  refine .reduce (Or.inl h.integer) (by rw [h3]; exact hside) ?_
  rw [h3]
  refine .shift h.side.1 (by rw [hsign]; exact h.side.2.1) ?_
  refine .shift h.sign.1 (by rw [hi]; exact h.sign.2) ?_
  refine .reduce (Or.inl h.integer) (by rw [h3]; exact hequation) ?_
  rw [h3]
  refine .reduce (Or.inl h.equation) (by rw [h2]; exact hside) ?_
  rw [h2]
  refine .shift h.side.1 (by rw [hsign]; exact h.side.2.1) ?_
  refine .shift h.sign.1 (by rw [hi]; exact h.sign.2) ?_
  refine .reduce (Or.inl h.integer) (by rw [h3]; exact hequation) ?_
  rw [h3]
  refine .reduce (Or.inl h.equation) (by rw [h2]; exact hside) ?_
  rw [h2]
  refine .reduce (Or.inr ⟨h.side.1, h.side.2.2⟩) (by rw [h1]; exact hgoal) ?_
  rw [h1]
  exact .refl _

/-- Three integers with equals signs between them. -/
def equationsInput : Supply := supplyOf [.integer, .equal, .integer, .equal, .integer]

/-- The tree of the input: an equation whose first side is an equation. -/
def equationsTree (i sign : Token) : Tree :=
  .node 1 [.node 2 [.node 2 [.node 3 [.leaf i], .leaf sign, .node 3 [.leaf i]], .leaf sign,
    .node 3 [.leaf i]]]

theorem equations_accepts : ∃ t ms c i sign, equations.tables = .ok t ∧
    Run t silent { supply := equationsInput, memory := () } ms c ∧ c.Accepting t ∧
    equations.built ms = [equationsTree i sign] := by
  obtain ⟨t, ht, hcells⟩ := equations_tables
  have hquiet : silent.Quiet := by
    intro i reduce h
    cases h
  have htrack := hcells.track ht ⟨.integer, 1, ⟨1, 1⟩, ∅⟩ ⟨.equal, 1, ⟨1, 1⟩, ∅⟩ rfl rfl
  obtain ⟨c, hrun, hstates, hcome⟩ := htrack.run (s := silent)
    (c := { supply := equationsInput, memory := () }) rfl rfl (by decide)
    fun ms c _ i q hmove hgoto => hquiet.step_eq_more hmove hgoto
  have htop : c.top = 2 := by rw [Configuration.top, hstates]; rfl
  refine ⟨t, _, c, ⟨.integer, 1, ⟨1, 1⟩, ∅⟩, ⟨.equal, 1, ⟨1, 1⟩, ∅⟩, ht, hrun,
    ⟨by rw [htop]; exact hcells.goal.1, ?_⟩, ?_⟩
  · rw [htop, Configuration.token_kind, hcome]
    exact hcells.goal.2
  · rw [equations_eq]
    rfl

end Equations

/-- Operators without associativity and the trees of accepted inputs. Let one production end with
its nonterminal, let another one begin with it and go on with a token, and let the token be declared
without associativity on the level of the first production. Then the second one never stands at the
end of the first one, and the first one stands at the beginning of the second one only if the tables
slip. -/
theorem chains_only_by_slips (hb : g.Built) (hr : g.Unreserved) (ht : g.tables = .ok t)
    (s : Semantics V G M) (supply : Supply) (memory : M) {ms : List Move}
    {c : Configuration V G M} (h : Run t s { supply, memory } ms c) (ha : c.Accepting t) :
    ∃ tree, g.built ms = [tree] ∧ List.Forall₂ s.Computes [tree] c.values ∧ tree.Valid g ∧
      (g.production 0).rhs = [tree.root g] ∧ tree.yield = shifted ms ∧
      ∀ p q k, g.Meeting p q k →
        g.precedenceOf k = some ⟨(g.production p).prec, .nonassoc⟩ →
        (∀ before children, ¬ (Tree.node p (before ++ [.node q children])).Within tree) ∧
        ((∃ children after, (Tree.node q (.node p children :: after)).Within tree) →
          t.Slips g p k) := by
  have hw := hb.wellFormed
  obtain ⟨tree, hbuilt, hmoves, hmeets⟩ := h.meets hw hr ht ha
  have hparse := Parsing.built hw hr ht h
  rw [hbuilt] at hparse
  obtain ⟨tree', heq, hroot⟩ := hparse.accepting hw hr ht ha
  obtain rfl := (List.cons.inj heq).1
  refine ⟨tree, hbuilt, hparse.values, hmeets.valid, hroot, ?_, ?_⟩
  · rw [← hmoves, Tree.shifted_moves]
  · intro p q k hmeeting hlevel
    have hclash : g.Clashes p k := ⟨Nat.ne_of_gt (hb.level_pos hlevel), hlevel⟩
    refine ⟨fun before children hin => ?_, ?_⟩
    · obtain ⟨_, _, hbad⟩ := hmeets.within hw hr ht hin
      exact hmeeting.not_last hw hr ht (Or.inr hclash) hbad
    · rintro ⟨children, after, hin⟩
      obtain ⟨_, _, hfirst⟩ := hmeets.within hw hr ht hin
      obtain ⟨b, b', hchoice, hstep⟩ := hmeeting.chooses_of_first hw hr ht hfirst
      exact hchoice.slips hw hr ht hstep hclash

/-- Three sides are accepted in the grammar of equations, so its tables slip. -/
theorem chains_only_by_slips_equations : ∃ t ms tree, ∃ c : Configuration Unit Unit Unit,
    equations.tables = .ok t ∧ c.Accepting t ∧
    Run t silent { supply := equationsInput, memory := () } ms c ∧ equations.built ms = [tree] ∧
    equations.Meeting 2 2 .equal ∧
    equations.precedenceOf .equal = some ⟨(equations.production 2).prec, .nonassoc⟩ ∧
    (∀ before children, ¬ (Tree.node 2 (before ++ [.node 2 children])).Within tree) ∧
    t.Slips equations 2 .equal := by
  obtain ⟨t, ms, c, i, sign, ht, hrun, hacc, hbuilt⟩ := equations_accepts
  obtain ⟨tree, hbuilt', _, _, _, _, hchains⟩ :=
    chains_only_by_slips equations_built equations_unreserved ht silent _ () hrun hacc
  obtain ⟨hlast, hfirst⟩ := hchains 2 2 .equal equations_meeting equations_level
  refine ⟨t, ms, tree, c, ht, hacc, hrun, hbuilt', equations_meeting, equations_level, hlast, ?_⟩
  obtain rfl : equationsTree i sign = tree := by
    rw [hbuilt] at hbuilt'
    exact (List.cons.inj hbuilt').1
  exact hfirst ⟨_, _, .child List.mem_cons_self .refl⟩

/-- Equations can be chained on the left: three sides are accepted as an equation whose first side is
an equation, although the sign has no associativity. -/
theorem equations_chained : equations.Built ∧ equations.Unreserved ∧
    (equations.production 2).rhs = [.nonterminal 2, .terminal .equal, .nonterminal 2] ∧
    equations.Meeting 2 2 .equal ∧
    equations.precedenceOf .equal = some ⟨(equations.production 2).prec, .nonassoc⟩ ∧
    ∃ t ms, ∃ c : Configuration Unit Unit Unit, equations.tables = .ok t ∧
      Run t silent { supply := equationsInput, memory := () } ms c ∧ c.Accepting t ∧
      ∃ tree, equations.built ms = [tree] ∧
        ∃ children after, (Tree.node 2 (.node 2 children :: after)).Within tree := by
  obtain ⟨t, ms, c, i, sign, ht, hrun, hacc, hbuilt⟩ := equations_accepts
  refine ⟨equations_built, equations_unreserved, ?_, equations_meeting, equations_level, t, ms, c,
    ht, hrun, hacc, _, hbuilt, _, _, .child List.mem_cons_self .refl⟩
  rw [equations_eq]
  rfl

end ObjectPascal.Grammar
