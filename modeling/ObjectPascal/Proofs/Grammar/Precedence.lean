import ObjectPascal.Proofs.Grammar.Decisions
import ObjectPascal.Proofs.Grammar.Soundness

/-!
Precedence in parse trees. Let one production of a nonterminal end with it, and let another begin
with it and go on with a token. In every state behind the first one both can go on, so that their
reduction and shift meet in one cell, and whichever wins there decides which of the two can stand
below the other.
-/

namespace ObjectPascal.Grammar

variable {V G M : Type} {g : Grammar} {t : Tables} {s : Semantics V G M}

/-- A tree is the other one or stands somewhere below its root. -/
inductive Tree.Within (x : Tree) : Tree → Prop
  | refl : Within x x
  | child {i : Nat} {children : List Tree} {tree : Tree} (hc : tree ∈ children)
      (h : Within x tree) : Within x (.node i children)

/-- The tables come to every tree within one that they come to. -/
theorem Tables.Meets.within (hw : g.WellFormed) (hr : g.Unreserved) (ht : g.tables = .ok t)
    {x tree : Tree} (h : x.Within tree) {ts : List Token} {a : List Nat}
    (hm : t.Meets g ts a tree) : ∃ ts' a', t.Meets g ts' a' x := by
  induction h generalizing ts a with
  | refl => exact ⟨ts, a, hm⟩
  | child hc _ ih =>
    obtain ⟨before, after, rfl⟩ := List.append_of_mem hc
    obtain ⟨b, _, hchild⟩ := hm.child hw hr ht
    exact ih hchild

theorem Climbs.split {a b : List Nat} {xs ys : List Symbol} (h : g.Climbs a (xs ++ ys) b) :
    ∃ c, g.Climbs a xs c ∧ g.Climbs c ys b := by
  induction xs generalizing a with
  | nil => exact ⟨a, .refl a, h⟩
  | cons x xs ih =>
    cases h with
    | step hq h =>
      obtain ⟨c, hc, hb⟩ := ih h
      exact ⟨c, .step hq hc, hb⟩

/-- Production `p` ends with its own nonterminal, and production `q` of the same nonterminal begins
with it and goes on with token `k`. -/
structure Meeting (g : Grammar) (p q : Nat) (k : Kind) : Prop where
  lhs : (g.production q).lhs = (g.production p).lhs
  ends : ∃ front, (g.production p).rhs = front ++ [.nonterminal (g.production p).lhs]
  begins : ∃ back, (g.production q).rhs = .nonterminal (g.production q).lhs :: .terminal k :: back

namespace Meeting

variable {p q : Nat} {k : Kind}

/-- A tree of the second production has a token of the kind behind its first child. -/
theorem exists_leaf (h : g.Meeting p q k) {children : List Tree}
    (hv : (Tree.node q children).Valid g) :
    ∃ first token rest, children = first :: .leaf token :: rest ∧ token.kind = k ∧
      first.root g = .nonterminal (g.production p).lhs := by
  obtain ⟨back, hback⟩ := h.begins
  cases hv with
  | node _ _ _ hroots _ =>
    rw [hback, h.lhs] at hroots
    obtain ⟨first, rest, rfl, hfirst, hrest⟩ := List.map_eq_cons_iff.mp hroots
    obtain ⟨second, rest, rfl, hsecond, _⟩ := List.map_eq_cons_iff.mp hrest
    cases second with
    | leaf token => exact ⟨first, token, rest, rfl, Symbol.terminal.inj hsecond, hfirst⟩
    | node i children => cases hsecond

theorem next_zero (h : g.Meeting p q k) :
    g.next ⟨q, 0⟩ = some (.nonterminal (g.production p).lhs) := by
  obtain ⟨back, hback⟩ := h.begins
  rw [next, hback, h.lhs]
  rfl

theorem next_one (h : g.Meeting p q k) : g.next ⟨q, 1⟩ = some (.terminal k) := by
  obtain ⟨back, hback⟩ := h.begins
  rw [next, hback]
  rfl

/-- The second production begins with the token behind its nonterminal, so what is expected of its
own nonterminal there expects the token. -/
theorem follows (h : g.Meeting p q k) (j : Nat) : g.Follows ⟨q, 0⟩ j k.index := by
  obtain ⟨back, hback⟩ := h.begins
  left
  rw [rest, hback]
  exact NatSet.mem_single.mpr rfl

/-- Where the first production wins over the token or must not stand beside it, the second one does
not stand at its end: the first one begins where the second one does, so that it expects the token,
and behind itself it keeps the token from being shifted. -/
theorem not_last (hw : g.WellFormed) (hr : g.Unreserved) (ht : g.tables = .ok t)
    (h : g.Meeting p q k) (hwin : g.Wins p k ∨ g.Clashes p k) {ts : List Token} {a : List Nat}
    {before children : List Tree} :
    ¬ t.Meets g ts a (.node p (before ++ [.node q children])) := by
  intro hm
  obtain ⟨i, j, hexp, hnext, hfollows⟩ := hm.awaits
  obtain ⟨b, hclimb, hq⟩ := hm.child hw hr ht
  obtain ⟨first, token, rest, rfl, rfl, hfirst⟩ := h.exists_leaf hq.valid
  obtain ⟨front, hfront⟩ := h.ends
  obtain ⟨hp, hbefore⟩ : p < g.productions.size ∧ before.map (Tree.root g) = front := by
    cases hm.valid with
    | node _ _ hp hroots _ =>
      rw [hfront, List.map_append] at hroots
      exact ⟨hp, (List.append_inj' hroots rfl).1⟩
  have hqlt : q < g.productions.size := by
    cases hq.valid with
    | node _ _ hq _ _ => exact hq
  rw [hbefore] at hclimb
  -- Behind its first child the second production shifts the token.
  obtain ⟨_, c, hrest, _⟩ := hq.node hw hr
  obtain ⟨_, y, hy, _, hrest⟩ := hrest.cons hw hr ht
  obtain ⟨hleaf, _⟩ := hrest.cons hw hr ht
  obtain ⟨q', hshift⟩ := hleaf.leaf
  -- In the same state the first production is complete and expects the token.
  have hexp_q : g.Expects (a.headD 0) ⟨q, 0⟩ (following ts).index := by
    refine .closure hexp hqlt ?_ hfollows
    rw [h.lhs]
    exact hnext
  have hexp_p : g.Expects (a.headD 0) ⟨p, 0⟩ token.kind.index :=
    .closure hexp_q hp h.next_zero (h.follows _)
  have hlast := hclimb.expects hw hr hexp_p (by rw [hfront]; exact List.prefix_append _ _)
  have hnext_last : g.next ⟨p, 0 + front.length⟩ = some (first.root g) := by
    rw [Nat.zero_add, next, hfront, hfirst]
    simp
  have hcomplete := hlast.step hw hr hnext_last hy
  obtain ⟨la, hmem, hla⟩ := hcomplete.reduction hw (by simp [next, hfront])
  exact action_ne_shift hw hr ht hmem hla hwin q' hshift

/-- Where the first production stands at the beginning of the second one, the tables reduce by it
while the token comes, and in a state in which the token could be read. -/
theorem chooses_of_first (hw : g.WellFormed) (hr : g.Unreserved) (ht : g.tables = .ok t)
    (h : g.Meeting p q k) {ts : List Token} {a : List Nat} {after children : List Tree}
    (hm : t.Meets g ts a (.node q (.node p children :: after))) :
    ∃ b b', t.Chooses b k p ∧ (.terminal k, b') ∈ g.stepsAt b := by
  obtain ⟨first, token, others, heq, rfl, _⟩ := h.exists_leaf hm.valid
  obtain ⟨rfl, rfl⟩ := List.cons.inj heq
  have hqlt : q < g.productions.size := by
    cases hm.valid with
    | node _ _ hq _ _ => exact hq
  obtain ⟨_, _, hrest, _⟩ := hm.node hw hr
  obtain ⟨hp, _⟩ := hrest.cons hw hr ht
  obtain ⟨_, b, hchildren, hchoice, _⟩ := hp.node hw hr
  -- The tables reduce by the first production while the token comes.
  rw [List.flatMap_cons, Tree.yield_leaf, List.append_assoc] at hchildren hchoice
  have hchoice : t.Chooses (b.headD 0) token.kind p := hchoice
  -- But in the same state the second production is behind its nonterminal.
  obtain ⟨front, hfront⟩ := h.ends
  have hclimb := hchildren.climbs hw hr ht
  rw [← hchildren.awaits.roots, List.drop_zero, hfront] at hclimb
  obtain ⟨c, hc, hb⟩ := hclimb.split
  have hlast : g.Expects (c.headD 0) ⟨p, 0 + front.length⟩ token.kind.index :=
    hc.expects hw hr hchildren.awaits.expects (by rw [hfront]; exact List.prefix_append _ _)
  have hnext_last : g.next ⟨p, 0 + front.length⟩ =
      some (.nonterminal (g.production p).lhs) := by
    rw [Nat.zero_add, next, hfront]
    simp
  have hexp_q : g.Expects (c.headD 0) ⟨q, 0⟩ token.kind.index := by
    refine .closure hlast hqlt ?_ (Or.inr ⟨?_, rfl⟩)
    · rw [h.lhs]
      exact hnext_last
    · simp [Grammar.rest, hfront, First.derivesEmpty]
  cases hb with
  | step hy hend =>
    cases hend with
    | refl =>
      have hone := hexp_q.step hw hr h.next_zero hy
      obtain ⟨b', hb'⟩ := exists_step hw hr (hone.mem_closure hw) h.next_one
      exact ⟨_, b', hchoice, hb'⟩

/-- Where the first production does not win over the token, it does not stand at the beginning of
the second one: behind it the token can be shifted, so that the tables do not reduce by it. -/
theorem not_first (hw : g.WellFormed) (hr : g.Unreserved) (ht : g.tables = .ok t)
    (h : g.Meeting p q k) (hlose : ¬ g.Wins p k) (hn : ¬ g.Nonassociative k) {ts : List Token}
    {a : List Nat} {after children : List Tree} :
    ¬ t.Meets g ts a (.node q (.node p children :: after)) := by
  intro hm
  obtain ⟨b, b', hchoice, hb'⟩ := h.chooses_of_first hw hr ht hm
  obtain ⟨hne, hnr⟩ := action_of_not_wins hw hr ht hb' hn hlose
  rcases hchoice with hd | ⟨_, hact⟩
  · rcases (default_spec hw hr ht hd).2 k with hact | hact
    · exact hne hact
    · exact hnr hact
  · exact hnr hact

end Meeting

/-- The operators of a tree group by their levels. Where a production wins over a token, what goes
on with the token does not stand at its end; where it loses, it does not stand before the token. -/
def Tree.Grouped (g : Grammar) (tree : Tree) : Prop :=
  ∀ (p q : Nat) (k : Kind) (prec : Precedence), g.Meeting p q k → (g.production p).prec ≠ 0 →
    g.precedenceOf k = some prec → prec.assoc ≠ .nonassoc →
    ((prec.level < (g.production p).prec ∨
        ((g.production p).prec = prec.level ∧ prec.assoc = .left)) →
      ∀ before children, ¬ (Tree.node p (before ++ [.node q children])).Within tree) ∧
    (((g.production p).prec < prec.level ∨
        ((g.production p).prec = prec.level ∧ prec.assoc = .right)) →
      ∀ children after, ¬ (Tree.node q (.node p children :: after)).Within tree)

/-- The tree that a run builds until the tables accept is grouped by levels. -/
theorem Run.grouped (hw : g.WellFormed) (hr : g.Unreserved) (ht : g.tables = .ok t)
    {supply : Supply} {memory : M} {ms : List Move} {c : Configuration V G M}
    (h : Run t s { supply, memory } ms c) (ha : c.Accepting t) :
    ∃ tree, g.built ms = [tree] ∧ List.Forall₂ s.Computes [tree] c.values ∧ tree.Grouped g := by
  obtain ⟨tree, hbuilt, _, hmeets⟩ := h.meets hw hr ht ha
  have hvalues := (Parsing.built hw hr ht h).values
  rw [hbuilt] at hvalues
  refine ⟨tree, hbuilt, hvalues, ?_⟩
  intro p q k prec hmeeting hzero hprec hassoc
  refine ⟨fun hlevel before children hin => ?_, fun hlevel children after hin => ?_⟩
  · have hwin : g.Wins p k := ⟨hzero, prec, hprec, hlevel.imp_right fun h => ⟨h.1.symm, h.2⟩⟩
    obtain ⟨_, _, hbad⟩ := hmeets.within hw hr ht hin
    exact hmeeting.not_last hw hr ht (Or.inl hwin) hbad
  · have hlose : ¬ g.Wins p k := by
      rintro ⟨_, prec', hprec', hlevel'⟩
      obtain rfl := Option.some.inj (hprec.symm.trans hprec')
      rcases hlevel with hlevel | ⟨hlevel, hright⟩
      · omega
      · rcases hlevel' with hlevel' | ⟨_, hleft⟩
        · omega
        · rw [hright] at hleft
          cases hleft
    have hn : ¬ g.Nonassociative k := by
      rintro ⟨prec', hprec', hnon⟩
      obtain rfl := Option.some.inj (hprec.symm.trans hprec')
      exact hassoc hnon
    obtain ⟨_, _, hbad⟩ := hmeets.within hw hr ht hin
    exact hmeeting.not_first hw hr ht hlose hn hbad

section Terms

/-- Sums and products of integers; a product binds tighter. -/
def terms : Grammar :=
  (((((({} : Grammar).declare .left [.plus]).declare .left [.star]).start "term").rule "term"
    [.token .integer]).rule "term" [.name "term", .token .plus, .name "term"]).rule "term"
    [.name "term", .token .star, .name "term"]

/-- The states of the grammar of terms. -/
def termsStates : Automaton :=
  ⟨#[[⟨0, 0⟩], [⟨1, 1⟩], [⟨0, 1⟩, ⟨2, 1⟩, ⟨3, 1⟩], [⟨2, 2⟩], [⟨3, 2⟩],
      [⟨2, 1⟩, ⟨2, 3⟩, ⟨3, 1⟩], [⟨2, 1⟩, ⟨3, 1⟩, ⟨3, 3⟩]],
    #[[(.terminal .integer, 1), (.nonterminal 1, 2)], [],
      [(.terminal .plus, 3), (.terminal .star, 4)], [(.terminal .integer, 1), (.nonterminal 1, 5)],
      [(.terminal .integer, 1), (.nonterminal 1, 6)], [(.terminal .plus, 3), (.terminal .star, 4)],
      [(.terminal .plus, 3), (.terminal .star, 4)]]⟩

/-- The lookaheads of the grammar of terms: an operator or the end, but the start item only ends. -/
def termsLookaheads : Array NatSet :=
  let last := NatSet.single Kind.eof.index
  let inner := last ∪ .single Kind.plus.index ∪ .single Kind.star.index
  #[last, inner, last, inner, inner, inner, inner, inner, inner, inner, inner, inner, inner]

theorem terms_built : terms.Built :=
  .rule (.rule (.rule (.start (.declare (.declare .empty _ _) _ _) _) _ _ none) _ _ none) _ _ none

/-- Two operators, the operand and the start. -/
example : terms.productions.size = 4 := by decide +kernel

theorem terms_eq : terms = ⟨#["$accept", "term"],
    #[⟨0, [.nonterminal 1], 0⟩, ⟨1, [.terminal .integer], 0⟩,
      ⟨1, [.nonterminal 1, .terminal .plus, .nonterminal 1], 1⟩,
      ⟨1, [.nonterminal 1, .terminal .star, .nonterminal 1], 2⟩],
    [(.star, ⟨2, .left⟩), (.plus, ⟨1, .left⟩)], 2⟩ := by
  decide +kernel

theorem terms_unreserved : terms.Unreserved := by
  rw [terms_eq]
  exact ⟨by decide, by decide⟩

theorem terms_survey : terms.survey = ⟨terms,
    ⟨#[false, false], #[.single Kind.integer.index, .single Kind.integer.index]⟩, #[[0], [1, 2, 3]],
    #[[⟨1, ∅, true⟩], [⟨1, .single Kind.plus.index, false⟩, ⟨1, .single Kind.star.index, false⟩]],
    #[⟨3⟩, ⟨2⟩]⟩ := by
  rw [terms_eq]
  decide +kernel

theorem terms_automaton : terms.survey.automaton = termsStates := by
  rw [Survey.automaton_eq, terms_survey, terms_eq]
  decide +kernel

theorem terms_lookaheads : terms.slots.lookaheads = termsLookaheads := by
  rw [slots, terms_automaton, terms_survey, terms_eq]
  decide +kernel

/-- The cells of the tables of terms that a parse of a sum with a product meets. -/
structure TermsCells (t : Tables) : Prop where
  grammar : t.grammar = terms
  start : t.defaultAt 0 = none ∧ t.action 0 .integer = .shift 1
  integer : t.defaultAt 1 = some 1
  whole : t.defaultAt 2 = none ∧ t.action 2 .plus = .shift 3 ∧ t.action 2 .eof = .accept
  summand : t.defaultAt 3 = none ∧ t.action 3 .integer = .shift 1
  factor : t.defaultAt 4 = none ∧ t.action 4 .integer = .shift 1
  sum : t.defaultAt 5 = none ∧ t.action 5 .star = .shift 4 ∧ t.action 5 .eof = .reduce 2
  product : t.defaultAt 6 = some 3
  goto : t.goto 0 1 = some 2 ∧ t.goto 3 1 = some 5 ∧ t.goto 4 1 = some 6

set_option maxRecDepth 20000 in
theorem terms_tables : ∃ t, terms.tables = .ok t ∧ TermsCells t := by
  obtain ⟨t, ht⟩ := exists_tables (g := terms) (by rw [terms_eq]; decide +kernel)
  obtain ⟨_, hg, _, _, _, _, hrows⟩ := tables_spec ht
  have hcount : terms.stateCount = 7 := by rw [stateCount, terms_automaton]; rfl
  obtain ⟨_, h0⟩ := hrows 0 (by rw [hcount]; decide)
  obtain ⟨_, h1⟩ := hrows 1 (by rw [hcount]; decide)
  obtain ⟨_, h2⟩ := hrows 2 (by rw [hcount]; decide)
  obtain ⟨_, h3⟩ := hrows 3 (by rw [hcount]; decide)
  obtain ⟨_, h4⟩ := hrows 4 (by rw [hcount]; decide)
  obtain ⟨_, h5⟩ := hrows 5 (by rw [hcount]; decide)
  obtain ⟨_, h6⟩ := hrows 6 (by rw [hcount]; decide)
  have hgoto {q q' : Nat} (h : (.nonterminal 1, q') ∈ termsStates.edges.getD q []) :
      t.goto q 1 = some q' := by
    refine (goto_eq_some_iff terms_built.wellFormed terms_unreserved ht).mpr ?_
    rwa [stepsAt, terms_automaton]
  refine ⟨t, ht, hg, ⟨?_, ?_⟩, ?_, ⟨?_, ?_, ?_⟩, ⟨?_, ?_⟩, ⟨?_, ?_⟩, ⟨?_, ?_, ?_⟩, ?_,
    hgoto (by decide), hgoto (by decide), hgoto (by decide)⟩
  all_goals
    simp only [default_of_hasRow h0, action_of_hasRow h0, default_of_hasRow h1,
      default_of_hasRow h2, action_of_hasRow h2, default_of_hasRow h3, action_of_hasRow h3,
      default_of_hasRow h4, action_of_hasRow h4, default_of_hasRow h5, action_of_hasRow h5,
      default_of_hasRow h6]
    unfold rowAt reductionsAt Survey.reductions shiftRow stepsAt kernelSets
    rw [terms_lookaheads, slots, terms_automaton, terms_survey, terms_eq]
    simp only [mergeSort_reductions]
    rfl

/-- The tables reduce the product before the sum. -/
theorem TermsCells.track (h : TermsCells t) (i plus star : Token) (hi : i.kind = .integer)
    (hplus : plus.kind = .plus) (hstar : star.kind = .star) :
    t.Track [] [0] [.shift i, .reduce 1, .shift plus, .shift i, .reduce 1, .shift star, .shift i,
      .reduce 1, .reduce 3, .reduce 2] [2, 0] := by
  have hprods : t.grammar.production 1 = ⟨1, [.terminal .integer], 0⟩ ∧
      t.grammar.production 2 = ⟨1, [.nonterminal 1, .terminal .plus, .nonterminal 1], 1⟩ ∧
      t.grammar.production 3 = ⟨1, [.nonterminal 1, .terminal .star, .nonterminal 1], 2⟩ := by
    rw [h.grammar, terms_eq]
    decide
  obtain ⟨h1, h2, h3⟩ := hprods
  obtain ⟨hstart, hsummand, hfactor⟩ := h.goto
  refine .shift h.start.1 (by rw [hi]; exact h.start.2) ?_
  refine .reduce (Or.inl h.integer) (by rw [h1]; exact hstart) ?_
  rw [h1]
  refine .shift h.whole.1 (by rw [hplus]; exact h.whole.2.1) ?_
  refine .shift h.summand.1 (by rw [hi]; exact h.summand.2) ?_
  refine .reduce (Or.inl h.integer) (by rw [h1]; exact hsummand) ?_
  rw [h1]
  refine .shift h.sum.1 (by rw [hstar]; exact h.sum.2.1) ?_
  refine .shift h.factor.1 (by rw [hi]; exact h.factor.2) ?_
  refine .reduce (Or.inl h.integer) (by rw [h1]; exact hfactor) ?_
  rw [h1]
  refine .reduce (Or.inl h.product) (by rw [h3]; exact hsummand) ?_
  rw [h3]
  refine .reduce (Or.inr ⟨h.sum.1, h.sum.2.2⟩) (by rw [h2]; exact hstart) ?_
  rw [h2]
  exact .refl _

/-- A sum with a product. -/
def termsInput : Supply := supplyOf [.integer, .plus, .integer, .star, .integer]

theorem terms_accepts : ∃ t ms c, terms.tables = .ok t ∧
    Run t silent { supply := termsInput, memory := () } ms c ∧ c.Accepting t := by
  obtain ⟨t, ht, hcells⟩ := terms_tables
  have hquiet : silent.Quiet := by
    intro i reduce h
    cases h
  have htrack := hcells.track ⟨.integer, 1, ⟨1, 1⟩, ∅⟩ ⟨.plus, 1, ⟨1, 1⟩, ∅⟩ ⟨.star, 1, ⟨1, 1⟩, ∅⟩
    rfl rfl rfl
  obtain ⟨c, hrun, hstates, hcome⟩ := htrack.run (s := silent)
    (c := { supply := termsInput, memory := () }) rfl rfl (by decide)
    fun ms c _ i q hmove hgoto => hquiet.step_eq_more hmove hgoto
  have htop : c.top = 2 := by rw [Configuration.top, hstates]; rfl
  refine ⟨t, _, c, ht, hrun, by rw [htop]; exact hcells.whole.1, ?_⟩
  rw [htop, Configuration.token_kind, hcome]
  exact hcells.whole.2.2

end Terms

end ObjectPascal.Grammar
