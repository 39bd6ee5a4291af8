import Mathlib.Data.List.Permutation
import ObjectPascal.Proofs.Grammar.Completeness

/-!
Soundness of the machine. Its stacks always fit the tables, and where the tables accept, the start
item has been read over the start symbol, and nothing else is on the stack: one parse tree of the
start symbol over all tokens that were shifted. How conflicts were decided does not matter.
-/

namespace ObjectPascal.Grammar

variable {V G M : Type} {g : Grammar} {t : Tables}

section Sums

/-- Sums of integers, of which the first may be an invalid token. -/
def sums : Grammar :=
  (((({} : Grammar).start "sum").rule "sum" [.token .integer]).rule "sum"
    [.name "sum", .token .plus, .token .integer]).rule "sum" [.token .invalid]

/-- The states of the grammar of sums. -/
def sumsStates : Automaton :=
  ⟨#[[⟨0, 0⟩], [⟨3, 1⟩], [⟨1, 1⟩], [⟨0, 1⟩, ⟨2, 1⟩], [⟨2, 2⟩], [⟨2, 3⟩]],
    #[[(.terminal .invalid, 1), (.terminal .integer, 2), (.nonterminal 1, 3)], [], [],
      [(.terminal .plus, 4)], [(.terminal .integer, 5)], []]⟩

/-- The lookaheads of the grammar of sums: a sum may go on or end, but the start item only ends. -/
def sumsLookaheads : Array NatSet :=
  let last := NatSet.single Kind.eof.index
  let inner := last ∪ .single Kind.plus.index
  #[last, inner, inner, last, inner, inner, inner]

/-- Values without any content. -/
def silent : Semantics Unit Unit Unit := ⟨fun _ => (), (), fun _ => none, fun _ => none⟩

theorem sums_built : sums.Built :=
  .rule (.rule (.rule (.start .empty _) _ _ none) _ _ none) _ _ none

/-- There is a set for each kernel item. -/
example : sumsLookaheads.size = 7 := by decide +kernel

theorem sums_eq : sums = ⟨#["$accept", "sum"],
    #[⟨0, [.nonterminal 1], 0⟩, ⟨1, [.terminal .integer], 0⟩,
      ⟨1, [.nonterminal 1, .terminal .plus, .terminal .integer], 0⟩,
      ⟨1, [.terminal .invalid], 0⟩], [], 0⟩ := by
  decide +kernel

theorem sums_unreserved : sums.Unreserved := by
  rw [sums_eq]
  exact ⟨by decide, by decide⟩

theorem sums_endFree : sums.EndFree := by
  rw [sums_eq]
  unfold EndFree
  decide

theorem sums_survey : sums.survey = ⟨sums,
    ⟨#[false, false], #[.single 0 ∪ .single 127, .single 0 ∪ .single 127]⟩, #[[0], [1, 2, 3]],
    #[[⟨1, ∅, true⟩], [⟨1, .single 1, false⟩]], #[⟨3⟩, ⟨2⟩]⟩ := by
  rw [sums_eq]
  decide +kernel

theorem sums_automaton : sums.survey.automaton = sumsStates := by
  rw [Survey.automaton_eq, sums_survey, sums_eq]
  decide +kernel

theorem sums_lookaheads : sums.slots.lookaheads = sumsLookaheads := by
  rw [slots, sums_automaton, sums_survey, sums_eq]
  decide +kernel

set_option maxRecDepth 20000 in
theorem sums_tables : ∃ t, sums.tables = .ok t ∧ t.conflicts = [] := by
  obtain ⟨t, ht⟩ := exists_tables (g := sums) (by rw [sums_eq]; decide +kernel)
  refine ⟨t, ht, conflicts_eq_nil ht fun q hq => ?_⟩
  rw [stateCount, sums_automaton] at hq
  have hq : q < 6 := hq
  unfold rowAt reductionsAt Survey.reductions shiftRow stepsAt kernelSets
  rw [sums_lookaheads, slots, sums_automaton, sums_survey, sums_eq]
  obtain rfl | rfl | rfl | rfl | rfl | rfl :
    q = 0 ∨ q = 1 ∨ q = 2 ∨ q = 3 ∨ q = 4 ∨ q = 5 := by omega
  all_goals
    simp only [mergeSort_reductions]
    rfl

/-- A supply of tokens of the given kinds. -/
def supplyOf (kinds : List Kind) : Supply :=
  ⟨kinds.map fun k => (⟨k, 1, ⟨1, 1⟩, ∅⟩, ⟨1, 2⟩), ⟨1, 1⟩⟩

theorem silent_calm {t : Tables} (ht : sums.tables = .ok t) (supply : Supply) :
    Configuration.Calm t silent { supply, memory := () } := by
  refine calm_of_quiet sums_built.wellFormed sums_unreserved ht ?_ supply ()
  intro i reduce h
  cases h

theorem sums_sentence : sums.Sentence [.integer, .plus, .integer] := by
  rw [Sentence, sums_eq]
  refine .head ⟨2, by decide, [], [], rfl, rfl⟩ ?_
  exact .single ⟨1, by decide, [], [.terminal .plus, .terminal .integer], rfl, rfl⟩

/-- The machine accepts a sum of two integers. -/
theorem sums_accepts : ∃ t ms c, sums.tables = .ok t ∧
    Run t silent { supply := supplyOf [.integer, .plus, .integer], memory := () } ms c ∧
    c.Accepting t := by
  obtain ⟨t, ht, hc⟩ := sums_tables
  have hcalm := silent_calm ht (supplyOf [.integer, .plus, .integer])
  obtain ⟨ms, c, hrun, hacc, _⟩ := exists_accepting sums_built.wellFormed sums_unreserved ht
    sums_endFree hc rfl hcalm sums_sentence (by decide)
  exact ⟨t, ms, c, ht, hrun, hacc⟩

end Sums

/-- In every configuration that the machine reaches there is one state more than there are values;
the states are a path of the automaton spelled by the symbols of the values; and each reduction that
the tables allow there, by default or on any token, finds its right-hand side on top and a state to
go to behind its left-hand side. So a step fails only for the token it looks at, for a failure of
the computation of a value, or for want of a goal. -/
theorem stacks_fit_tables (hb : g.Built) (hr : g.Unreserved) (ht : g.tables = .ok t)
    (s : Semantics V G M) (supply : Supply) (memory : M) {ms : List Move}
    {c : Configuration V G M} (h : Run t s { supply, memory } ms c) :
    c.states.length = c.values.length + 1 ∧
    (∃ ts : List Tree, List.Forall₂ s.Computes ts c.values ∧
      t.automaton.Path c.states (ts.map (Tree.root g)) ∧
      ∀ i, t.Reduces c.top i → (g.production i).rhs.length ≤ c.values.length ∧
        ((ts.map (Tree.root g)).take (g.production i).rhs.length).reverse =
          (g.production i).rhs ∧
        ∃ q, t.goto ((c.states.drop (g.production i).rhs.length).headD 0)
          (g.production i).lhs = some q) ∧
    ∀ f c', c.step t s = .failed f c' →
      ((c.token.kind = .invalid ∨ t.action c.top c.token.kind = .error) ∧
        ∃ message, f = .rejection c.token.place message) ∨
      (∃ i, c.move? t = some (.reduce i) ∧
        (c.valueOf s i (c.args t i) = .error f ∨ c.look.valueOf s i (c.args t i) = .error f)) ∨
      (c.Accepting t ∧ c.goal = none ∧ f = .breach "accepted without goal") := by
  have hw := hb.wellFormed
  obtain ⟨_, _, hauto, _⟩ := tables_spec ht
  obtain ⟨ts, hts⟩ := Parsing.of_run hw hr ht h
  have hlen : ts.length = c.values.length := hts.values.length_eq
  refine ⟨?_, ⟨ts, hts.values, hauto ▸ hts.path, fun i hi => ?_⟩, fun f c' hfail => ?_⟩
  · rw [hts.path.length, List.length_map, hlen]
  · obtain ⟨_, hle, hrhs, hgoto⟩ := Tables.Reduces.finds hw hr ht hts.path hi
    rw [List.length_map, hlen] at hle
    exact ⟨hle, hrhs, hgoto⟩
  · exact hts.step_eq_failed hw hr ht hfail

theorem stacks_fit_tables_sums : ∃ t ms, ∃ c : Configuration Unit Unit Unit,
    sums.tables = .ok t ∧ c.Accepting t ∧
    Run t silent { supply := supplyOf [.integer, .plus, .integer], memory := () } ms c ∧
    c.states.length = c.values.length + 1 := by
  obtain ⟨t, ms, c, ht, hrun, hacc⟩ := sums_accepts
  exact ⟨t, ms, c, ht, hacc, hrun,
    (stacks_fit_tables sums_built sums_unreserved ht silent _ () hrun).1⟩

/-- A state that has the start item behind its symbol is the second of its stack. -/
theorem path_of_accept (hw : g.WellFormed) (hr : g.Unreserved) {states : List Nat}
    {xs : List Symbol} (hp : g.survey.automaton.Path states xs)
    (h : ⟨0, (g.production 0).rhs.length⟩ ∈ g.survey.closure (g.kernelAt (states.headD 0)))
    (hs : (g.production 0).rhs ≠ []) : xs = (g.production 0).rhs := by
  obtain ⟨n, hn⟩ := hw.goal_rhs.resolve_left hs
  obtain ⟨_, htake, hzero⟩ := pop hw hr hp h
  rw [hn] at htake hzero ⊢
  cases hp with
  | bottom => simp at htake
  | @push p ps xs x q hp he =>
    obtain rfl : x = .nonterminal n := by simpa using htake
    -- Only the first state has the start item at its beginning, and no step leads to that state.
    have hkernel : ⟨0, 0⟩ ∈ g.kernelAt p := by
      rcases (mem_closure hw).mp hzero with hk | ⟨_, _, hexp⟩
      · exact hk
      · rw [hw.goal_lhs] at hexp
        exact absurd hexp (zero_notMem_expanded hw hr _)
    cases hp with
    | bottom => rfl
    | push hp he' =>
      obtain ⟨j, _, _, hj⟩ := (mem_kernelAt_of_step hw hr he').mp hkernel
      exact absurd (Item.mk.inj hj).2 (Nat.succ_ne_zero _).symm

/-- Where the tables accept, the stack is one parse tree of the start symbol. -/
theorem Parsing.accepting (hw : g.WellFormed) (hr : g.Unreserved) (ht : g.tables = .ok t)
    {s : Semantics V G M} {ms : List Move} {c : Configuration V G M} {ts : List Tree}
    (h : Parsing g s ms c ts) (ha : c.Accepting t) :
    ∃ tree, ts = [tree] ∧ (g.production 0).rhs = [tree.root g] := by
  have hstart : (g.production 0).rhs ≠ [] := by
    have hfault := (tables_spec ht).1
    intro hnil
    simp [fault?, hnil] at hfault
  -- The cell that accepts was entered for the start item, which is complete in the top state.
  have hcomplete : ⟨0, (g.production 0).rhs.length⟩ ∈ g.survey.closure (g.kernelAt c.top) := by
    have happ := action_applies hw hr ht c.top c.token.kind
    rw [ha.2] at happ
    cases happ with
    | accept hmem _ => exact complete_of_mem_reductionsAt hw hr hmem
  have hroots := path_of_accept hw hr h.path hcomplete hstart
  obtain ⟨n, hn⟩ := hw.goal_rhs.resolve_left hstart
  have hlen : ts.length = 1 := by
    have hl := congrArg List.length hroots
    rwa [hn, List.length_map] at hl
  obtain ⟨tree, rfl⟩ := List.length_eq_one_iff.mp hlen
  exact ⟨tree, rfl, hroots.symm⟩

theorem accepting_parse (hw : g.WellFormed) (hr : g.Unreserved) (ht : g.tables = .ok t)
    {s : Semantics V G M} {supply : Supply} {memory : M} {ms : List Move}
    {c : Configuration V G M} (h : Run t s { supply, memory } ms c) (ha : c.Accepting t) :
    ∃ tree, Parsing g s ms c [tree] ∧ (g.production 0).rhs = [tree.root g] := by
  obtain ⟨ts, hts⟩ := Parsing.of_run hw hr ht h
  obtain ⟨tree, rfl, hroot⟩ := hts.accepting hw hr ht ha
  exact ⟨tree, hts, hroot⟩

/-- The tables come to the tree that the moves of an accepting run build. -/
theorem Run.meets (hw : g.WellFormed) (hr : g.Unreserved) (ht : g.tables = .ok t)
    {s : Semantics V G M} {supply : Supply} {memory : M} {ms : List Move}
    {c : Configuration V G M} (h : Run t s { supply, memory } ms c) (ha : c.Accepting t) :
    ∃ tree, g.built ms = [tree] ∧ tree.moves = ms ∧ t.Meets g [] [0] tree := by
  have hparse := Parsing.built hw hr ht h
  obtain ⟨tree, hbuilt, hroot⟩ := hparse.accepting hw hr ht ha
  have hvalid : ∀ tree' ∈ [tree], tree'.Valid g := hbuilt ▸ hparse.valid
  have hmoves := moves_built (g := g) ms
  rw [hbuilt, List.reverse_singleton, List.flatMap_singleton] at hmoves
  have hstart := awaits_start hw hr [tree] hroot.symm hvalid
  refine ⟨tree, hbuilt, hmoves, hvalid tree List.mem_cons_self, hstart.head hw, c.states, ?_⟩
  rw [hmoves]
  exact h.track [] (eof_of_accept hw hr ht ha.2).symm

/-- The reductions that build one tree of the start symbol derive its leaves, the last one first. -/
theorem Parsing.derivation {s : Semantics V G M} {ms : List Move} {c : Configuration V G M}
    {tree : Tree} (h : Parsing g s ms c [tree]) (hroot : (g.production 0).rhs = [tree.root g]) :
    g.Rightmost (g.production 0).rhs (reduced ms).reverse
        ((shifted ms).map fun token => .terminal token.kind) ∧
      g.Sentence ((shifted ms).map Token.kind) := by
  have hright := h.rightmost
  rw [List.map_singleton, List.reverse_singleton, ← hroot] at hright
  refine ⟨hright, ?_⟩
  rw [Sentence, List.map_map]
  exact hright.derives

/-- When the machine comes to accept, the tokens shifted so far are a sentence, the reductions read
backwards are a rightmost derivation of it, and the stack holds one value, computed from a parse
tree of the start symbol with exactly these tokens at its leaves. Conflicts may have been decided in
any way. -/
theorem accept_yields_sentence (hb : g.Built) (hr : g.Unreserved) (ht : g.tables = .ok t)
    (s : Semantics V G M) (supply : Supply) (memory : M) {ms : List Move}
    {c : Configuration V G M} (h : Run t s { supply, memory } ms c) (ha : c.Accepting t) :
    g.Sentence ((shifted ms).map Token.kind) ∧
      g.Rightmost (g.production 0).rhs (reduced ms).reverse
        ((shifted ms).map fun token => .terminal token.kind) ∧
      ∃ tree v, c.values = [v] ∧ s.Computes tree v ∧ tree.Valid g ∧
        (g.production 0).rhs = [tree.root g] ∧ tree.yield = shifted ms := by
  obtain ⟨tree, hts, hroot⟩ := accepting_parse hb.wellFormed hr ht h ha
  obtain ⟨hright, hsentence⟩ := hts.derivation hroot
  refine ⟨hsentence, hright, ?_⟩
  obtain ⟨v, vs, hv, hnil, hvalues⟩ := List.forall₂_cons_left_iff.mp hts.values
  obtain rfl : vs = [] := List.forall₂_nil_left_iff.mp hnil
  exact ⟨tree, v, hvalues, hv, hts.valid tree List.mem_cons_self, hroot, by simpa using hts.yield⟩

theorem accept_yields_sentence_sums : ∃ t ms, ∃ c : Configuration Unit Unit Unit,
    sums.tables = .ok t ∧ c.Accepting t ∧
    Run t silent { supply := supplyOf [.integer, .plus, .integer], memory := () } ms c ∧
    sums.Sentence ((shifted ms).map Token.kind) := by
  obtain ⟨t, ms, c, ht, hrun, hacc⟩ := sums_accepts
  exact ⟨t, ms, c, ht, hacc, hrun,
    (accept_yields_sentence sums_built sums_unreserved ht silent _ () hrun hacc).1⟩

end ObjectPascal.Grammar

/-!
The language of the machine. In tables without conflicts it accepts exactly the sentences of the
grammar, up to two things that lie outside the tables: a token that is invalid is refused when it is
read, even where a rule uses it, and a reduction may fail or stop the supply of tokens.
-/

namespace ObjectPascal.Grammar

variable {V G M : Type} {g : Grammar} {t : Tables} {s : Semantics V G M}

/-- A parse that nothing disturbs accepts only when all tokens are shifted, and none of them is
invalid. -/
theorem accepting_shifted (hw : g.WellFormed) (hr : g.Unreserved) (ht : g.tables = .ok t)
    (he : g.EndFree) {supply : Supply} {memory : M} {c₀ c : Configuration V G M}
    (h₀ : c₀ = { supply, memory }) (hcalm : c₀.Calm t s) {ms : List Move}
    (h : Run t s c₀ ms c) (ha : c.Accepting t) :
    shifted ms = c₀.coming ∧ ∀ token ∈ c₀.coming, token.kind ≠ .invalid := by
  have hall := h.coming hw hr ht he hcalm
  rw [Configuration.coming_eq_nil (eof_of_accept hw hr ht ha.2), List.append_nil] at hall
  subst h₀
  exact ⟨hall, hall ▸ h.valid.2⟩

/-- In tables without conflicts, unless a reduction disturbs the parse, the machine comes to accept
exactly if the tokens before the end of the input are a sentence and none of them is invalid; and
then all of them have been shifted. -/
theorem accepts_exactly_sentences (hb : g.Built) (hr : g.Unreserved) (he : g.EndFree)
    (ht : g.tables = .ok t) (hc : t.conflicts = []) (s : Semantics V G M) (supply : Supply)
    (memory : M) {c₀ : Configuration V G M} (h₀ : c₀ = { supply, memory }) :
    (∃ ms c, Run t s c₀ ms c ∧ c.Disturbed t s) ∨
      (((∃ ms c, Run t s c₀ ms c ∧ c.Accepting t) ↔
        g.Sentence (c₀.coming.map Token.kind) ∧ ∀ token ∈ c₀.coming, token.kind ≠ .invalid) ∧
      ∀ ms c, Run t s c₀ ms c → c.Accepting t → shifted ms = c₀.coming) := by
  have hw := hb.wellFormed
  by_cases hdist : ∃ ms c, Run t s c₀ ms c ∧ c.Disturbed t s
  · exact Or.inl hdist
  · have hcalm : c₀.Calm t s := fun ms c hrun hd => hdist ⟨ms, c, hrun, hd⟩
    refine Or.inr ⟨⟨?_, ?_⟩, fun ms c hrun hacc => ?_⟩
    · rintro ⟨ms, c, hrun, hacc⟩
      obtain ⟨hall, hvalid⟩ := accepting_shifted hw hr ht he h₀ hcalm hrun hacc
      refine ⟨?_, hvalid⟩
      rw [← hall]
      subst h₀
      obtain ⟨tree, hts, hroot⟩ := accepting_parse hw hr ht hrun hacc
      exact (hts.derivation hroot).2
    · rintro ⟨hsentence, hvalid⟩
      obtain ⟨ms, c, hrun, hacc, _⟩ := exists_accepting hw hr ht he hc h₀ hcalm hsentence hvalid
      exact ⟨ms, c, hrun, hacc⟩
    · exact (accepting_shifted hw hr ht he h₀ hcalm hrun hacc).1

theorem accepts_exactly_sentences_sums : ∃ t, sums.tables = .ok t ∧ t.conflicts = [] ∧
    ∃ ms, ∃ c : Configuration Unit Unit Unit,
      Run t silent { supply := supplyOf [.integer, .plus, .integer], memory := () } ms c ∧
      c.Accepting t := by
  obtain ⟨t, ht, hc⟩ := sums_tables
  have hcalm := silent_calm ht (supplyOf [.integer, .plus, .integer])
  refine ⟨t, ht, hc, ?_⟩
  have hsums := accepts_exactly_sentences sums_built sums_unreserved sums_endFree ht hc silent
    (supplyOf [.integer, .plus, .integer]) () rfl
  rcases hsums with ⟨ms, c, hrun, hd⟩ | ⟨hiff, _⟩
  · exact absurd hd (hcalm ms c hrun)
  · exact hiff.mpr ⟨sums_sentence, by decide⟩

/-- A single invalid token is a sentence of the grammar of sums, whose tables have no conflicts, but
the machine never comes to accept it. -/
theorem invalid_sentence_refused : sums.Built ∧ sums.Unreserved ∧ sums.EndFree ∧
    sums.Sentence [.invalid] ∧ ∃ t, sums.tables = .ok t ∧ t.conflicts = [] ∧
      ∀ ms, ∀ c : Configuration Unit Unit Unit,
        Run t silent { supply := supplyOf [.invalid], memory := () } ms c → ¬ c.Accepting t := by
  obtain ⟨t, ht, hc⟩ := sums_tables
  have h0 : (sums.production 0).rhs = [.nonterminal 1] := by decide +kernel
  have h3 : sums.production 3 = ⟨1, [.terminal .invalid], 0⟩ := by decide +kernel
  have hsentence : sums.Sentence [.invalid] := by
    rw [Sentence, h0]
    refine .single ⟨3, by decide +kernel, [], [], ?_, ?_⟩
    · rw [h3]
      rfl
    · rw [h3]
      rfl
  refine ⟨sums_built, sums_unreserved, sums_endFree, hsentence, t, ht, hc, ?_⟩
  intro ms c hrun hacc
  have hcalm := silent_calm ht (supplyOf [.invalid])
  -- What is shifted before acceptance is the whole input, and none of it is invalid.
  have hvalid := (accepting_shifted sums_built.wellFormed sums_unreserved ht sums_endFree rfl hcalm
    hrun hacc).2
  exact hvalid ⟨.invalid, 1, ⟨1, 1⟩, ∅⟩ List.mem_cons_self rfl

end ObjectPascal.Grammar
