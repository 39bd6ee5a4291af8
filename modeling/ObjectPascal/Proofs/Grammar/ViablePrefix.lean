import ObjectPascal.Proofs.Grammar.Recursion
import ObjectPascal.Proofs.Grammar.Soundness

/-!
Errors. What stands on the stack is a prefix of something that the start symbol derives, so as long
as all nonterminals derive tokens, the tokens shifted so far can be completed to a sentence. In
tables without conflicts the moves over a sentence are determined, and none of them leads to a cell
without an action. So the machine complains of the first token with which no sentence goes on, even
if it has reduced by default before it looked at that token.
-/

namespace ObjectPascal.Grammar

variable {V G M : Type} {g : Grammar} {t : Tables} {s : Semantics V G M}

section Prefix

/-- What stands before and behind the dot of an item of the top state is derived together, up to
something behind it. -/
def Viable (g : Grammar) (xs : List Symbol) (i : Item) : Prop :=
  ∃ right, g.Derives (g.production 0).rhs
    (xs.reverse ++ ((g.production i.prod).rhs.drop i.dot ++ right))

/-- What the closure adds to viable items is viable. -/
theorem Viable.closure (hw : g.WellFormed) {xs : List Symbol} {kernel : List Item}
    (h : ∀ i ∈ kernel, g.Viable xs i) : ∀ i ∈ g.survey.closure kernel, g.Viable xs i := by
  intro i hi
  rcases (mem_closure hw).mp hi with hi | ⟨hdot, hlt, hexp⟩
  · exact h i hi
  · obtain ⟨j, hj, m, hm, hcone⟩ := mem_expanded.mp hexp
    obtain ⟨right, hright⟩ := h j hj
    obtain ⟨rest, hrest⟩ :=
      derives_of_leads ((mem_cones hw (lt_count_of_next hw hm)).mp hcone)
    -- The nonterminal behind the dot derives something that begins with the production.
    have hnext : (g.production j.prod).rhs.drop j.dot =
        .nonterminal m :: (g.production j.prod).rhs.drop (j.dot + 1) := by
      obtain ⟨hlen, hget⟩ := List.getElem?_eq_some_iff.mp hm
      rw [List.drop_eq_getElem_cons hlen, hget]
    have hprod : g.Derives [.nonterminal m] ([] ++ (g.production i.prod).rhs ++ rest) :=
      hrest.trans ((Rewrites.of_production hlt).context [] rest).to_reflTransGen
    have hall := hprod.context xs.reverse ((g.production j.prod).rhs.drop (j.dot + 1) ++ right)
    simp only [List.append_assoc, List.nil_append, List.singleton_append] at hall
    rw [hnext] at hright
    refine ⟨rest ++ ((g.production j.prod).rhs.drop (j.dot + 1) ++ right), ?_⟩
    rw [hdot, List.drop_zero]
    exact hright.trans hall

/-- All items of the top state are viable for the symbols of the path to it. -/
theorem Automaton.Path.viable (hw : g.WellFormed) (hr : g.Unreserved) {states : List Nat}
    {xs : List Symbol} (h : g.survey.automaton.Path states xs) :
    ∀ i ∈ g.survey.closure (g.kernelAt (states.headD 0)), g.Viable xs i := by
  induction h with
  | bottom =>
    refine Viable.closure hw fun i hi => ?_
    rw [List.headD_cons, kernelAt_zero hw hr, List.mem_singleton] at hi
    subst hi
    refine ⟨[], ?_⟩
    rw [List.reverse_nil, List.nil_append, List.drop_zero, List.append_nil]
    exact .refl
  | @push p ps xs x q _ he ih =>
    refine Viable.closure hw fun i hi => ?_
    obtain ⟨⟨j, d⟩, hj, hnext, rfl⟩ := (mem_kernelAt_of_step hw hr he).mp hi
    obtain ⟨right, hright⟩ := ih _ hj
    have hrhs : (g.production j).rhs[d]? = some x := hnext
    obtain ⟨hlen, hget⟩ := List.getElem?_eq_some_iff.mp hrhs
    rw [List.drop_eq_getElem_cons hlen, hget] at hright
    exact ⟨right, by simpa using hright⟩

/-- The state on top of a path has an item. -/
theorem Automaton.Path.exists_item (hw : g.WellFormed) (hr : g.Unreserved) {states : List Nat}
    {xs : List Symbol} (h : g.survey.automaton.Path states xs) :
    ∃ i, i ∈ g.kernelAt (states.headD 0) := by
  cases h with
  | bottom => exact ⟨⟨0, 0⟩, by rw [List.headD_cons, kernelAt_zero hw hr, List.mem_singleton]⟩
  | push _ he =>
    obtain ⟨j, hj, hnext⟩ := exists_item_of_step hw hr he
    exact ⟨_, (mem_kernelAt_of_step hw hr he).mpr ⟨j, hj, hnext, rfl⟩⟩

end Prefix

/-- Every nonterminal derives some tokens. -/
def Productive (g : Grammar) : Prop :=
  ∀ n < g.nonterminalCount, ∃ w : List Kind, g.Derives [.nonterminal n] (w.map .terminal)

/-- Derivations keep to the nonterminals that there are. -/
theorem Derives.nonterminal_lt (hw : g.WellFormed) {a b : List Symbol} (h : g.Derives a b)
    (ha : ∀ n, .nonterminal n ∈ a → n < g.nonterminalCount) :
    ∀ n, .nonterminal n ∈ b → n < g.nonterminalCount := by
  induction h with
  | refl => exact ha
  | tail _ hstep ih =>
    obtain ⟨i, hi, u, v, rfl, rfl⟩ := hstep
    intro n hn
    simp only [List.mem_append] at hn
    rcases hn with (hn | hn) | hn
    · exact ih n (by simp [hn])
    · exact hw.rhs_lt i hi n hn
    · exact ih n (by simp [hn])

theorem Productive.exists_word (hp : g.Productive) {xs : List Symbol}
    (hxs : ∀ n, .nonterminal n ∈ xs → n < g.nonterminalCount) :
    ∃ w : List Kind, g.Derives xs (w.map .terminal) := by
  induction xs with
  | nil => exact ⟨[], .refl⟩
  | cons x xs ih =>
    obtain ⟨w, hw⟩ := ih fun n hn => hxs n (List.mem_cons_of_mem _ hn)
    obtain ⟨v, hv⟩ : ∃ v : List Kind, g.Derives [x] (v.map .terminal) := by
      cases x with
      | terminal k => exact ⟨[k], .refl⟩
      | nonterminal n => exact hp n (hxs n List.mem_cons_self)
    exact ⟨v ++ w, by simpa using hv.append hw⟩

/-- The tokens shifted so far begin a sentence. -/
theorem Parsing.exists_sentence (hw : g.WellFormed) (hr : g.Unreserved) (hp : g.Productive)
    {ms : List Move} {c : Configuration V G M} {ts : List Tree} (h : Parsing g s ms c ts) :
    ∃ y, g.Sentence ((shifted ms).map Token.kind ++ y) := by
  -- Any item of the top state shows how the stack goes on.
  obtain ⟨i, hi⟩ := h.path.exists_item hw hr
  obtain ⟨right, hright⟩ := h.path.viable hw hr i ((mem_closure hw).mpr (Or.inl hi))
  have hlt := hright.nonterminal_lt hw (hw.rhs_lt 0 hw.size_pos)
  obtain ⟨y, hy⟩ : ∃ w : List Kind,
      g.Derives ((g.production i.prod).rhs.drop i.dot ++ right) (w.map .terminal) :=
    hp.exists_word fun n hn => hlt n (List.mem_append_right _ hn)
  have hall := h.rightmost.derives.append hy
  refine ⟨y, hright.trans ?_⟩
  rw [List.map_append, List.map_map]
  exact hall

/-- Sentences do not use the end of the input where rules do not. -/
theorem Sentence.kind_ne_eof (he : g.EndFree) (hw : g.WellFormed) {w : List Kind}
    (h : g.Sentence w) : .eof ∉ w := by
  have hkeep : ∀ b, g.Derives (g.production 0).rhs b → .terminal .eof ∉ b := by
    intro b hb
    induction hb with
    | refl => exact he 0 hw.size_pos
    | tail _ hstep ih =>
      obtain ⟨i, hi, u, v, rfl, rfl⟩ := hstep
      intro hmem
      simp only [List.mem_append] at hmem
      rcases hmem with (hmem | hmem) | hmem
      · exact ih (by simp [hmem])
      · exact he i hi hmem
      · exact ih (by simp [hmem])
  intro hmem
  exact hkeep _ h (List.mem_map.mpr ⟨.eof, hmem, rfl⟩)

/-- The machine has nothing to do but to complain of the token that it looks at. -/
def Configuration.Erring (t : Tables) (c : Configuration V G M) : Prop :=
  t.defaultAt c.top = none ∧ c.refuses = false ∧ t.action c.top c.token.kind = .error

section Errors

variable (hw : g.WellFormed) (hr : g.Unreserved) (ht : g.tables = .ok t)

include hw hr ht

/-- In tables without conflicts no sentence begins with what leads to an error. -/
theorem not_sentence_of_error (he : g.EndFree) (hc : t.conflicts = []) {ms : List Move}
    {b : List Nat} {ts : List Token} (h : t.Track ts [0] ms b) (hd : t.defaultAt (b.headD 0) = none)
    (herr : t.action (b.headD 0) (following ts) = .error) :
    ¬ g.Sentence ((shifted ms ++ ts).map Token.kind) := by
  intro hs
  have hne : ∀ token ∈ shifted ms ++ ts, token.kind ≠ .eof := fun token hmem heof =>
    hs.kind_ne_eof he hw (List.mem_map.mpr ⟨token, hmem, heof⟩)
  obtain ⟨ns, d, hns, hshift, hacc⟩ := exists_accepting_track hw hr ht he hc hs hne
  have hsame : shifted ms ++ ts = shifted ns ++ [] := by rw [hshift, List.append_nil]
  rcases h.compare hns hsame with ⟨rest, rfl, hrest⟩ | ⟨rest, rfl, hrest⟩
  · -- The moves over the sentence would go on from here, or accept here.
    have hts : ts = shifted rest := by
      rw [shifted_append, List.append_nil] at hsame
      exact List.append_cancel_left hsame
    cases hrest with
    | refl =>
      rw [hts] at herr
      rw [show following (shifted []) = .eof from rfl, hacc] at herr
      cases herr
    | @shift _ _ rest token q _ hq _ =>
      have hkind : following ts = token.kind := by
        rw [hts]
        rfl
      rw [hkind, hq] at herr
      cases herr
    | @reduce _ _ rest i q hi _ _ =>
      have hkind : shifted rest ++ [] = ts := by
        rw [hts, List.append_nil]
        rfl
      rw [hkind] at hi
      rw [hi.action_eq hd] at herr
      cases herr
  · -- The moves over the sentence accept before, where no more move is chosen.
    have hnil : shifted rest ++ ts = [] := by
      rw [shifted_append, List.append_nil, List.append_assoc] at hsame
      exact List.append_right_eq_self.mp hsame
    have hdefault : t.defaultAt (d.headD 0) = none :=
      default_eq_none hw hr ht (by rw [hacc]; simp) (by rw [hacc]; simp)
    cases hrest with
    | refl =>
      obtain ⟨_, rfl⟩ := List.append_eq_nil_iff.mp hnil
      rw [show following [] = .eof from rfl, hacc] at herr
      cases herr
    | shift _ _ _ => cases hnil
    | @reduce _ _ rest i q hi _ _ =>
      have hempty : shifted rest ++ ts = [] := hnil
      have hkind := hi.action_eq hdefault
      rw [hempty, show following [] = .eof from rfl, hacc] at hkind
      cases hkind

end Errors

/-- In tables without conflicts the machine complains of the first token with which no sentence goes
on: what it has shifted by then begins a sentence if all nonterminals derive tokens, but not
together with the token complained of; and if that is the end of the input, what it has shifted is
no sentence. -/
theorem errors_at_first_impossible_token (hb : g.Built) (hr : g.Unreserved) (he : g.EndFree)
    (ht : g.tables = .ok t) (hc : t.conflicts = []) (hp : g.Productive) {supply : Supply}
    {memory : M} {ms : List Move} {c : Configuration V G M}
    (h : Run t s { supply, memory } ms c) (herr : c.Erring t) :
    c.step t s =
        .failed (.rejection c.token.place (Configuration.complaint t c.top c.token)) c.look ∧
      (∃ y, g.Sentence ((shifted ms).map Token.kind ++ y)) ∧
      (∀ y, ¬ g.Sentence ((shifted ms).map Token.kind ++ c.token.kind :: y)) ∧
      (c.token.kind = .eof → ¬ g.Sentence ((shifted ms).map Token.kind)) := by
  have hw := hb.wellFormed
  obtain ⟨hd, hvalid, hact⟩ := herr
  obtain ⟨ts, hparsing⟩ := Parsing.of_run hw hr ht h
  refine ⟨?_, hparsing.exists_sentence hw hr hp, ?_, ?_⟩
  · rcases Configuration.step_of_default_none (s := s) hd with ⟨_, hstep⟩ | ⟨_, hinv, _⟩
    · rw [hstep, Configuration.act, Configuration.look_top, hact]
    · rw [hvalid] at hinv
      cases hinv
  · intro y
    -- Some tokens of the given kinds follow the one that the machine looks at.
    have hkinds : (y.map fun k => (⟨k, 0, ⟨0, 0⟩, ∅⟩ : Token)).map Token.kind = y := by
      rw [List.map_map]
      exact List.map_id _
    have hnot := not_sentence_of_error hw hr ht he hc
      (h.track (c.token :: y.map fun k => ⟨k, 0, ⟨0, 0⟩, ∅⟩) rfl) hd hact
    rwa [List.map_append, List.map_cons, hkinds] at hnot
  · intro heof
    rw [heof] at hact
    have hnot := not_sentence_of_error hw hr ht he hc (h.track [] heof.symm) hd hact
    rwa [List.append_nil] at hnot

section Sums

theorem sums_productive : sums.Productive := by
  have hone : sums.Derives [.nonterminal 1] ([.integer].map .terminal) := by
    rw [sums_eq]
    exact .single ⟨1, by decide, [], [], rfl, rfl⟩
  intro n hn
  obtain rfl | rfl : n = 0 ∨ n = 1 := by
    rw [sums_eq] at hn
    have : n < 2 := hn
    omega
  · refine ⟨[.integer], .head ⟨0, by rw [sums_eq]; decide, [], [], ?_, rfl⟩ ?_⟩
    · rw [sums_eq]
      rfl
    · rw [sums_eq] at hone ⊢
      exact hone
  · exact ⟨[.integer], hone⟩

set_option maxRecDepth 20000 in
/-- The cells of the tables of sums that two integers in a row meet. -/
theorem sums_cells (ht : sums.tables = .ok t) :
    (t.defaultAt 0 = none ∧ t.action 0 .integer = .shift 2) ∧ t.defaultAt 2 = some 1 ∧
      (t.defaultAt 3 = none ∧ t.action 3 .integer = .error) := by
  obtain ⟨_, hg, _, _, _, _, hrows⟩ := tables_spec ht
  have hcount : sums.stateCount = 6 := by rw [stateCount, sums_automaton]; rfl
  obtain ⟨_, h0⟩ := hrows 0 (by rw [hcount]; decide)
  obtain ⟨_, h2⟩ := hrows 2 (by rw [hcount]; decide)
  obtain ⟨_, h3⟩ := hrows 3 (by rw [hcount]; decide)
  refine ⟨⟨?_, ?_⟩, ?_, ?_, ?_⟩
  all_goals
    simp only [default_of_hasRow h0, action_of_hasRow h0, default_of_hasRow h2,
      default_of_hasRow h3, action_of_hasRow h3]
    unfold rowAt reductionsAt Survey.reductions shiftRow stepsAt kernelSets
    rw [sums_lookaheads, slots, sums_automaton, sums_survey, sums_eq]
    simp only [mergeSort_reductions]
    rfl

theorem errors_at_first_impossible_token_sums : ∃ t ms, ∃ c : Configuration Unit Unit Unit,
    sums.tables = .ok t ∧
    Run t silent { supply := supplyOf [.integer, .integer], memory := () } ms c ∧ c.Erring t ∧
    (∃ y, sums.Sentence (.integer :: y)) ∧
    ∀ y, ¬ sums.Sentence (.integer :: .integer :: y) := by
  obtain ⟨t, ht, hc⟩ := sums_tables
  obtain ⟨hstart, hinteger, hsum⟩ := sums_cells ht
  have hw := sums_built.wellFormed
  have hprod : t.grammar.production 1 = ⟨1, [.terminal .integer], 0⟩ := by
    rw [(tables_spec ht).2.1, sums_eq]
    rfl
  have hgoto : t.goto 0 1 = some 3 := by
    refine (goto_eq_some_iff hw sums_unreserved ht).mpr ?_
    rw [stepsAt, sums_automaton]
    decide
  have htrack : t.Track [⟨.integer, 1, ⟨1, 1⟩, ∅⟩] [0]
      [.shift ⟨.integer, 1, ⟨1, 1⟩, ∅⟩, .reduce 1] [3, 0] := by
    refine .shift hstart.1 hstart.2 (.reduce (Or.inl hinteger) (by rw [hprod]; exact hgoto) ?_)
    rw [hprod]
    exact .refl _
  have hquiet : silent.Quiet := by
    intro i reduce h
    cases h
  obtain ⟨c, hrun, hstates, hcome⟩ := htrack.run (s := silent)
    (c := { supply := supplyOf [.integer, .integer], memory := () }) rfl rfl (by decide)
    fun ms c _ i q hmove hgo => hquiet.step_eq_more hmove hgo
  have htop : c.top = 3 := by rw [Configuration.top, hstates]; rfl
  have hkind : c.token.kind = .integer := by rw [Configuration.token_kind, hcome]; rfl
  have herr : c.Erring t := by
    refine ⟨by rw [htop]; exact hsum.1, ?_, by rw [htop, hkind]; exact hsum.2⟩
    rw [Configuration.refuses, hkind]
    exact Bool.and_false _
  obtain ⟨_, hbegin, hnever, _⟩ := errors_at_first_impossible_token sums_built sums_unreserved
    sums_endFree ht hc sums_productive hrun herr
  rw [hkind] at hnever
  exact ⟨t, _, c, ht, hrun, herr, hbegin, hnever⟩

end Sums

end ObjectPascal.Grammar
