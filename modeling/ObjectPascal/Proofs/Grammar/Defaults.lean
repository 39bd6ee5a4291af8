import ObjectPascal.Proofs.Grammar.Decisions
import ObjectPascal.Proofs.Grammar.Soundness

/-!
Default reductions. A state that can only reduce by one production does so without a look at the
next token, even where the action on that token is an error. Nothing is accepted for that reason
which the actions alone refuse: in a tree that is accepted, every item expects the token that comes
behind it, so that the cell of this token holds the reduction.
-/

namespace ObjectPascal.Grammar

variable {V G M : Type} {g : Grammar} {t : Tables} {s : Semantics V G M}

/-- The tables without default reductions: a step always looks at the next token. -/
def Tables.consulting (t : Tables) : Tables := { t with defaults := #[] }

@[simp]
theorem Tables.consulting_defaultAt (q : Nat) : t.consulting.defaultAt q = none := rfl

@[simp]
theorem Tables.consulting_action (q : Nat) (k : Kind) : t.consulting.action q k = t.action q k :=
  rfl

@[simp]
theorem Tables.consulting_goto (q n : Nat) : t.consulting.goto q n = t.goto q n := rfl

@[simp]
theorem Tables.consulting_grammar : t.consulting.grammar = t.grammar := rfl

/-- Values that are the parse trees themselves. -/
def growing : Semantics Tree Unit Unit where
  ofToken := .leaf
  absent := .node 0 []
  line? := fun _ => none
  reduction? := fun i => some fun _ args memory => .ok { value := .node i args, memory }

theorem growing_quiet : growing.Quiet := by
  intro i reduce h line args memory
  obtain rfl := Option.some.inj h
  exact ⟨_, rfl, rfl⟩

/-- The values of a run that grows trees are the trees that its moves build. -/
theorem Run.growing_values {c c' : Configuration Tree Unit Unit} {ms : List Move}
    (h : Run t growing c ms c') : c'.values = ms.foldl t.grammar.grow c.values := by
  induction h with
  | refl => rfl
  | @tail ms c₁ c₂ _ hs ih =>
    rw [List.foldl_append, ← ih]
    rcases Configuration.step_eq_more hs with ⟨q, _, hmove, rfl⟩ | ⟨i, hmove, _⟩
    · rw [hmove]
      rfl
    · obtain ⟨c₀, _, hvalues, _, hred⟩ := Configuration.reduce_of_step hs hmove
      obtain ⟨r, q, hvalue, _, rfl⟩ := Configuration.reduce_eq_more hred
      obtain rfl := Except.ok.inj hvalue
      rw [hmove]
      simp only [hvalues, Configuration.args]
      rfl

/-- The machine comes to accept the tokens of a supply, and the tree is what it has built. -/
def Tables.Accepts (t : Tables) (supply : Supply) (tree : Tree) : Prop :=
  ∃ ms c, Run t growing { supply, memory := () } ms c ∧ c.Accepting t ∧ c.values = [tree]

/-- The tokens of a supply before the end of the input. -/
def tokensOf (supply : Supply) : List Token :=
  (supply.ahead.map (·.1)).takeWhile (·.kind != .eof)

/-- Moves that the tables choose over the tokens of a supply to where they accept make the machine
accept it. -/
theorem Tables.Track.accepts {ms : List Move} {b : List Nat} (h : t.Track [] [0] ms b)
    (hd : t.defaultAt (b.headD 0) = none) (ha : t.action (b.headD 0) .eof = .accept)
    {tree : Tree} (hbuilt : t.grammar.built ms = [tree]) {supply : Supply}
    (hsupply : tokensOf supply = shifted ms)
    (hv : ∀ token ∈ shifted ms, token.kind ≠ .invalid) : t.Accepts supply tree := by
  have hcome : Configuration.coming (V := Tree) (G := Unit) { supply, memory := () } =
      shifted ms ++ [] := by
    rw [List.append_nil]
    exact hsupply
  obtain ⟨c, hrun, rfl, hnil⟩ := h.run (s := growing) rfl hcome
    (by rwa [hcome, List.append_nil])
    fun ms' c' hrun' i q hmove hgoto => growing_quiet.step_eq_more hmove hgoto
  refine ⟨ms, c, hrun, ⟨hd, ?_⟩, hrun.growing_values.trans hbuilt⟩
  rw [Configuration.token_kind, hnil]
  exact ha

section Consulting

variable (hw : g.WellFormed) (hr : g.Unreserved) (ht : g.tables = .ok t)

include hw hr ht

/-- Where the action on the next token is consulted, the default reduction is the same. -/
theorem Tables.Track.of_consulting {ts : List Token} {a b : List Nat} {ms : List Move}
    (h : t.consulting.Track ts a ms b) : t.Track ts a ms b := by
  induction h with
  | refl => exact .refl _
  | shift _ hq _ ih =>
    rw [consulting_action] at hq
    exact .shift (default_eq_none hw hr ht (by rw [hq]; simp) (by rw [hq]; simp)) hq ih
  | reduce hi hq _ ih => exact .reduce (chooses_of_action hw hr ht (hi.action_eq rfl)) hq ih

/-- The moves of an awaited tree are those that the actions on the tokens give, where no cell is
left empty. -/
theorem Tables.Meets.consulting (hn : ∀ k, ¬ g.Nonassociative k) {tree : Tree} {ts : List Token}
    {a b : List Nat} (h : t.Meets g ts a tree) (hb : t.Track ts a tree.moves b) :
    t.consulting.Track ts a tree.moves b := by
  have hv := h.valid
  induction hv generalizing ts a b with
  | leaf token =>
    rw [Tree.moves_leaf] at hb ⊢
    cases hb with
    | shift _ hq hb =>
      cases hb
      exact .shift rfl hq (.refl _)
  | node p children hp hroots hchildren ih =>
    obtain ⟨hzero, hrest⟩ := h.awaits.children hw hr h.valid
    rw [Tree.moves_node] at hb ⊢
    obtain ⟨c, hc, hlast⟩ := hb.split
    have hmeets : t.MeetsRest g p 0 ts a children c := ⟨hrest, hc⟩
    have hforest (forest : List Tree) (hsub : ∀ tree ∈ forest, tree ∈ children) (d : Nat)
        (a : List Nat) (h : t.MeetsRest g p d ts a forest c) :
        t.consulting.Track ts a (forest.flatMap Tree.moves) c := by
      induction forest generalizing d a with
      | nil =>
        cases h.track with
        | refl => exact .refl _
      | cons tree forest ihf =>
        obtain ⟨hmeet, q, _, htree, hmore⟩ := h.cons hw hr ht
        have htracks := ih tree (hsub tree List.mem_cons_self) hmeet htree
        rw [← shifted_forest] at htracks
        exact htracks.append (ihf (fun tree' h' => hsub tree' (.tail _ h')) _ _ hmore)
    cases hlast with
    | reduce hi hq hlast =>
      cases hlast
      -- The complete item expects the token that follows, so its reduction is in the cell.
      obtain ⟨la, hmem, hla⟩ := (hmeets.expects_end hw hr ht (Nat.zero_le _)).reduction hw
        (List.getElem?_eq_none (Nat.le_refl _))
      have hne := action_ne_error_of_reduction hw hr ht hmem hla (hn _)
      have hact : t.action (c.headD 0) (following ts) = .reduce p := by
        rcases hi with hd | ⟨_, hact⟩
        · exact ((default_spec hw hr ht hd).2 _).resolve_left hne
        · exact hact
      exact (hforest children (fun _ h' => h') 0 a hmeets).append
        (.reduce (Or.inr ⟨rfl, hact⟩) hq (.refl _))

/-- The tree that one of the two machines builds for an accepted input, whatever its values, is
built by both for the tokens at its leaves. -/
theorem accepts_both (hn : ∀ k, ¬ g.Nonassociative k) {supply : Supply}
    {memory : M} {ms : List Move} {c : Configuration V G M} {tree : Tree}
    (hbuilt : g.built ms = [tree])
    (h : (Run t s { supply, memory } ms c ∧ c.Accepting t) ∨
      (Run t.consulting s { supply, memory } ms c ∧ c.Accepting t.consulting)) {supply' : Supply}
    (hsupply : tokensOf supply' = tree.yield) :
    t.Accepts supply' tree ∧ t.consulting.Accepts supply' tree := by
  have hmoves := moves_built (g := g) ms
  rw [hbuilt, List.reverse_singleton, List.flatMap_singleton] at hmoves
  rw [← tree.shifted_moves, hmoves] at hsupply
  have hact : t.action c.top c.token.kind = .accept := by
    rcases h with ⟨_, hacc⟩ | ⟨_, hacc⟩
    · exact hacc.2
    · exact hacc.2
  have heof := eof_of_accept hw hr ht hact
  have hboth : t.Track [] [0] ms c.states ∧ t.consulting.Track [] [0] ms c.states := by
    rcases h with ⟨hrun, hacc⟩ | ⟨hrun, hacc⟩
    · have htrack := hrun.track [] heof.symm
      obtain ⟨tree', hbuilt', _, hmeets⟩ := hrun.meets hw hr ht hacc
      obtain rfl : tree = tree' := by simpa [hbuilt] using hbuilt'
      refine ⟨htrack, ?_⟩
      rw [← hmoves] at htrack ⊢
      exact hmeets.consulting hw hr ht hn htrack
    · have htrack := hrun.track [] heof.symm
      exact ⟨htrack.of_consulting hw hr ht, htrack⟩
  have hvalid : ∀ token ∈ shifted ms, token.kind ≠ .invalid := by
    rcases h with ⟨hrun, _⟩ | ⟨hrun, _⟩
    · exact hrun.valid.2
    · exact hrun.valid.2
  rw [heof] at hact
  have hd : t.defaultAt c.top = none :=
    default_eq_none hw hr ht (by rw [hact]; simp) (by rw [hact]; simp)
  have hg : t.grammar.built ms = [tree] := by rw [(tables_spec ht).2.1, hbuilt]
  exact ⟨hboth.1.accepts hd hact hg hsupply hvalid, hboth.2.accepts rfl hact hg hsupply hvalid⟩

end Consulting

/-- A machine that grows trees shifts all tokens before it accepts. -/
theorem Run.growing_tokens {supply : Supply} {ms : List Move} {c : Configuration Tree Unit Unit}
    (h : Run t growing { supply, memory := () } ms c) (heof : c.token.kind = .eof)
    (hne : ∀ token ∈ shifted ms, token.kind ≠ .eof) : tokensOf supply = shifted ms := by
  have hcome := h.coming_of_kept hne fun ms₁ c₁ c₂ i _ hmove hs => by
    obtain ⟨_, hstates, _, _, hred⟩ := Configuration.reduce_of_step hs hmove
    obtain ⟨_, q, _, hgoto, _⟩ := Configuration.reduce_eq_more hred
    rw [hstates] at hgoto
    obtain ⟨c', hs', hsame⟩ := growing_quiet.step_eq_more hmove hgoto
    obtain rfl := Progress.more.inj (hs.symm.trans hs')
    exact hsame
  rw [Configuration.coming_eq_nil heof, List.append_nil] at hcome
  exact hcome.symm

/-- Default reductions change nothing. Where no token is without associativity, the machine accepts
an input with a parse tree exactly if it does so when it looks at the next token before every move.
And whatever values either machine computes, even if a reduction stops the supply of tokens, the
tree that it has built when it accepts is the one that both build for the tokens at its leaves. -/
theorem default_reductions_change_nothing (hb : g.Built) (hr : g.Unreserved) (he : g.EndFree)
    (hn : ∀ k, ¬ g.Nonassociative k) (ht : g.tables = .ok t) (supply : Supply) (tree : Tree) :
    (t.Accepts supply tree ↔ t.consulting.Accepts supply tree) ∧
    ∀ (s : Semantics V G M) (memory : M) (ms : List Move) (c : Configuration V G M),
      g.built ms = [tree] →
      (Run t s { supply, memory } ms c ∧ c.Accepting t) ∨
        (Run t.consulting s { supply, memory } ms c ∧ c.Accepting t.consulting) →
      ∀ supply', tokensOf supply' = tree.yield →
        t.Accepts supply' tree ∧ t.consulting.Accepts supply' tree := by
  have hw := hb.wellFormed
  have hg := (tables_spec ht).2.1
  -- What one of the machines has shifted before it accepts is all that the tree has at its leaves.
  have htokens {ms : List Move} {c : Configuration Tree Unit Unit} {d : Tables}
      (hrun : Run d growing { supply, memory := () } ms c)
      (hact : t.action c.top c.token.kind = .accept) (hdg : d.grammar = g)
      (htrack : t.Track [] [0] ms c.states) (hvalues : c.values = [tree]) :
      g.built ms = [tree] ∧ tokensOf supply = tree.yield := by
    have hbuilt : g.built ms = [tree] := by
      rw [← hvalues, hrun.growing_values, hdg]
      rfl
    have hmoves := moves_built (g := g) ms
    rw [hbuilt, List.reverse_singleton, List.flatMap_singleton] at hmoves
    refine ⟨hbuilt, ?_⟩
    rw [← tree.shifted_moves, hmoves]
    exact hrun.growing_tokens (eof_of_accept hw hr ht hact) (htrack.kind_ne_eof hw hr ht he)
  refine ⟨⟨?_, ?_⟩, ?_⟩
  · rintro ⟨ms, c, hrun, hacc, hvalues⟩
    have htrack := hrun.track [] (eof_of_accept hw hr ht hacc.2).symm
    obtain ⟨hbuilt, hyield⟩ := htokens hrun hacc.2 hg htrack hvalues
    exact (accepts_both hw hr ht hn hbuilt (Or.inl ⟨hrun, hacc⟩) hyield).2
  · rintro ⟨ms, c, hrun, hacc, hvalues⟩
    have htrack := hrun.track [] (eof_of_accept hw hr ht hacc.2).symm
    obtain ⟨hbuilt, hyield⟩ :=
      htokens hrun hacc.2 hg (htrack.of_consulting hw hr ht) hvalues
    exact (accepts_both hw hr ht hn hbuilt (Or.inr ⟨hrun, hacc⟩) hyield).1
  · intro s memory ms c hbuilt h supply' hsupply
    exact accepts_both hw hr ht hn hbuilt h hsupply

theorem default_reductions_change_nothing_sums : ∃ t tree, sums.tables = .ok t ∧
    t.Accepts (supplyOf [.integer, .plus, .integer]) tree ∧
    t.consulting.Accepts (supplyOf [.integer, .plus, .integer]) tree := by
  have hw := sums_built.wellFormed
  obtain ⟨t, ht, hc⟩ := sums_tables
  have hcalm := calm_of_quiet hw sums_unreserved ht growing_quiet
    (supplyOf [.integer, .plus, .integer]) ()
  obtain ⟨ms, c, hrun, hacc, _⟩ := exists_accepting hw sums_unreserved ht sums_endFree hc rfl
    hcalm sums_sentence (by decide)
  obtain ⟨tree, hbuilt, _⟩ := hrun.meets hw sums_unreserved ht hacc
  have hvalues : c.values = [tree] := by
    rw [hrun.growing_values, (tables_spec ht).2.1]
    exact hbuilt
  have hlevels : ∀ k, ¬ sums.Nonassociative k := by
    rintro k ⟨p, hp, _⟩
    simp [precedenceOf, sums_eq] at hp
  have haccepts : t.Accepts (supplyOf [.integer, .plus, .integer]) tree :=
    ⟨ms, c, hrun, hacc, hvalues⟩
  refine ⟨t, tree, ht, haccepts, ?_⟩
  exact (default_reductions_change_nothing (V := Unit) (G := Unit) (M := Unit) sums_built
    sums_unreserved sums_endFree hlevels ht _ tree).1.mp haccepts

end ObjectPascal.Grammar
