import Mathlib.Data.List.TakeWhile
import ObjectPascal.Proofs.Grammar.Conflicts
import ObjectPascal.Proofs.Grammar.Guidance

/-!
Completeness of the machine. In tables without conflicts a parse tree leads the machine: each leaf
is shifted and each node reduced to, because the items of the tree expect exactly the tokens that
come. Reductions may still disturb the parse, by a failure of what they compute or by stopping the
supply of tokens.
-/

namespace ObjectPascal.Grammar

variable {V G M : Type} {g : Grammar} {t : Tables} {s : Semantics V G M}

namespace Configuration

variable (t s) (c : Configuration V G M)

/-- The tokens that come before the end of the input. -/
def coming : List Token :=
  (c.ahead.toList ++ c.supply.ahead.map (·.1)).takeWhile (·.kind != .eof)

/-- A reduction from here fails, or changes the tokens that come. -/
def Disturbed : Prop :=
  ∃ i, c.move? t = some (.reduce i) ∧ ∀ c', c.step t s = .more c' → c'.coming ≠ c.coming

/-- No reduction on the way from here disturbs the parse. -/
def Calm : Prop := ∀ ms c', Run t s c ms c' → ¬ c'.Disturbed t s

variable {t s c}

/-- The token that a step looks at ends the input, or is the first of those that come. -/
theorem coming_cases : (c.token.kind = .eof ∧ c.coming = []) ∨
    (c.token.kind ≠ .eof ∧ ∃ ts, c.coming = c.token :: ts) := by
  have hfirst : (c.token.kind = .eof ∧ c.ahead.toList ++ c.supply.ahead.map (·.1) = []) ∨
      ∃ ts, c.ahead.toList ++ c.supply.ahead.map (·.1) = c.token :: ts := by
    cases ha : c.ahead with
    | some first => exact Or.inr ⟨c.supply.ahead.map (·.1), by simp [token, ha]⟩
    | none =>
      cases hs : c.supply.ahead with
      | nil => exact Or.inl (by simp [token, Supply.next, ha, hs])
      | cons e rest => exact Or.inr ⟨rest.map (·.1), by simp [token, Supply.next, ha, hs]⟩
  unfold coming
  rcases hfirst with ⟨heof, hnil⟩ | ⟨ts, hts⟩
  · exact Or.inl ⟨heof, by rw [hnil, List.takeWhile_nil]⟩
  · rw [hts]
    by_cases heof : c.token.kind = .eof
    · exact Or.inl ⟨heof, List.takeWhile_cons_of_neg (by simp [heof])⟩
    · exact Or.inr ⟨heof, _, List.takeWhile_cons_of_pos (by simp [heof])⟩

theorem token_of_coming {token : Token} {ts : List Token} (h : c.coming = token :: ts) :
    c.token = token := by
  rcases coming_cases (c := c) with ⟨_, hnil⟩ | ⟨_, ts', hts⟩
  · rw [hnil] at h
    cases h
  · rw [hts] at h
    exact (List.cons.inj h).1

theorem token_kind : c.token.kind = following c.coming := by
  rcases coming_cases (c := c) with ⟨heof, hnil⟩ | ⟨_, ts, hts⟩
  · rw [hnil, heof, following]
  · rw [hts, following]

theorem coming_eq_nil (h : c.token.kind = .eof) : c.coming = [] := by
  rcases coming_cases (c := c) with ⟨_, hnil⟩ | ⟨hne, _⟩
  · exact hnil
  · exact absurd h hne

@[simp]
theorem look_coming : c.look.coming = c.coming := by
  unfold look
  cases ha : c.ahead with
  | some token => rfl
  | none =>
    cases hs : c.supply.ahead with
    | nil => simp [coming, ha, hs, Supply.next]
    | cons first rest => simp [coming, ha, hs, Supply.next]

/-- A token other than the end of the input is the first of those that come. -/
theorem coming_eq_cons (hne : c.token.kind ≠ .eof) :
    c.coming = c.token :: (c.look.supply.ahead.map (·.1)).takeWhile (·.kind != .eof) := by
  rw [← look_coming, coming, look_ahead, Option.toList_some, List.singleton_append,
    List.takeWhile_cons_of_pos (by simpa using hne)]

/-- The end of the input is not among the tokens before it. -/
theorem kind_ne_eof (c : Configuration V G M) : ∀ token ∈ c.coming, token.kind ≠ .eof :=
  fun _ h => by simpa using List.mem_takeWhile_imp h

theorem token_kind_ne_invalid (hv : ∀ token ∈ c.coming, token.kind ≠ .invalid) :
    c.token.kind ≠ .invalid := by
  rcases coming_cases (c := c) with ⟨heof, _⟩ | ⟨_, ts, hts⟩
  · rw [heof]
    simp
  · exact hv c.token (hts ▸ List.mem_cons_self)

/-- The tables' choice of a reduction is the move of a step that refuses no token. -/
theorem move_of_chooses {i : Nat} (hi : t.Chooses c.top c.token.kind i)
    (hv : c.token.kind ≠ .invalid) : c.move? t = some (.reduce i) := by
  have hread : c.refuses = false := by simp [refuses, hv]
  rcases hi with hd | ⟨hd, hact⟩
  · simp [move?, hd]
  · simp [move?, hd, hread, hact]

/-- Where the tables shift the next of the tokens that come, a step puts the state on the stack. -/
theorem step_of_shift {q : Nat} {ts : List Token} (hd : t.defaultAt c.top = none)
    (hq : t.action c.top c.token.kind = .shift q) (hv : c.token.kind ≠ .invalid)
    (hcome : c.coming = c.token :: ts) :
    ∃ c', c.step t s = .more c' ∧ c.move? t = some (.shift c.token) ∧
      c'.states = q :: c.states ∧ c'.coming = ts := by
  have hread : c.refuses = false := by simp [refuses, hv]
  rcases step_of_default_none (s := s) hd with ⟨_, hstep⟩ | ⟨hinv, _⟩
  · unfold act at hstep
    rw [look_top, hq] at hstep
    refine ⟨_, hstep, by simp [move?, hd, hread, hq], by rw [look_states], ?_⟩
    -- The token looked at is the first of those that come, and the rest is left.
    have hlook : c.look.coming = c.token :: ts := by rw [look_coming, hcome]
    unfold coming at hlook ⊢
    rw [look_ahead, Option.toList_some, List.singleton_append, List.takeWhile_cons] at hlook
    split at hlook
    · exact (List.cons.inj hlook).2
    · cases hlook
  · exact absurd hinv hv

/-- Where a step reduces, the state behind the left-hand side takes the place of the right-hand
side. -/
theorem states_of_reduce {i q : Nat} {c' : Configuration V G M} (h : c.step t s = .more c')
    (hm : c.move? t = some (.reduce i))
    (hq : t.goto ((c.states.drop (t.grammar.production i).rhs.length).headD 0)
      (t.grammar.production i).lhs = some q) :
    c'.states = q :: c.states.drop (t.grammar.production i).rhs.length := by
  obtain ⟨c₁, hstates, _, _, hred⟩ := reduce_of_step h hm
  obtain ⟨r, q', _, hgoto, rfl⟩ := reduce_eq_more hred
  rw [hstates, hq] at hgoto
  simp only [hstates, Option.some.inj hgoto]

end Configuration

section Steps

variable (hw : g.WellFormed) (hr : g.Unreserved) (ht : g.tables = .ok t)

include hw hr ht

theorem default_eq_none {q : Nat} {k : Kind} (he : t.action q k ≠ .error)
    (hn : ∀ i, t.action q k ≠ .reduce i) : t.defaultAt q = none := by
  cases hd : t.defaultAt q with
  | none => rfl
  | some i =>
    rcases (default_spec hw hr ht hd).2 k with h | h
    · exact absurd h he
    · exact absurd h (hn i)

/-- A default reduction can only be the one that the action on the next token is. -/
theorem chooses_of_action {q i : Nat} {k : Kind} (h : t.action q k = .reduce i) :
    t.Chooses q k i := by
  cases hd : t.defaultAt q with
  | none => exact Or.inr ⟨hd, h⟩
  | some j =>
    rcases (default_spec hw hr ht hd).2 k with h' | h'
    · rw [h] at h'
      cases h'
    · rw [h] at h'
      exact Or.inl (Action.reduce.inj h' ▸ hd)

end Steps

/-- The tables choose moves over the tokens `ws` to a stack with a property where `ts` follows,
unless they accept at the end of the input before that. -/
def Tables.Leads (t : Tables) (ws ts : List Token) (a : List Nat) (P : List Nat → Prop) : Prop :=
  ∃ ms b, t.Track ts a ms b ∧ shifted ms = ws ∧
    ((ts = [] ∧ t.action (b.headD 0) .eof = .accept) ∨ P b)

theorem Tables.Leads.bind {ws us ts : List Token} {a : List Nat} {P Q : List Nat → Prop}
    (h : t.Leads ws (us ++ ts) a P) (k : ∀ b, P b → t.Leads us ts b Q) :
    t.Leads (ws ++ us) ts a Q := by
  obtain ⟨ms, b, hms, rfl, ⟨hnil, hacc⟩ | hP⟩ := h
  · obtain ⟨rfl, rfl⟩ := List.append_eq_nil_iff.mp hnil
    exact ⟨ms, b, hms, by rw [List.append_nil], Or.inl ⟨rfl, hacc⟩⟩
  · obtain ⟨ns, c, hns, rfl, hend⟩ := k b hP
    exact ⟨ms ++ ns, c, hms.append hns, shifted_append ms ns, hend⟩

section Trees

variable (hw : g.WellFormed) (hr : g.Unreserved) (ht : g.tables = .ok t)

include hw hr

/-- The trees over the rest of a right-hand side lead to its end, each adding one state. -/
theorem leads_forest {ts : List Token} {p d : Nat} {forest : List Tree}
    (hlead : ∀ tree ∈ forest, ∀ ts a, g.Awaits a tree ts →
      (∀ token ∈ tree.yield ++ ts, token.kind ≠ .eof) → t.Leads tree.yield ts a fun b =>
        ∃ q, (tree.root g, q) ∈ g.stepsAt (a.headD 0) ∧ b = q :: a)
    {a : List Nat} (h : g.AwaitsRest a p d forest ts)
    (hts : ∀ token ∈ forest.flatMap Tree.yield ++ ts, token.kind ≠ .eof) :
    t.Leads (forest.flatMap Tree.yield) ts a fun b => g.Climbs a (forest.map (Tree.root g)) b := by
  induction forest generalizing a d with
  | nil => exact ⟨[], a, .refl a, rfl, Or.inr (.refl a)⟩
  | cons tree forest ih =>
    rw [List.flatMap_cons, List.append_assoc] at hts
    rw [List.flatMap_cons]
    refine (hlead tree List.mem_cons_self _ a (h.head hw) hts).bind ?_
    rintro _ ⟨q, hq, rfl⟩
    obtain ⟨ms, b, hms, hshift, hend⟩ := ih (fun tree' h' => hlead tree' (.tail _ h'))
      (h.tail hw hr hq) fun token h' => hts token (List.mem_append_right _ h')
    exact ⟨ms, b, hms, hshift, hend.imp_right (.step hq)⟩

include ht

/-- In tables without conflicts every tree that is awaited leads over its leaves to the state behind
its root. -/
theorem Tree.Valid.leads (he : g.EndFree) (hc : t.conflicts = []) {tree : Tree} (h : tree.Valid g)
    (ts : List Token) (a : List Nat) (haw : g.Awaits a tree ts)
    (hts : ∀ token ∈ tree.yield ++ ts, token.kind ≠ .eof) :
    t.Leads tree.yield ts a fun b =>
      ∃ q, (tree.root g, q) ∈ g.stepsAt (a.headD 0) ∧ b = q :: a := by
  induction h generalizing ts a with
  | leaf token =>
    obtain ⟨i, j, hexp, hnext, _⟩ := haw
    obtain ⟨q, hq⟩ := exists_step hw hr (hexp.mem_closure hw) hnext
    have hact : t.action (a.headD 0) token.kind = .shift q := action_of_step hw hr ht he hc hq
    have hd := default_eq_none hw hr ht (by rw [hact]; simp) (by rw [hact]; simp)
    rw [Tree.yield_leaf]
    exact ⟨[.shift token], _, .shift hd hact (.refl _), rfl, Or.inr ⟨q, hq, rfl⟩⟩
  | node p children hp hroots hchildren ih =>
    obtain ⟨hzero, hrest⟩ := haw.children hw hr (.node p children hp hroots hchildren)
    rw [Tree.yield_node] at hts
    rw [Tree.yield_node, ← List.append_nil (children.flatMap Tree.yield)]
    refine (leads_forest hw hr ih hrest hts).bind fun b hclimb => ?_
    -- All children are on the stack, so the production is complete and reduces to its node.
    have hend := hclimb.expects hw hr hrest.expects (hrest.roots ▸ List.prefix_refl _)
    rw [hroots, Nat.zero_add] at hend
    rw [hroots] at hclimb
    obtain ⟨la, hmem, hla⟩ := hend.reduction hw (List.getElem?_eq_none (Nat.le_refl _))
    rcases action_of_reduction hw hr ht hc hmem hla with hact | hact
    · rw [Row.entry, if_neg hzero] at hact
      obtain ⟨q, hq⟩ := exists_goto hw hr hzero (hrest.expects.mem_closure hw)
      refine ⟨[.reduce p], _, .reduce (chooses_of_action hw hr ht hact) (q := q) ?_ (.refl _), rfl,
        Or.inr ⟨q, hq, ?_⟩⟩
      · rw [(tables_spec ht).2.1, hclimb.drop]
        exact (goto_eq_some_iff hw hr ht).mpr hq
      · rw [(tables_spec ht).2.1, hclimb.drop]
    · -- Only the end of the input is accepted.
      have heof := eof_of_accept hw hr ht hact
      have hnil : ts = [] := by
        cases ts with
        | nil => rfl
        | cons token ts =>
          exact absurd heof (hts token (List.mem_append_right _ List.mem_cons_self))
      exact ⟨[], b, .refl b, rfl, Or.inl ⟨hnil, heof ▸ hact⟩⟩

/-- In tables without conflicts the moves over a sentence end where the tables accept. -/
theorem exists_accepting_track (he : g.EndFree) (hc : t.conflicts = []) {w : List Token}
    (hs : g.Sentence (w.map Token.kind)) (hw' : ∀ token ∈ w, token.kind ≠ .eof) :
    ∃ ms b, t.Track [] [0] ms b ∧ shifted ms = w ∧ t.action (b.headD 0) .eof = .accept := by
  rw [Sentence, List.map_map] at hs
  obtain ⟨forest, hroots, hvalid, hyield⟩ := Derives.forest hs
  have hstart := awaits_start hw hr forest hroots hvalid
  obtain ⟨ms, b, hms, hshift, ⟨_, hacc⟩ | hclimb⟩ := leads_forest hw hr
    (fun tree h => (hvalid tree h).leads hw hr ht he hc) hstart
    (by rwa [hyield, List.append_nil])
  · exact ⟨ms, b, hms, hshift.trans hyield, hacc⟩
  · -- The start item is complete before the end of the input, so the tables accept there.
    refine ⟨ms, b, hms, hshift.trans hyield, ?_⟩
    have hend := hclimb.expects hw hr hstart.expects (hstart.roots ▸ List.prefix_refl _)
    rw [hroots, Nat.zero_add] at hend
    obtain ⟨la, hmem, hla⟩ := hend.reduction hw (List.getElem?_eq_none (Nat.le_refl _))
    rcases action_of_reduction hw hr ht hc hmem hla with hact | hact
    · rwa [Row.entry, if_pos rfl] at hact
    · exact hact

end Trees

section Runs

/-- The machine follows a track over the tokens that come, if none of them is invalid and the
reductions go on without a change to these tokens. -/
theorem Tables.Track.run {c : Configuration V G M} {a b : List Nat} {ms : List Move}
    {ts : List Token} (h : t.Track ts a ms b) (ha : c.states = a)
    (hcome : c.coming = shifted ms ++ ts) (hv : ∀ token ∈ c.coming, token.kind ≠ .invalid)
    (hgo : ∀ ms' c', Run t s c ms' c' → ∀ i q, c'.move? t = some (.reduce i) →
      t.goto ((c'.states.drop (t.grammar.production i).rhs.length).headD 0)
        (t.grammar.production i).lhs = some q →
      ∃ c'', c'.step t s = .more c'' ∧ c''.coming = c'.coming) :
    ∃ c', Run t s c ms c' ∧ c'.states = b ∧ c'.coming = ts := by
  induction h generalizing c with
  | refl => exact ⟨c, .refl, ha, hcome⟩
  | @shift a b ms token q hd hq h ih =>
    subst ha
    have hcome' : c.coming = token :: (shifted ms ++ ts) := hcome
    obtain rfl := Configuration.token_of_coming hcome'
    obtain ⟨c₁, hstep, hmove, hstates, hcome₁⟩ := Configuration.step_of_shift (s := s) hd hq
      (hv _ (hcome' ▸ List.mem_cons_self)) hcome'
    have hrun : Run t s c [.shift c.token] c₁ := by simpa [hmove] using Run.refl.tail hstep
    obtain ⟨c₂, hrun₂, hend⟩ := ih (c := c₁) (by rw [hstates]) hcome₁
      (fun token h' => hv token (hcome' ▸ .tail _ (hcome₁ ▸ h')))
      (fun ms' c' hrun' => hgo _ c' (hrun.trans hrun'))
    exact ⟨c₂, hrun.trans hrun₂, hend⟩
  | @reduce a b ms i q hi hq h ih =>
    subst ha
    have hkind : c.token.kind = following (shifted ms ++ ts) := by
      rw [Configuration.token_kind, hcome]
      rfl
    have hmove : c.move? t = some (.reduce i) :=
      Configuration.move_of_chooses (hkind ▸ hi) (Configuration.token_kind_ne_invalid hv)
    obtain ⟨c₁, hstep, hcome₁⟩ := hgo [] c .refl i q hmove hq
    have hrun : Run t s c [.reduce i] c₁ := by simpa [hmove] using Run.refl.tail hstep
    obtain ⟨c₂, hrun₂, hend⟩ := ih (c := c₁)
      (Configuration.states_of_reduce hstep hmove hq) (hcome₁.trans hcome)
      (fun token h' => hv token (hcome₁ ▸ h'))
      (fun ms' c' hrun' => hgo _ c' (hrun.trans hrun'))
    exact ⟨c₂, hrun.trans hrun₂, hend⟩

/-- Where no reduction changes the tokens that come, these and the shifted ones are always the
tokens of the whole input, up to an end of the input among them. -/
theorem Run.coming_of_kept {c c' : Configuration V G M} {ms : List Move} (h : Run t s c ms c')
    (hne : ∀ token ∈ shifted ms, token.kind ≠ .eof)
    (hkeep : ∀ ms₁ c₁ c₂ i, Run t s c ms₁ c₁ → c₁.move? t = some (.reduce i) →
      c₁.step t s = .more c₂ → c₂.coming = c₁.coming) :
    shifted ms ++ c'.coming = c.coming := by
  induction h with
  | refl => rfl
  | @tail ms c₁ c₂ hrun hs ih =>
    rw [shifted_append] at hne
    rw [← ih fun token h' => hne token (List.mem_append_left _ h'), shifted_append,
      List.append_assoc]
    congr 1
    rcases Configuration.step_eq_more hs with ⟨q, hq, hmove, rfl⟩ | ⟨i, hmove, _⟩
    · rw [hmove] at hne ⊢
      rw [Configuration.coming_eq_cons (hne c₁.token (by simp))]
      rfl
    · rw [hmove]
      exact hkeep ms c₁ c₂ i hrun hmove hs

variable (hw : g.WellFormed) (hr : g.Unreserved) (ht : g.tables = .ok t)

include hw hr ht

/-- A parse that nothing disturbs accepts a sentence of valid tokens. -/
theorem exists_accepting (he : g.EndFree) (hc : t.conflicts = []) {supply : Supply} {memory : M}
    {c : Configuration V G M} (h₀ : c = { supply, memory }) (hcalm : c.Calm t s)
    (hs : g.Sentence (c.coming.map Token.kind)) (hv : ∀ token ∈ c.coming, token.kind ≠ .invalid) :
    ∃ ms c', Run t s c ms c' ∧ c'.Accepting t ∧ c'.coming = [] := by
  obtain ⟨ms, b, htrack, hshift, hacc⟩ := exists_accepting_track hw hr ht he hc hs
    c.kind_ne_eof
  obtain ⟨c', hrun, rfl, hnil⟩ := htrack.run (s := s) (c := c) (by rw [h₀])
    (by rw [hshift, List.append_nil]) hv fun ms' c' hrun' i q hmove _ => by
      by_contra hnone
      exact hcalm ms' c' hrun' ⟨i, hmove, fun c'' hs heq => hnone ⟨c'', hs, heq⟩⟩
  have hact : t.action c'.top c'.token.kind = .accept := by
    rw [Configuration.token_kind, hnil]
    exact hacc
  refine ⟨ms, c', hrun, ⟨?_, hact⟩, hnil⟩
  exact default_eq_none hw hr ht (by rw [hact]; simp) (by rw [hact]; simp)

/-- No item has the end of the input behind its dot, so that is never shifted. -/
theorem kind_ne_eof_of_shift (he : g.EndFree) {q q' : Nat} {k : Kind}
    (hq : t.action q k = .shift q') : k ≠ .eof := by
  rintro rfl
  obtain ⟨j, _, hnext⟩ := exists_item_of_step hw hr (step_of_shift hw hr ht hq)
  exact he j.prod (prod_lt_of_next hnext) (mem_rhs_of_next hnext)

theorem Tables.Track.kind_ne_eof (he : g.EndFree) {ts : List Token} {a b : List Nat}
    {ms : List Move} (h : t.Track ts a ms b) : ∀ token ∈ shifted ms, token.kind ≠ .eof := by
  induction h with
  | refl => simp [shifted]
  | @shift a b ms token q _ hq _ ih =>
    intro token' hmem
    rcases List.mem_cons.mp (show token' ∈ token :: shifted ms from hmem) with rfl | hmem
    · exact kind_ne_eof_of_shift hw hr ht he hq
    · exact ih token' hmem
  | reduce _ _ _ ih => exact ih

/-- The tokens that were shifted and those that come are the tokens of the whole input, in a run
that nothing disturbs. -/
theorem Run.coming (he : g.EndFree) {c c' : Configuration V G M} {ms : List Move}
    (h : Run t s c ms c') (hcalm : c.Calm t s) : shifted ms ++ c'.coming = c.coming := by
  have htrack := h.track [c'.token] rfl
  refine h.coming_of_kept (htrack.kind_ne_eof hw hr ht he) fun ms₁ c₁ c₂ i hrun hmove hs => ?_
  by_contra hne
  refine hcalm _ _ hrun ⟨i, hmove, fun c₃ hs' => ?_⟩
  obtain rfl := Progress.more.inj (hs.symm.trans hs')
  exact hne

end Runs

/-- Where the value of a production can be computed whatever token has been looked at, a reduction
goes on if there is a state to go to. Only a complete goal changes the tokens that come. -/
theorem Configuration.step_of_value {P : Reduced V G M → Prop} {c : Configuration V G M} {i q : Nat}
    (hmove : c.move? t = some (.reduce i))
    (hgoto : t.goto ((c.states.drop (t.grammar.production i).rhs.length).headD 0)
      (t.grammar.production i).lhs = some q)
    (hvalue : ∀ c₁ : Configuration V G M, ∃ r, c₁.valueOf s i (c.args t i) = .ok r ∧ P r) :
    ∃ c' r, c.step t s = .more c' ∧ P r ∧
      c'.states = q :: c.states.drop (t.grammar.production i).rhs.length ∧
      c'.values = r.value :: c.values.drop (t.grammar.production i).rhs.length ∧
      (r.goal = none ∨ c.coming = [] → c'.coming = c.coming) := by
  have hreduce (c₁ : Configuration V G M) (hstates : c₁.states = c.states)
      (hvalues : c₁.values = c.values) (hcoming : c₁.coming = c.coming) :
      ∃ c' r, c₁.reduce t s i = .more c' ∧ P r ∧
        c'.states = q :: c.states.drop (t.grammar.production i).rhs.length ∧
        c'.values = r.value :: c.values.drop (t.grammar.production i).rhs.length ∧
        (r.goal = none ∨ c.coming = [] → c'.coming = c.coming) := by
    obtain ⟨r, hr, hP⟩ := hvalue c₁
    unfold args at hr
    refine ⟨_, r, by simp only [reduce, hvalues, hr, hstates, hgoto]; rfl, hP, rfl, rfl, ?_⟩
    rw [← hcoming]
    rintro (hgoal | hnil)
    · simp only [hgoal, Option.isSome_none, Bool.false_eq_true, ↓reduceIte]
      rfl
    · rw [hnil]
      unfold coming at hnil ⊢
      split
      · cases ha : c₁.ahead with
        | none => rfl
        | some token =>
          have hfirst : ¬ (token.kind != .eof) = true := by simpa [ha] using hnil
          exact List.takeWhile_cons_of_neg hfirst
      · exact hnil
  -- A default reduction leaves the next token unread, any other one looks at it.
  rcases chooses_of_move hmove with hd | ⟨hd, hact⟩
  · obtain ⟨c', r, hred, hrest⟩ := hreduce c rfl rfl rfl
    exact ⟨c', r, by simp only [step, hd, hred], hrest⟩
  · rcases step_of_default_none (s := s) hd with ⟨_, hstep⟩ | ⟨_, hread, _⟩
    · obtain ⟨c', r, hred, hrest⟩ := hreduce c.look look_states look_values look_coming
      refine ⟨c', r, ?_, hrest⟩
      rw [hstep, act, look_top, hact]
      exact hred
    · simp [move?, hd, hread] at hmove

/-- Semantics whose reductions always succeed and never complete the goal. -/
def Semantics.Quiet (s : Semantics V G M) : Prop :=
  ∀ i reduce, s.reduction? i = some reduce → ∀ line args memory,
    ∃ r, reduce line args memory = .ok r ∧ r.goal = none

/-- With quiet semantics a reduction goes on wherever there is a state to go to, and leaves the
tokens that come as they are. -/
theorem Semantics.Quiet.step_eq_more (hs : s.Quiet) {c : Configuration V G M} {i q : Nat}
    (hmove : c.move? t = some (.reduce i))
    (hgoto : t.goto ((c.states.drop (t.grammar.production i).rhs.length).headD 0)
      (t.grammar.production i).lhs = some q) :
    ∃ c', c.step t s = .more c' ∧ c'.coming = c.coming := by
  have hvalue (c : Configuration V G M) (args : List V) :
      ∃ r, c.valueOf s i args = .ok r ∧ r.goal = none := by
    unfold Configuration.valueOf
    split
    · rename_i reduce hreduce
      exact hs i reduce hreduce _ _ _
    · split <;> exact ⟨_, rfl, rfl⟩
  obtain ⟨c', r, hstep, hgoal, _, _, hcome⟩ :=
    Configuration.step_of_value hmove hgoto fun c₁ => hvalue c₁ (c.args t i)
  exact ⟨c', hstep, hcome (Or.inl hgoal)⟩

/-- Quiet semantics disturb no parse. -/
theorem calm_of_quiet (hw : g.WellFormed) (hr : g.Unreserved) (ht : g.tables = .ok t)
    (hs : s.Quiet) (supply : Supply) (memory : M) :
    Configuration.Calm t s { supply, memory } := by
  rintro ms c hrun ⟨i, hmove, hchanged⟩
  obtain ⟨ts, hts⟩ := Parsing.of_run hw hr ht hrun
  obtain ⟨_, _, _, q, hgoto⟩ :=
    Tables.Reduces.finds hw hr ht hts.path (Configuration.reduces_of_move hmove)
  rw [← (tables_spec ht).2.1] at hgoto
  obtain ⟨c', hstep, hcome⟩ := hs.step_eq_more hmove hgoto
  exact hchanged c' hstep hcome

/-- No invalid token is shifted. -/
theorem Run.valid {supply : Supply} {memory : M} {c : Configuration V G M} {ms : List Move}
    (h : Run t s { supply, memory } ms c) :
    (∀ token ∈ c.ahead, token.kind ≠ .invalid) ∧
      ∀ token ∈ shifted ms, token.kind ≠ .invalid := by
  induction h with
  | refl => simp [shifted]
  | @tail ms c₁ c₂ hrun hs ih =>
    -- A token is looked at only when it was valid, either now or when it was read.
    have hread (hd : t.defaultAt c₁.top = none) : c₁.token.kind ≠ .invalid := by
      rcases Configuration.step_of_default_none (s := s) hd with ⟨hread, _⟩ | ⟨_, _, hfail⟩
      · cases ha : c₁.ahead with
        | some token =>
          have htoken : c₁.token = token := by simp [Configuration.token, ha]
          rw [htoken]
          exact ih.1 token (by simp [ha])
        | none => simpa [Configuration.refuses, ha] using hread
      · rw [hfail] at hs
        cases hs
    rw [shifted_append]
    rcases Configuration.step_eq_more hs with ⟨q, hq, hmove, rfl⟩ | ⟨i, hmove, hred⟩
    · have hd : t.defaultAt c₁.top = none := by
        cases hd : t.defaultAt c₁.top with
        | none => rfl
        | some i => simp [Configuration.move?, hd] at hmove
      refine ⟨by simp, fun token htoken => ?_⟩
      rw [hmove, Option.toList_some, shifted_shift, List.mem_append, List.mem_singleton] at htoken
      rcases htoken with htoken | rfl
      · exact ih.2 token htoken
      · exact hread hd
    · refine ⟨?_, by simpa [hmove] using ih.2⟩
      rcases hred with ⟨_, hred⟩ | ⟨⟨hd, _⟩, hred⟩
      · obtain ⟨r, q, _, _, rfl⟩ := Configuration.reduce_eq_more hred
        exact ih.1
      · obtain ⟨r, q, _, _, rfl⟩ := Configuration.reduce_eq_more hred
        simpa using hread hd

end ObjectPascal.Grammar
