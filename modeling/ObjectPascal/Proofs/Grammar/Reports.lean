import ObjectPascal.Proofs.Grammar.Nonassociativity

/-!
Which clashes are reported. Entering a reduction notes a conflict wherever the cell of its token is
taken already, so a cell for which no conflict is noted holds the only action that applies. A cell
that accepts is the exception: the start production is entered first, over a shift if there is one,
and whatever is entered behind it is dropped without a note.
-/

namespace ObjectPascal.Grammar

variable {g : Grammar} {t : Tables}

section Edges

/-- No two steps of a state are over the same symbol, however many states are explored. -/
theorem explore_nodup (fuel : Nat) {a : Automaton}
    (h : ∀ es ∈ a.edges, (es.map (·.1)).Nodup) :
    ∀ es ∈ (Automaton.explore g.survey fuel a).edges, (es.map (·.1)).Nodup := by
  induction fuel generalizing a with
  | zero => exact h
  | succ fuel ih =>
    rw [Automaton.explore]
    split
    · exact h
    · rename_i kernel _
      refine ih fun es hes => ?_
      obtain ⟨ks, es', hfold, _, _, _, hmap⟩ :=
        Automaton.intern_steps (g.survey.steps kernel) a.kernels []
      have hexpand : Automaton.expand g.survey a kernel = ⟨ks, a.edges.push es'.reverse⟩ := by
        unfold Automaton.expand
        rw [hfold, List.append_nil]
      rw [hexpand] at hes
      rcases Array.mem_push.mp hes with hold | rfl
      · exact h es hold
      · have hsymbols := congrArg (List.map Prod.fst) hmap
        simp only [List.map_map, Function.comp_def] at hsymbols
        rw [hsymbols]
        exact steps_nodup kernel

theorem edges_nodup (q : Nat) : ((g.stepsAt q).map (·.1)).Nodup := by
  rw [stepsAt, Array.getD_eq_getD_getElem?]
  cases hq : g.survey.automaton.edges[q]? with
  | none => exact List.nodup_nil
  | some es => exact explore_nodup _ (by simp) es (Array.mem_of_getElem? hq)

/-- The shift over a token is in its cell. -/
theorem shiftRow_of_edge {q q' : Nat} {k : Kind} (h : (.terminal k, q') ∈ g.stepsAt q) :
    (g.shiftRow q).getD k.index .error = .shift q' := by
  rw [shiftRow_eq]
  refine enterSteps_of_mem terminalPlace Action.shift ?_ _ (edges_nodup q) _ _
    (by rw [Array.size_replicate]; exact k.index_lt) h rfl
  intro x y n hx hy
  cases y with
  | terminal l =>
    obtain rfl := Option.some.inj hy
    exact terminalPlace_eq_some hx
  | nonterminal m => cases hy

theorem shiftRow_ne_accept (q : Nat) (k : Kind) : (g.shiftRow q).getD k.index .error ≠ .accept := by
  by_cases hex : ∃ q', (.terminal k, q') ∈ g.stepsAt q
  · obtain ⟨q', hq'⟩ := hex
    rw [shiftRow_of_edge hq']
    simp
  · rw [shiftRow_eq, enterSteps_of_notMem]
    · simp [Array.getD, k.index_lt]
    · rintro ⟨x, q'⟩ he hkey
      exact hex ⟨q', terminalPlace_eq_some hkey ▸ he⟩

end Edges

/-- A conflict over a token in a state is among the given ones. -/
def Noted (q : Nat) (k : Kind) (conflicts : List Conflict) : Prop :=
  ∃ c ∈ conflicts, c.state = q ∧ c.token = k

theorem Noted.mono {q : Nat} {k : Kind} {cs cs' : List Conflict} (h : Noted q k cs)
    (hsub : cs <:+ cs') : Noted q k cs' := by
  obtain ⟨c, hc, heq⟩ := h
  exact ⟨c, hsub.subset hc, heq⟩

/-- A cell that accepts goes on to accept. -/
theorem Enters.accepting {k : Kind} {e : Nat × NatSet} {a : Action}
    (h : g.Enters k e .accept a) : a = .accept := by
  rcases h with ⟨_, rfl⟩ | ⟨_, ⟨_, rfl⟩ | ⟨_, hset⟩⟩
  · rfl
  · rfl
  · cases hset with
    | accept => rfl

namespace Row

variable {q : Nat} {k l : Kind} {r : Row} {i : Nat} {la : NatSet}

/-- Where entering a reduction notes a conflict, the cell was taken by a shift or a reduction; where
it notes none, the cell was empty and holds the reduction, or it accepts. -/
theorem enter_noted (hs : r.actions.size = Kind.count) :
    (r.action k = .error ∧ (r.enter g q k i).action k = .reduce i ∧
        (r.enter g q k i).conflicts = r.conflicts) ∨
      (r.action k = .accept ∧ r.enter g q k i = r) ∨
      (r.action k ≠ .accept ∧
        ∃ c, c.state = q ∧ c.token = k ∧ (r.enter g q k i).conflicts = c :: r.conflicts) := by
  by_cases hsame : (r.enter g q k i).conflicts = r.conflicts
  · rcases enter_clean hsame with ⟨herr, heq⟩ | hacc
    · refine Or.inl ⟨herr, ?_, hsame⟩
      rw [heq, action_set hs, if_pos rfl]
    · exact Or.inr (Or.inl hacc)
  · refine Or.inr (Or.inr ?_)
    unfold enter at hsame ⊢
    dsimp only at hsame ⊢
    cases hk : r.action k with
    | error =>
      simp only [hk] at hsame
      exact absurd rfl hsame
    | accept =>
      simp only [hk] at hsame
      exact absurd trivial hsame
    | reduce j => exact ⟨by simp, _, rfl, rfl, rfl⟩
    | shift p =>
      refine ⟨by simp, ?_⟩
      -- All cases of the levels note a conflict of the state and token.
      dsimp only
      split
      · exact ⟨_, rfl, rfl, rfl⟩
      · exact ⟨_, rfl, rfl, rfl⟩
      · split
        · exact ⟨_, rfl, rfl, rfl⟩
        · split
          · split
            · exact ⟨_, rfl, rfl, rfl⟩
            · exact ⟨_, rfl, rfl, rfl⟩
            · exact ⟨_, rfl, rfl, rfl⟩
          · exact ⟨_, rfl, rfl, rfl⟩

/-- Entering a reduction on one token notes nothing over another token, nor in a cell that accepts,
and the start production notes nothing at all. -/
theorem enterOne_conflicts (hs : r.actions.size = Kind.count) {c : Conflict}
    (hc : c ∈ (enterOne g q i la r l).conflicts) :
    c ∈ r.conflicts ∨ (c.state = q ∧ c.token = l ∧ i ≠ 0 ∧ r.action l ≠ .accept) := by
  unfold enterOne at hc
  split at hc
  · split at hc
    · exact Or.inl hc
    · rename_i hi
      rcases enter_noted hs (g := g) (q := q) (k := l) (i := i) with
        ⟨_, _, heq⟩ | ⟨_, heq⟩ | ⟨hacc, d, hstate, htoken, heq⟩
      · exact Or.inl (heq ▸ hc)
      · exact Or.inl (heq ▸ hc)
      · rw [heq] at hc
        rcases List.mem_cons.mp hc with rfl | hc
        · exact Or.inr ⟨hstate, htoken, hi, hacc⟩
        · exact Or.inl hc
  · exact Or.inl hc

theorem enterAll_conflicts (hs : r.actions.size = Kind.count) {c : Conflict}
    (hc : c ∈ (r.enterAll g q i la).conflicts) : c ∈ r.conflicts ∨ (c.state = q ∧ i ≠ 0) := by
  refine (List.foldlRecOn Kind.all (enterOne g q i la) (motive := fun r' : Row =>
    r'.actions.size = Kind.count ∧ (c ∈ r'.conflicts → c ∈ r.conflicts ∨ (c.state = q ∧ i ≠ 0)))
    ⟨hs, Or.inl⟩ ?_).2 hc
  rintro r' ⟨hs', hold⟩ l _
  refine ⟨enterOne_size q hs' i la l, fun hc => ?_⟩
  rcases enterOne_conflicts hs' hc with hc | ⟨hstate, _, hi, _⟩
  · exact hold hc
  · exact Or.inr ⟨hstate, hi⟩

/-- Of the actions entered for a token so far there is at most the one in its cell, unless a
conflict over the token was noted. None of them accepts. -/
structure Tells (q : Nat) (k : Kind) (entered : Action → Prop) (r : Row) : Prop where
  size : r.actions.size = Kind.count
  ne_error : ∀ a, entered a → a ≠ .error
  ne_accept : r.action k ≠ .accept
  tells : Noted q k r.conflicts ∨ ∀ a, entered a → r.action k = a

variable {entered : Action → Prop}

theorem Tells.enter_other (h : r.Tells q k entered) (hl : l ≠ k) :
    (enterOne g q i la r l).Tells q k entered := by
  have hact := enterOne_of_ne q h.size i la hl (g := g)
  refine ⟨enterOne_size q h.size i la l, h.ne_error, by rw [hact]; exact h.ne_accept, ?_⟩
  rcases h.tells with hnoted | htells
  · exact Or.inl (hnoted.mono (enterOne_suffix i la l))
  · exact Or.inr fun a ha => hact.trans (htells a ha)

theorem Tells.enter_own (h : r.Tells q k entered) (hi : k.index ∈ la → i ≠ 0) :
    (enterOne g q i la r k).Tells q k fun a => entered a ∨ (k.index ∈ la ∧ a = .reduce i) := by
  have hsize := enterOne_size q h.size i la k (g := g)
  have hne : ∀ a, entered a ∨ (k.index ∈ la ∧ a = .reduce i) → a ≠ .error := by
    rintro a (ha | ⟨_, rfl⟩)
    · exact h.ne_error a ha
    · simp
  by_cases hk : k.index ∈ la
  · have heq : enterOne g q i la r k = r.enter g q k i := by
      rw [enterOne, if_pos (NatSet.mem_def.mp hk), if_neg (hi hk)]
    have hsettles := enter_settles q h.size k i (g := g)
    rw [heq] at hsize ⊢
    rcases enter_noted h.size (g := g) (q := q) (k := k) (i := i) with
      ⟨herr, hact, hcs⟩ | ⟨hacc, _⟩ | ⟨_, c, hstate, htoken, hcs⟩
    · refine ⟨hsize, hne, by rw [hact]; simp, ?_⟩
      -- An empty cell tells that nothing was entered before, unless a conflict was noted.
      rcases h.tells with hnoted | htells
      · exact Or.inl (by rwa [hcs])
      · refine Or.inr ?_
        rintro a (ha | ⟨_, rfl⟩)
        · exact absurd ((htells a ha).symm.trans herr) (h.ne_error a ha)
        · exact hact
    · exact absurd hacc h.ne_accept
    · refine ⟨hsize, hne, fun hacc => ?_, Or.inl ⟨c, hcs ▸ List.mem_cons_self, hstate, htoken⟩⟩
      rw [hacc] at hsettles
      cases hcell : r.action k with
      | accept => exact h.ne_accept hcell
      | error | reduce j | shift p =>
        rw [hcell] at hsettles
        cases hsettles
  · have heq : enterOne g q i la r k = r := by rw [enterOne, if_neg (mt NatSet.mem_def.mpr hk)]
    rw [heq]
    refine ⟨h.size, hne, h.ne_accept, h.tells.imp_right fun htells a ha => ?_⟩
    exact htells a (ha.resolve_right fun hin => hk hin.1)

theorem Tells.enterAll (h : r.Tells q k entered) (hi : k.index ∈ la → i ≠ 0) :
    (r.enterAll g q i la).Tells q k fun a => entered a ∨ (k.index ∈ la ∧ a = .reduce i) := by
  obtain ⟨before, after, hsplit⟩ := List.append_of_mem k.mem_all
  have hnodup := Kind.all_nodup
  rw [hsplit, List.nodup_append, List.nodup_cons] at hnodup
  obtain ⟨_, ⟨hafter, _⟩, hbefore⟩ := hnodup
  -- Only the entry on the token itself matters; those on other tokens leave what is told.
  have hothers (l : List Kind) (hl : ∀ k' ∈ l, k' ≠ k) {entered : Action → Prop} {r : Row}
      (h : r.Tells q k entered) : (l.foldl (enterOne g q i la) r).Tells q k entered :=
    List.foldlRecOn l _ (motive := Row.Tells q k entered) h fun r' hr' k' hk' =>
      hr'.enter_other (hl k' hk')
  have hall : r.enterAll g q i la = Kind.all.foldl (enterOne g q i la) r := rfl
  rw [hall, hsplit, List.foldl_append, List.foldl_cons]
  refine hothers after (fun k' hk' heq => hafter (heq ▸ hk')) (Tells.enter_own ?_ hi)
  exact hothers before (fun k' hk' => hbefore k' hk' k List.mem_cons_self) h

/-- Once the cell of a token accepts, entries keep it and note nothing over the token. -/
theorem enterAll_accepting (i : Nat) (la : NatSet) (hs : r.actions.size = Kind.count)
    (hacc : r.action k = .accept) :
    (r.enterAll g q i la).actions.size = Kind.count ∧
      (r.enterAll g q i la).action k = .accept ∧
      ∀ c ∈ (r.enterAll g q i la).conflicts, c.token = k → c ∈ r.conflicts := by
  obtain ⟨hsize, henters⟩ := enterAll_enters q hs i la (g := g)
  refine ⟨hsize, ?_, ?_⟩
  · exact (hacc ▸ henters k).accepting
  · refine (List.foldlRecOn Kind.all _ (motive := fun r' : Row => (r'.actions.size = Kind.count ∧
      r'.action k = .accept) ∧ ∀ c ∈ r'.conflicts, c.token = k → c ∈ r.conflicts)
      ⟨⟨hs, hacc⟩, fun c hc _ => hc⟩ ?_).2
    rintro r' ⟨⟨hs', hacc'⟩, hold⟩ l _
    refine ⟨⟨enterOne_size q hs' i la l, ?_⟩, fun c hc htoken => ?_⟩
    · by_cases hl : l = k
      · subst hl
        exact (hacc' ▸ enterOne_enters q hs' i la l (g := g)).accepting
      · exact (enterOne_of_ne q hs' i la hl).trans hacc'
    · rcases enterOne_conflicts hs' hc with hc | ⟨_, rfl, _, hne⟩
      · exact hold c hc htoken
      · exact absurd (htoken ▸ hacc') hne

end Row

/-- A row in which acceptance does not apply on a token holds the only action that does, or a
conflict over the token was noted. -/
theorem rowAt_tells {q : Nat} {k : Kind} (hacc : ¬ g.Applies q k .accept) (cs : List Conflict) :
    (g.rowAt q cs).Tells q k fun a => a ≠ .error ∧ g.Applies q k a := by
  -- The reductions are entered one after the other, behind the shift.
  have hfold (l : List (Nat × NatSet)) (hl : ∀ e ∈ l, e ∈ g.reductionsAt q)
      {entered : Action → Prop} {r : Row} (h : r.Tells q k entered) :
      (l.foldl (fun (r : Row) e => r.enterAll g q e.1 e.2) r).Tells q k fun a =>
        entered a ∨ ∃ e ∈ l, k.index ∈ e.2 ∧ a = .reduce e.1 := by
    induction l generalizing r entered with
    | nil => simpa using h
    | cons e l ih =>
      have hne (hk : k.index ∈ e.2) : e.1 ≠ 0 := by
        intro hzero
        obtain ⟨i, la⟩ := e
        obtain rfl : i = 0 := hzero
        exact hacc (.accept (hl _ List.mem_cons_self) hk)
      have hrest := ih (fun e' he' => hl e' (List.mem_cons_of_mem _ he'))
        (h.enterAll (g := g) hne)
      refine ⟨hrest.size, ?_, hrest.ne_accept, hrest.tells.imp_right fun htells a ha => htells a ?_⟩
      · rintro a (ha | ⟨e', _, _, rfl⟩)
        · exact h.ne_error a ha
        · simp
      · rcases ha with ha | ⟨e', he', hk, rfl⟩
        · exact Or.inl (Or.inl ha)
        · rcases List.mem_cons.mp he' with rfl | he'
          · exact Or.inl (Or.inr ⟨hk, rfl⟩)
          · exact Or.inr ⟨e', he', hk, rfl⟩
  have hshift : Row.Tells q k (fun a => ∃ q', a = .shift q' ∧ (.terminal k, q') ∈ g.stepsAt q)
      ⟨g.shiftRow q, cs⟩ := by
    refine ⟨shiftRow_size q, ?_, shiftRow_ne_accept q k, Or.inr ?_⟩
    · rintro _ ⟨q', rfl, _⟩
      simp
    · rintro _ ⟨q', rfl, hstep⟩
      exact shiftRow_of_edge hstep
  have hrow := hfold (g.reductionsAt q) (fun _ he => he) hshift
  refine ⟨hrow.size, fun a ha => ha.1, hrow.ne_accept, hrow.tells.imp_right fun htells a ha => ?_⟩
  obtain ⟨hne, happ⟩ := ha
  cases happ with
  | error => exact absurd rfl hne
  | shift hstep => exact htells _ (Or.inl ⟨_, rfl, hstep⟩)
  | reduce _ hmem hk => exact htells _ (Or.inr ⟨_, hmem, hk, rfl⟩)
  | accept hmem hk => exact absurd (.accept hmem hk) hacc

section Folds

variable {q : Nat} {k : Kind} {c : Conflict} (l : List (Nat × NatSet)) {r : Row}

theorem foldl_conflicts (hs : r.actions.size = Kind.count)
    (hc : c ∈ (l.foldl (fun (r : Row) e => r.enterAll g q e.1 e.2) r).conflicts) :
    c ∈ r.conflicts ∨ (c.state = q ∧ ∃ e ∈ l, e.1 ≠ 0) := by
  refine (List.foldlRecOn l _ (motive := fun r' : Row => r'.actions.size = Kind.count ∧
    (c ∈ r'.conflicts → c ∈ r.conflicts ∨ (c.state = q ∧ ∃ e ∈ l, e.1 ≠ 0))) ⟨hs, Or.inl⟩ ?_).2 hc
  rintro r' ⟨hs', hold⟩ e he
  refine ⟨(Row.enterAll_enters q hs' e.1 e.2 (g := g)).1, fun hc => ?_⟩
  rcases Row.enterAll_conflicts hs' hc with hc | ⟨hstate, hne⟩
  · exact hold hc
  · exact Or.inr ⟨hstate, e, he, hne⟩

theorem foldl_accepting (hs : r.actions.size = Kind.count) (hacc : r.action c.token = .accept)
    (hc : c ∈ (l.foldl (fun (r : Row) e => r.enterAll g q e.1 e.2) r).conflicts) :
    c ∈ r.conflicts := by
  refine (List.foldlRecOn l _ (motive := fun r' : Row => (r'.actions.size = Kind.count ∧
    r'.action c.token = .accept) ∧ (c ∈ r'.conflicts → c ∈ r.conflicts)) ⟨⟨hs, hacc⟩, id⟩ ?_).2 hc
  rintro r' ⟨⟨hsize, hact⟩, hold⟩ e _
  obtain ⟨hsize', hact', hkept⟩ := Row.enterAll_accepting e.1 e.2 hsize hact (g := g) (q := q)
  exact ⟨⟨hsize', hact'⟩, fun hin => hold (hkept c hin rfl)⟩

end Folds

/-- A row notes conflicts of its own state, and none over a token on which acceptance applies. -/
theorem rowAt_conflicts {q : Nat} {cs : List Conflict} {c : Conflict}
    (hc : c ∈ (g.rowAt q cs).conflicts) :
    c ∈ cs ∨ (c.state = q ∧ ¬ g.Applies q c.token .accept) := by
  rcases foldl_conflicts _ (shiftRow_size q) hc with hc' | ⟨hstate, _⟩
  · exact Or.inl hc'
  by_cases happ : g.Applies q c.token .accept
  · -- The start production comes first, so the cell accepts before anything could be noted.
    left
    obtain ⟨la, hmem, hk⟩ : ∃ la, (0, la) ∈ g.reductionsAt q ∧ c.token.index ∈ la := by
      cases happ with
      | accept hmem hk => exact ⟨_, hmem, hk⟩
    obtain ⟨before, after, hsplit⟩ := List.append_of_mem hmem
    have hsorted := reductionsAt_ascending (g := g) q
    rw [hsplit, List.pairwise_append] at hsorted
    have hzero : ∀ e ∈ before, e.1 = 0 := fun e he =>
      Nat.le_zero.mp (hsorted.2.2 e he _ List.mem_cons_self)
    unfold rowAt at hc
    rw [hsplit, List.foldl_append, List.foldl_cons] at hc
    have hs := (foldl_enters before (g := g) (q := q) (k := c.token) (P := fun _ => True)
      (r := ⟨g.shiftRow q, cs⟩) (shiftRow_size q) trivial fun _ _ _ _ _ _ => trivial).1
    obtain ⟨hs', henters⟩ := Row.enterAll_enters q hs 0 la (g := g)
    have hacc := (henters c.token).resolve_left fun h => h.1 hk
    have hentry := foldl_accepting after hs' (hacc.2.resolve_right fun h => h.1 rfl).2 hc
    have hfront := (Row.enterAll_conflicts hs hentry).resolve_right fun h => h.2 rfl
    refine (foldl_conflicts before (shiftRow_size q) hfront).resolve_right ?_
    rintro ⟨_, e, he, hne⟩
    exact hne (hzero e he)
  · exact Or.inr ⟨hstate, happ⟩

/-- No conflict is reported over a token on which acceptance applies. -/
theorem not_applies_of_conflict (ht : g.tables = .ok t) {c : Conflict} (hc : c ∈ t.conflicts) :
    ¬ g.Applies c.state c.token .accept := by
  have hbuilt (n : Nat) (c : Conflict) (hc : c ∈ ((List.range n).foldl
      (Tables.enterState g.slots g.slots.lookaheads)
      (Tables.blank g g.survey.automaton)).conflicts) : ¬ g.Applies c.state c.token .accept := by
    induction n with
    | zero => cases hc
    | succ n ih =>
      rw [List.range_succ, List.foldl_append, List.foldl_cons, List.foldl_nil, enterState_eq] at hc
      rcases rowAt_conflicts hc with hc | ⟨hstate, happ⟩
      · exact ih hc
      · rwa [hstate]
  unfold tables at ht
  split at ht
  · cases ht
  · obtain rfl := Except.ok.inj ht
    exact hbuilt g.stateCount c (List.mem_reverse.mp hc)

/-- Where two actions apply on a token, a conflict is reported exactly if acceptance is not one
of them. -/
theorem noted_iff (ht : g.tables = .ok t) {q : Nat} (hq : q < g.stateCount) {k : Kind}
    {a b : Action} (ha : a ≠ .error) (hb : b ≠ .error) (hne : a ≠ b) (happ : g.Applies q k a)
    (happ' : g.Applies q k b) : Noted q k t.conflicts ↔ ¬ g.Applies q k .accept := by
  constructor
  · rintro ⟨c, hc, rfl, rfl⟩
    exact not_applies_of_conflict ht hc
  · intro hacc
    obtain ⟨cs, hrow⟩ := (tables_spec ht).2.2.2.2.2.2 q hq
    rcases (rowAt_tells hacc cs).tells with ⟨c, hc, heq⟩ | htells
    · exact ⟨c, hrow.conflict_mem c hc, heq⟩
    · exact absurd ((htells a ⟨ha, happ⟩).symm.trans (htells b ⟨hb, happ'⟩)) hne

/-- Where no conflict over a token is reported and acceptance applies alone or not at all, the cell
holds the only action that applies. -/
theorem action_of_unnoted (ht : g.tables = .ok t) {q : Nat} (hq : q < g.stateCount) {k : Kind}
    (hnone : ¬ Noted q k t.conflicts) (hacc : ¬ g.Applies q k .accept) {a : Action}
    (ha : a ≠ .error) (happ : g.Applies q k a) : t.action q k = a := by
  obtain ⟨cs, hrow⟩ := (tables_spec ht).2.2.2.2.2.2 q hq
  rw [action_of_hasRow hrow]
  refine ((rowAt_tells hacc cs).tells.resolve_left ?_) a ⟨ha, happ⟩
  rintro ⟨c, hc, heq⟩
  exact hnone ⟨c, hrow.conflict_mem c hc, heq⟩

end ObjectPascal.Grammar
