import ObjectPascal.Grammar.Table
import ObjectPascal.Proofs.Grammar.Collection

/-!
The cells of the tables. However conflicts are decided, a cell of the action table holds an action
that applies in its state: a shift along a step of the automaton, or a reduction by a production
that stands complete in the closure of the state with the token in its lookahead. A default
reduction is one of the reductions of its state, and the goto table is the automaton itself.
-/

namespace ObjectPascal.Grammar

variable {g : Grammar} {t : Tables}

/-- The kernel items of all states of a grammar in one row. -/
def slots (g : Grammar) : Slots := Slots.of g.survey g.survey.automaton

/-- The kernel of a state with the lookahead of each item. -/
def kernelSets (g : Grammar) (q : Nat) : List (Item × NatSet) :=
  g.slots.kernel g.slots.lookaheads q

/-- The reductions that apply in a state, with their lookaheads. -/
def reductionsAt (g : Grammar) (q : Nat) : List (Nat × NatSet) :=
  g.survey.reductions (g.kernelSets q)

/-- The reductions of a state are in a form that evaluates when they are sorted by insertion. -/
theorem mergeSort_reductions (l : List (Nat × NatSet)) :
    (l.mergeSort fun a b => a.1 ≤ b.1) = l.insertionSort fun a b => decide (a.1 ≤ b.1) = true := by
  refine mergeSort_eq_insertionSort (fun a b c hab hbc => ?_) (fun a b => ?_) l
  · simp only [decide_eq_true_eq] at hab hbc ⊢
    exact Nat.le_trans hab hbc
  · simp only [Bool.or_eq_true, decide_eq_true_eq]
    exact Nat.le_total a.1 b.1

/-- The row of a state with its shifts alone. -/
def shiftRow (g : Grammar) (q : Nat) : Array Action :=
  (g.stepsAt q).foldl (fun (row : Array Action) (x, q) =>
    match x with
    | .terminal k => row.setIfInBounds k.index (.shift q)
    | .nonterminal _ => row) (.replicate Kind.count .error)

/-- The row of the goto table of a state. -/
def gotoRow (g : Grammar) (q : Nat) : Array (Option Nat) :=
  (g.stepsAt q).foldl (fun (row : Array (Option Nat)) (x, q) =>
    match x with
    | .terminal _ => row
    | .nonterminal n => row.setIfInBounds n (some q)) (.replicate g.nonterminalCount none)

/-- The row of a state with all its actions, and the conflicts met up to its end. -/
def rowAt (g : Grammar) (q : Nat) (conflicts : List Conflict) : Row :=
  (g.reductionsAt q).foldl (fun (r : Row) (i, la) => r.enterAll g q i la)
    ⟨g.shiftRow q, conflicts⟩

theorem enterState_eq (tables : Tables) (q : Nat) :
    Tables.enterState g.slots g.slots.lookaheads tables q =
      { tables with
        actions := tables.actions.push (g.rowAt q tables.conflicts).actions
        gotos := tables.gotos.push (g.gotoRow q)
        defaults := tables.defaults.push
          (defaultOf (g.rowAt q tables.conflicts).actions.toList none)
        conflicts := (g.rowAt q tables.conflicts).conflicts } := rfl

section Rows

variable (q : Nat) (k : Kind) (i : Nat) (la : NatSet) (r : Row)

/-- What entering a reduction does to the row: nothing but to the cell of its token, and there the
reduction, no action at all or what was there before. -/
theorem enter_spec :
    ((r.enter g q k i).actions = r.actions ∨ (r.enter g q k i).actions = (r.set k .error).actions ∨
      (r.enter g q k i).actions = (r.set k (.reduce i)).actions) ∧
    (r.conflicts <:+ (r.enter g q k i).conflicts) := by
  unfold Row.enter
  dsimp only
  split
  · exact ⟨Or.inr (Or.inr rfl), List.suffix_refl _⟩
  · exact ⟨Or.inl rfl, List.suffix_cons _ _⟩
  · exact ⟨Or.inl rfl, List.suffix_refl _⟩
  · split
    · exact ⟨Or.inl rfl, List.suffix_cons _ _⟩
    · exact ⟨Or.inl rfl, List.suffix_cons _ _⟩
    · split
      · exact ⟨Or.inr (Or.inr rfl), List.suffix_cons _ _⟩
      · split
        · split
          · exact ⟨Or.inr (Or.inr rfl), List.suffix_cons _ _⟩
          · exact ⟨Or.inr (Or.inl rfl), List.suffix_cons _ _⟩
          · exact ⟨Or.inl rfl, List.suffix_cons _ _⟩
        · exact ⟨Or.inl rfl, List.suffix_cons _ _⟩

theorem enterAll_suffix : r.conflicts <:+ (r.enterAll g q i la).conflicts := by
  unfold Row.enterAll
  refine List.foldlRecOn Kind.all _ (motive := fun r' : Row => r.conflicts <:+ r'.conflicts)
    (List.suffix_refl _) ?_
  intro r' hr' k _
  split
  · split
    · exact hr'
    · exact hr'.trans (enter_spec q k i r').2
  · exact hr'

end Rows

theorem rowAt_suffix (q : Nat) (conflicts : List Conflict) :
    conflicts <:+ (g.rowAt q conflicts).conflicts := by
  unfold rowAt
  refine List.foldlRecOn _ _ (motive := fun r : Row => conflicts <:+ r.conflicts)
    (List.suffix_refl _) ?_
  intro r hr e _
  exact hr.trans (enterAll_suffix q e.1 e.2 r)

/-- The row of state `q` in tables, and what the conflicts of the tables say of it. -/
structure HasRow (g : Grammar) (t : Tables) (q : Nat) (conflicts : List Conflict) : Prop where
  actions : t.actions[q]? = some (g.rowAt q conflicts).actions
  gotos : t.gotos[q]? = some (g.gotoRow q)
  defaults : t.defaults[q]? = some (defaultOf (g.rowAt q conflicts).actions.toList none)
  conflict_mem : ∀ c ∈ (g.rowAt q conflicts).conflicts, c ∈ t.conflicts

/-- The tables have the rows of all states in order. -/
theorem foldl_enterState (n : Nat) (blank : Tables)
    (hb : blank = Tables.blank g g.survey.automaton) :
    let built := (List.range n).foldl (Tables.enterState g.slots g.slots.lookaheads) blank
    built.grammar = g ∧ built.automaton = g.survey.automaton ∧ built.actions.size = n ∧
      built.gotos.size = n ∧ built.defaults.size = n ∧ ∀ q < n, ∃ cs, HasRow g built q cs := by
  induction n with
  | zero =>
    subst hb
    exact ⟨rfl, rfl, rfl, rfl, rfl, fun q hq => absurd hq (Nat.not_lt_zero q)⟩
  | succ n ih =>
    obtain ⟨hgram, hauto, hact, hgoto, hdef, hrows⟩ := ih
    rw [List.range_succ, List.foldl_append, List.foldl_cons, List.foldl_nil, enterState_eq]
    generalize
      (List.range n).foldl (Tables.enterState g.slots g.slots.lookaheads) blank = built at *
    refine ⟨hgram, hauto, by simp [hact], by simp [hgoto], by simp [hdef], ?_⟩
    intro q hq
    -- The row entered last is that of state `n`; the rows before it stay, with their conflicts.
    by_cases hlast : q = n
    · refine ⟨built.conflicts, ?_, ?_, ?_, fun c hc => ?_⟩
      · subst hlast; simp [← hact]
      · subst hlast; simp [← hgoto]
      · subst hlast; simp [← hdef]
      · rwa [hlast] at hc
    · have hlt : q < n := by omega
      obtain ⟨cs, hrow⟩ := hrows q hlt
      refine ⟨cs, ?_, ?_, ?_, fun c hc => ?_⟩
      · rw [Array.getElem?_push_lt (by omega), ← hrow.actions, Array.getElem?_eq_getElem]
      · rw [Array.getElem?_push_lt (by omega), ← hrow.gotos, Array.getElem?_eq_getElem]
      · rw [Array.getElem?_push_lt (by omega), ← hrow.defaults, Array.getElem?_eq_getElem]
      · exact (rowAt_suffix n built.conflicts).subset (hrow.conflict_mem c hc)

theorem exists_tables (h : g.fault? = none) : ∃ t, g.tables = .ok t := by
  unfold tables
  rw [h]
  exact ⟨_, rfl⟩

theorem tables_spec (ht : g.tables = .ok t) :
    g.fault? = none ∧ t.grammar = g ∧ t.automaton = g.survey.automaton ∧
      t.actions.size = g.stateCount ∧ t.gotos.size = g.stateCount ∧
      t.defaults.size = g.stateCount ∧ ∀ q < g.stateCount, ∃ cs, HasRow g t q cs := by
  unfold tables at ht
  split at ht
  · cases ht
  · rename_i hfault
    obtain rfl := Except.ok.inj ht
    obtain ⟨hgram, hauto, hact, hgoto, hdef, hrows⟩ :=
      foldl_enterState (g := g) g.stateCount _ rfl
    refine ⟨hfault, hgram, hauto, hact, hgoto, hdef, ?_⟩
    intro q hq
    obtain ⟨cs, hrow⟩ := hrows q hq
    exact ⟨cs, hrow.actions, hrow.gotos, hrow.defaults,
      fun c hc => List.mem_reverse.mpr (hrow.conflict_mem c hc)⟩

section Enter

variable {α : Type} (key : Symbol → Option Nat) (value : Nat → α)

/-- Enters what a list of steps leads to at the places of their symbols. -/
def enterSteps (l : List (Symbol × Nat)) (row : Array α) : Array α :=
  l.foldl (fun row e =>
    match key e.1 with
    | some n => row.setIfInBounds n (value e.2)
    | none => row) row

theorem enterSteps_size (l : List (Symbol × Nat)) (row : Array α) :
    (enterSteps key value l row).size = row.size := by
  induction l generalizing row with
  | nil => rfl
  | cons e l ih =>
    simp only [enterSteps, List.foldl_cons] at ih ⊢
    rw [ih]
    split
    · exact Array.size_setIfInBounds
    · rfl

theorem enterSteps_of_notMem (l : List (Symbol × Nat)) (row : Array α) (d : α) {n : Nat}
    (h : ∀ e ∈ l, key e.1 ≠ some n) : (enterSteps key value l row).getD n d = row.getD n d := by
  induction l generalizing row with
  | nil => rfl
  | cons e l ih =>
    simp only [enterSteps, List.foldl_cons] at ih ⊢
    rw [ih _ fun e' he' => h e' (List.mem_cons_of_mem _ he')]
    have he := h e List.mem_cons_self
    split
    · rename_i m hm
      have hne : m ≠ n := fun hmn => he (hmn ▸ hm)
      simp [Array.getD_eq_getD_getElem?, Array.getElem?_setIfInBounds_ne hne]
    · rfl

theorem enterSteps_of_mem (hinj : ∀ x y n, key x = some n → key y = some n → x = y)
    (l : List (Symbol × Nat)) (hl : (l.map (·.1)).Nodup) (row : Array α) (d : α) {n : Nat}
    (hn : n < row.size) {x : Symbol} {q : Nat} (h : (x, q) ∈ l) (hx : key x = some n) :
    (enterSteps key value l row).getD n d = value q := by
  induction l generalizing row with
  | nil => cases h
  | cons e l ih =>
    rw [List.map_cons, List.nodup_cons] at hl
    rcases List.mem_cons.mp h with rfl | h
    · -- No later step has the same symbol, so nothing overwrites what is entered here.
      have hrest := enterSteps_of_notMem key value l (row.setIfInBounds n (value q)) d
        (n := n) fun e he hkey => hl.1 (List.mem_map.mpr ⟨e, he, hinj _ _ _ hkey hx⟩)
      simp only [enterSteps, List.foldl_cons, hx] at hrest ⊢
      rw [hrest]
      simp [Array.getD_eq_getD_getElem?, hn]
    · have hrest := ih hl.2
      simp only [enterSteps, List.foldl_cons] at hrest ⊢
      refine hrest _ ?_ h
      split
      · rwa [Array.size_setIfInBounds]
      · exact hn

end Enter

/-- The place of a terminal in a row of actions. -/
def terminalPlace : Symbol → Option Nat
  | .terminal k => some k.index
  | .nonterminal _ => none

/-- The place of a nonterminal in a row of the goto table. -/
def nonterminalPlace : Symbol → Option Nat
  | .terminal _ => none
  | .nonterminal n => some n

theorem terminalPlace_eq_some {x : Symbol} {k : Kind} (h : terminalPlace x = some k.index) :
    x = .terminal k := by
  cases x with
  | terminal l => exact congrArg _ (Kind.index_inj (Option.some.inj h))
  | nonterminal n => cases h

theorem nonterminalPlace_eq_some {x : Symbol} {n : Nat} (h : nonterminalPlace x = some n) :
    x = .nonterminal n := by
  cases x with
  | terminal l => cases h
  | nonterminal m => exact congrArg _ (Option.some.inj h)

theorem shiftRow_eq (q : Nat) : g.shiftRow q =
    enterSteps terminalPlace .shift (g.stepsAt q) (.replicate Kind.count .error) := by
  unfold shiftRow enterSteps
  congr 1
  funext row ⟨x, q⟩
  cases x <;> rfl

theorem gotoRow_eq (q : Nat) : g.gotoRow q =
    enterSteps nonterminalPlace some (g.stepsAt q) (.replicate g.nonterminalCount none) := by
  unfold gotoRow enterSteps
  congr 1
  funext row ⟨x, q⟩
  cases x <;> rfl

theorem shiftRow_size (q : Nat) : (g.shiftRow q).size = Kind.count := by
  rw [shiftRow_eq, enterSteps_size, Array.size_replicate]

section Applies

variable (hw : g.WellFormed) (hr : g.Unreserved)

include hw hr

theorem shiftRow_of_step {q q' : Nat} {k : Kind} (h : (.terminal k, q') ∈ g.stepsAt q) :
    (g.shiftRow q).getD k.index .error = .shift q' := by
  rw [shiftRow_eq]
  refine enterSteps_of_mem terminalPlace Action.shift ?_ _ (stepsAt_nodup hw hr q) _ _
    (by rw [Array.size_replicate]; exact k.index_lt) h rfl
  intro x y n hx hy
  cases y with
  | terminal l =>
    obtain rfl := Option.some.inj hy
    exact terminalPlace_eq_some hx
  | nonterminal m => cases hy

/-- A cell of the shifts is empty or leads along a step. -/
theorem shiftRow_cases (q : Nat) (k : Kind) : (g.shiftRow q).getD k.index .error = .error ∨
    ∃ q', (.terminal k, q') ∈ g.stepsAt q ∧ (g.shiftRow q).getD k.index .error = .shift q' := by
  by_cases hex : ∃ q', (.terminal k, q') ∈ g.stepsAt q
  · obtain ⟨q', hq'⟩ := hex
    exact Or.inr ⟨q', hq', shiftRow_of_step hw hr hq'⟩
  · left
    rw [shiftRow_eq, enterSteps_of_notMem]
    · simp [Array.getD, k.index_lt]
    · rintro ⟨x, q'⟩ he hkey
      exact hex ⟨q', terminalPlace_eq_some hkey ▸ he⟩

theorem gotoRow_of_step {q n q' : Nat} (h : (.nonterminal n, q') ∈ g.stepsAt q) :
    (g.gotoRow q).getD n none = some q' := by
  obtain ⟨j, _, hnext⟩ := exists_item_of_step hw hr h
  rw [gotoRow_eq]
  refine enterSteps_of_mem nonterminalPlace some ?_ _ (stepsAt_nodup hw hr q) _ _
    (by rw [Array.size_replicate]; exact lt_count_of_next hw hnext) h rfl
  intro x y n hx hy
  rw [nonterminalPlace_eq_some hx, nonterminalPlace_eq_some hy]

theorem step_of_gotoRow {q n q' : Nat} (h : (g.gotoRow q).getD n none = some q') :
    (.nonterminal n, q') ∈ g.stepsAt q := by
  by_cases hex : ∃ q'', (.nonterminal n, q'') ∈ g.stepsAt q
  · obtain ⟨q'', hq''⟩ := hex
    rw [gotoRow_of_step hw hr hq''] at h
    obtain rfl := Option.some.inj h
    exact hq''
  · rw [gotoRow_eq, enterSteps_of_notMem] at h
    · by_cases hn : n < g.nonterminalCount <;> simp [Array.getD, hn] at h
    · rintro ⟨x, q''⟩ he hkey
      exact hex ⟨q'', nonterminalPlace_eq_some hkey ▸ he⟩

end Applies

/-- The actions that apply in a state when a token of some kind comes next. -/
inductive Applies (g : Grammar) (q : Nat) (k : Kind) : Action → Prop
  | error : Applies g q k .error
  | shift {q' : Nat} (h : (.terminal k, q') ∈ g.stepsAt q) : Applies g q k (.shift q')
  | reduce {i : Nat} {la : NatSet} (hi : i ≠ 0) (h : (i, la) ∈ g.reductionsAt q)
      (hk : k.index ∈ la) : Applies g q k (.reduce i)
  | accept {la : NatSet} (h : (0, la) ∈ g.reductionsAt q) (hk : k.index ∈ la) :
      Applies g q k .accept

theorem Row.action_set {r : Row} (hs : r.actions.size = Kind.count) (k l : Kind) (a : Action) :
    (r.set k a).action l = if k = l then a else r.action l := by
  have hlt := k.index_lt
  by_cases hkl : k = l
  · subst hkl
    simp [Row.action, Row.set, Array.getD_eq_getD_getElem?, hs, hlt]
  · have hne : k.index ≠ l.index := fun h => hkl (Kind.index_inj h)
    simp [Row.action, Row.set, Array.getD_eq_getD_getElem?, Array.getElem?_setIfInBounds_ne hne,
      hkl]

/-- All cells of a row hold actions that apply. -/
def Row.Sound (g : Grammar) (q : Nat) (r : Row) : Prop :=
  r.actions.size = Kind.count ∧ ∀ k, Applies g q k (r.action k)

namespace Row

variable {q : Nat} {r : Row}

theorem Sound.set (h : r.Sound g q) {k : Kind} {a : Action} (ha : Applies g q k a) :
    (r.set k a).Sound g q := by
  refine ⟨by simpa [Row.set] using h.1, fun l => ?_⟩
  rw [action_set h.1]
  split
  · rename_i hkl
    exact hkl ▸ ha
  · exact h.2 l

theorem Sound.enterAll (h : r.Sound g q) {i : Nat} {la : NatSet}
    (hi : (i, la) ∈ g.reductionsAt q) : (r.enterAll g q i la).Sound g q := by
  unfold Row.enterAll
  refine List.foldlRecOn Kind.all _ (motive := Row.Sound g q) h ?_
  intro r' hr' k _
  split
  · rename_i hk
    split
    · rename_i hzero
      subst hzero
      exact hr'.set (.accept hi hk)
    · rename_i hne
      -- Soundness looks at the actions alone, and entering leaves one of three rows of actions.
      have hsame {r₁ r₂ : Row} (hact : r₁.actions = r₂.actions) (hs : r₂.Sound g q) :
          r₁.Sound g q := by
        refine ⟨by rw [hact]; exact hs.1, fun l => ?_⟩
        have heq : r₁.action l = r₂.action l := by rw [Row.action, Row.action, hact]
        rw [heq]
        exact hs.2 l
      rcases (enter_spec q k i r' (g := g)).1 with hact | hact | hact
      · exact hsame hact hr'
      · exact hsame hact (hr'.set .error)
      · exact hsame hact (hr'.set (.reduce hne hi hk))
  · exact hr'

end Row

theorem rowAt_sound (hw : g.WellFormed) (hr : g.Unreserved) (q : Nat) (cs : List Conflict) :
    (g.rowAt q cs).Sound g q := by
  unfold rowAt
  refine List.foldlRecOn _ _ (motive := Row.Sound g q) ⟨shiftRow_size q, fun k => ?_⟩ ?_
  · change Applies g q k ((g.shiftRow q).getD k.index .error)
    rcases shiftRow_cases hw hr q k with h | ⟨q', hq', h⟩
    · rw [h]
      exact .error
    · rw [h]
      exact .shift hq'
  · rintro r h ⟨i, la⟩ hi
    exact h.enterAll hi

theorem action_of_hasRow {q : Nat} {cs : List Conflict} (h : HasRow g t q cs) (k : Kind) :
    t.action q k = (g.rowAt q cs).action k := by
  simp [Tables.action, Row.action, Array.getD_eq_getD_getElem?, h.actions]

theorem default_of_hasRow {q : Nat} {cs : List Conflict} (h : HasRow g t q cs) :
    t.defaultAt q = defaultOf (g.rowAt q cs).actions.toList none := by
  simp [Tables.defaultAt, Array.getD_eq_getD_getElem?, h.defaults]

/-- The default of a row is the one production that it reduces by, and the row does nothing
else. -/
theorem defaultOf_eq_some {row : List Action} {found : Option Nat} {i : Nat}
    (h : defaultOf row found = some i) :
    (found = some i ∨ .reduce i ∈ row) ∧ (found = none ∨ found = some i) ∧
      ∀ a ∈ row, a = .error ∨ a = .reduce i := by
  induction row generalizing found with
  | nil =>
    simp only [defaultOf] at h
    exact ⟨Or.inl h, Or.inr h, by simp⟩
  | cons a row ih =>
    cases a with
    | error =>
      obtain ⟨hmem, hfound, hall⟩ := ih h
      refine ⟨hmem.imp id (List.mem_cons_of_mem _), hfound, ?_⟩
      intro a ha
      rcases List.mem_cons.mp ha with rfl | ha
      · exact Or.inl rfl
      · exact hall a ha
    | shift q => cases h
    | accept => cases h
    | reduce j =>
      -- The first reduction sets the default, and any later one has to agree with it.
      obtain ⟨rfl, hfound, hall⟩ : i = j ∧ (found = none ∨ found = some i) ∧
          ∀ a ∈ row, a = .error ∨ a = .reduce i := by
        cases found with
        | none =>
          obtain ⟨_, hj, hall⟩ := @ih (some j) h
          have hij : j = i := by simpa using hj
          exact ⟨hij.symm, Or.inl rfl, hall⟩
        | some m =>
          simp only [defaultOf] at h
          split at h
          · rename_i hjm
            obtain ⟨_, hm, hall⟩ := ih h
            have hmi : m = i := by simpa using hm
            exact ⟨(hjm.trans hmi).symm, Or.inr (congrArg some hmi), hall⟩
          · cases h
      refine ⟨Or.inr List.mem_cons_self, hfound, ?_⟩
      intro a ha
      rcases List.mem_cons.mp ha with rfl | ha
      · exact Or.inr rfl
      · exact hall a ha

theorem defaultOf_of_forall {row : List Action} {found : Option Nat} {i : Nat}
    (hall : ∀ a ∈ row, a = .error ∨ a = .reduce i) (hfound : found = none ∨ found = some i)
    (hmem : found = some i ∨ .reduce i ∈ row) : defaultOf row found = some i := by
  induction row generalizing found with
  | nil => exact hmem.resolve_right (by simp)
  | cons a row ih =>
    have hrest := fun a ha => hall a (List.mem_cons_of_mem _ ha)
    rcases hall a List.mem_cons_self with rfl | rfl
    · exact ih hrest hfound (hmem.imp id fun h => by simpa using h)
    · rcases hfound with rfl | rfl
      · exact ih hrest (Or.inr rfl) (Or.inl rfl)
      · rw [defaultOf, if_pos rfl]
        exact ih hrest (Or.inr rfl) (Or.inl rfl)

section Tables

variable (hw : g.WellFormed) (hr : g.Unreserved) (ht : g.tables = .ok t)

include hw hr ht

/-- Every cell of the action table holds an action that applies. -/
theorem action_applies (q : Nat) (k : Kind) : Applies g q k (t.action q k) := by
  obtain ⟨_, _, _, hact, _, _, hrows⟩ := tables_spec ht
  by_cases hq : q < g.stateCount
  · obtain ⟨cs, hrow⟩ := hrows q hq
    rw [action_of_hasRow hrow]
    exact (rowAt_sound hw hr q cs).2 k
  · have hq' : ¬ q < t.actions.size := by rw [hact]; exact hq
    have herr : t.action q k = .error := by simp [Tables.action, Array.getD, hq']
    rw [herr]
    exact .error

/-- The goto table is the automaton. -/
theorem goto_eq_some_iff {q n q' : Nat} :
    t.goto q n = some q' ↔ (.nonterminal n, q') ∈ g.stepsAt q := by
  obtain ⟨_, _, _, _, hgoto, _, hrows⟩ := tables_spec ht
  by_cases hq : q < g.stateCount
  · obtain ⟨cs, hrow⟩ := hrows q hq
    have heq : t.goto q n = (g.gotoRow q).getD n none := by
      simp [Tables.goto, Array.getD_eq_getD_getElem?, hrow.gotos]
    rw [heq]
    exact ⟨step_of_gotoRow hw hr, gotoRow_of_step hw hr⟩
  · have hq' : ¬ q < t.gotos.size := by rw [hgoto]; exact hq
    simp only [Tables.goto, Array.getD, hq', ↓reduceDIte, List.size_toArray, List.length_nil,
      Nat.not_lt_zero, reduceCtorEq, false_iff]
    exact fun h => hq (lt_of_mem_stepsAt hw hr h)

omit ht in
/-- The actions of a row are those of the table in the state. -/
theorem mem_row_iff {q : Nat} {cs : List Conflict} (h : HasRow g t q cs) {a : Action} :
    a ∈ (g.rowAt q cs).actions.toList ↔ ∃ k, t.action q k = a := by
  have hsize := (rowAt_sound hw hr q cs).1
  have hcell (k : Kind) (hk : k.index < (g.rowAt q cs).actions.size) :
      t.action q k = (g.rowAt q cs).actions[k.index] := by
    rw [action_of_hasRow h, Row.action, Array.getD, dif_pos hk]
    rfl
  rw [Array.mem_toList_iff, Array.mem_iff_getElem]
  constructor
  · rintro ⟨j, hj, rfl⟩
    obtain ⟨k, rfl⟩ := Kind.exists_index (hsize ▸ hj)
    exact ⟨k, hcell k hj⟩
  · rintro ⟨k, rfl⟩
    have hk : k.index < (g.rowAt q cs).actions.size := by rw [hsize]; exact k.index_lt
    exact ⟨k.index, hk, (hcell k hk).symm⟩

/-- A default reduction is a reduction of the action table, and its state has no other action. -/
theorem default_spec {q i : Nat} (h : t.defaultAt q = some i) :
    (∃ k, t.action q k = .reduce i) ∧ ∀ k, t.action q k = .error ∨ t.action q k = .reduce i := by
  obtain ⟨_, _, _, _, _, hdef, hrows⟩ := tables_spec ht
  have hq : q < g.stateCount := by
    by_contra hq
    have hq' : ¬ q < t.defaults.size := by rw [hdef]; exact hq
    simp [Tables.defaultAt, Array.getD, hq'] at h
  obtain ⟨cs, hrow⟩ := hrows q hq
  rw [default_of_hasRow hrow] at h
  obtain ⟨hmem, _, hall⟩ := defaultOf_eq_some h
  exact ⟨(mem_row_iff hw hr hrow).mp (hmem.resolve_left (by simp)),
    fun k => hall _ ((mem_row_iff hw hr hrow).mpr ⟨k, rfl⟩)⟩

/-- A state with one reduction and no other action reduces without a look at the next token. -/
theorem default_eq_some {q i : Nat} (hex : ∃ k, t.action q k = .reduce i)
    (hall : ∀ k, t.action q k = .error ∨ t.action q k = .reduce i) : t.defaultAt q = some i := by
  obtain ⟨_, _, _, hact, _, _, hrows⟩ := tables_spec ht
  have hq : q < g.stateCount := by
    by_contra hq
    have hq' : ¬ q < t.actions.size := by rw [hact]; exact hq
    obtain ⟨k, hk⟩ := hex
    simp [Tables.action, Array.getD, hq'] at hk
  obtain ⟨cs, hrow⟩ := hrows q hq
  rw [default_of_hasRow hrow]
  refine defaultOf_of_forall (fun a ha => ?_) (Or.inl rfl)
    (Or.inr ((mem_row_iff hw hr hrow).mpr hex))
  obtain ⟨k, rfl⟩ := (mem_row_iff hw hr hrow).mp ha
  exact hall k

end Tables

theorem kernelSets_fst (q : Nat) : (g.kernelSets q).map (·.1) = g.kernelAt q := by
  have h : g.slots.automaton = g.survey.automaton := rfl
  simp [kernelSets, Slots.kernel, h, kernelAt, Function.comp_def]

/-- The reductions of a state: complete items of its kernel with their own lookahead, and empty
productions of its closure with the lookahead of their nonterminal. -/
theorem mem_reductionsAt (hw : g.WellFormed) {q i : Nat} {la : NatSet} :
    (i, la) ∈ g.reductionsAt q ↔
      (∃ d, (⟨i, d⟩, la) ∈ g.kernelSets q ∧ g.next ⟨i, d⟩ = none) ∨
      ((g.production i).lhs ∈ g.survey.expanded (g.kernelAt q) ∧ i < g.productions.size ∧
        g.next ⟨i, 0⟩ = none ∧
        la = setAt (g.survey.closureLookahead (g.kernelSets q)) (g.production i).lhs) := by
  simp only [reductionsAt, Survey.reductions, List.mem_mergeSort, List.mem_append,
    List.mem_filterMap, List.mem_flatMap, NatSet.mem_below, survey_grammar, kernelSets_fst,
    mem_survey_productions hw]
  -- The two parts of the list are the two cases of the statement.
  apply or_congr
  · constructor
    · rintro ⟨⟨⟨p, d⟩, la'⟩, hmem, hnext⟩
      dsimp only at hnext
      split at hnext
      · rename_i hnone
        obtain ⟨rfl, rfl⟩ := Prod.mk.inj (Option.some.inj hnext)
        exact ⟨d, hmem, hnone⟩
      · cases hnext
    · rintro ⟨d, hmem, hnone⟩
      exact ⟨(⟨i, d⟩, la), hmem, by simp only [hnone]⟩
  · constructor
    · rintro ⟨n, ⟨_, hn⟩, p, ⟨hp, rfl⟩, hnext⟩
      split at hnext
      · rename_i hnone
        obtain ⟨rfl, rfl⟩ := Prod.mk.inj (Option.some.inj hnext)
        exact ⟨hn, hp, hnone, rfl⟩
      · cases hnext
    · rintro ⟨hn, hi, hnone, rfl⟩
      exact ⟨_, ⟨hw.lhs_lt i hi, hn⟩, i, ⟨hi, rfl⟩, by simp only [hnone]⟩

/-- What a state reduces by stands complete in its closure. -/
theorem complete_of_mem_reductionsAt (hw : g.WellFormed) (hr : g.Unreserved) {q i : Nat}
    {la : NatSet} (h : (i, la) ∈ g.reductionsAt q) :
    ⟨i, (g.production i).rhs.length⟩ ∈ g.survey.closure (g.kernelAt q) := by
  rcases (mem_reductionsAt hw).mp h with ⟨d, hmem, hnone⟩ | ⟨hn, hi, hnone, _⟩
  · have hin : ⟨i, d⟩ ∈ g.kernelAt q := by
      rw [← kernelSets_fst]
      exact List.mem_map.mpr ⟨_, hmem, rfl⟩
    have hle := (mem_items.mp ((isKernel_kernelAt hw hr q).sublist.subset hin)).2
    have hge := List.getElem?_eq_none_iff.mp hnone
    obtain rfl : d = (g.production i).rhs.length := le_antisymm hle hge
    exact (mem_closure hw).mpr (Or.inl hin)
  · have hzero : (g.production i).rhs.length = 0 :=
      Nat.le_zero.mp (List.getElem?_eq_none_iff.mp hnone)
    rw [hzero]
    exact (mem_closure hw).mpr (Or.inr ⟨rfl, hi, hn⟩)

theorem lt_stateCount_of_reduction (hw : g.WellFormed) (hr : g.Unreserved) {q i : Nat}
    {la : NatSet} (h : (i, la) ∈ g.reductionsAt q) : q < g.stateCount := by
  by_contra hq
  have hmem := complete_of_mem_reductionsAt hw hr h
  rw [kernelAt_of_le (Nat.not_lt.mp hq), closure_nil hw] at hmem
  cases hmem

end ObjectPascal.Grammar
