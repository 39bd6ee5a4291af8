import ObjectPascal.Proofs.Grammar.Propagation

/-!
Tables without conflicts. Where entering a reduction notes no conflict, the cell was empty or
accepts. So in tables that note none, every step over a token is a shift and every reduction that
applies is in its cell, but for cells that accept; and these are only for the end of the input.
-/

namespace ObjectPascal.Grammar

variable {g : Grammar} {t : Tables}

namespace Row

variable {q : Nat} {r r' : Row}

/-- A row that keeps all actions of another, but may accept instead. -/
def Keeps (r r' : Row) : Prop :=
  ∀ k, r.action k = .error ∨ r'.action k = r.action k ∨ r'.action k = .accept

theorem Keeps.trans {r'' : Row} (h : r.Keeps r') (h' : r'.Keeps r'') : r.Keeps r'' := by
  intro k
  rcases h k with herr | heq | hacc
  · exact Or.inl herr
  · rcases h' k with herr | heq' | hacc
    · exact Or.inl (heq ▸ herr)
    · exact Or.inr (Or.inl (heq'.trans heq))
    · exact Or.inr (Or.inr hacc)
  · rcases h' k with herr | heq' | hacc'
    · rw [hacc] at herr
      cases herr
    · exact Or.inr (Or.inr (heq'.trans hacc))
    · exact Or.inr (Or.inr hacc')

/-- An action other than an error is kept, or the cell accepts. -/
theorem Keeps.action (h : r.Keeps r') {k : Kind} {a : Action} (ha : a ≠ .error)
    (hr : r.action k = a ∨ r.action k = .accept) : r'.action k = a ∨ r'.action k = .accept := by
  rcases h k with herr | heq | hacc
  · rcases hr with hr | hr
    · exact absurd (hr.symm.trans herr) ha
    · rw [hr] at herr
      cases herr
  · rw [heq]
    exact hr
  · exact Or.inr hacc

/-- The action that a reduction stands for: the start production accepts. -/
def entry (i : Nat) : Action := if i = 0 then .accept else .reduce i

theorem entry_ne_error (i : Nat) : entry i ≠ .error := by
  unfold entry
  split <;> simp

/-- Entering one reduction without a new conflict. -/
theorem enter_clean {k : Kind} {i : Nat} (h : (r.enter g q k i).conflicts = r.conflicts) :
    (r.action k = .error ∧ r.enter g q k i = r.set k (.reduce i)) ∨
      (r.action k = .accept ∧ r.enter g q k i = r) := by
  have hlonger (c : Conflict) : c :: r.conflicts ≠ r.conflicts := List.cons_ne_self _ _
  unfold enter at h ⊢
  dsimp only at h ⊢
  cases hk : r.action k with
  | error => exact Or.inl ⟨rfl, rfl⟩
  | accept => exact Or.inr ⟨rfl, rfl⟩
  | reduce j =>
    simp only [hk] at h
    exact absurd h (hlonger _)
  | shift p =>
    simp only [hk] at h
    split at h
    · exact absurd h (hlonger _)
    · exact absurd h (hlonger _)
    · split at h
      · exact absurd h (hlonger _)
      · split at h
        · split at h
          · exact absurd h (hlonger _)
          · exact absurd h (hlonger _)
          · exact absurd h (hlonger _)
        · exact absurd h (hlonger _)

/-- What entering a reduction on one kind does to a row. -/
def enterOne (g : Grammar) (q i : Nat) (la : NatSet) (r : Row) (k : Kind) : Row :=
  if la.contains k.index then if i = 0 then r.set k .accept else r.enter g q k i else r

theorem enterOne_suffix (i : Nat) (la : NatSet) (k : Kind) :
    r.conflicts <:+ (enterOne g q i la r k).conflicts := by
  unfold enterOne
  split
  · split
    · exact List.suffix_refl _
    · exact (enter_spec q k i r).2
  · exact List.suffix_refl _

theorem enterOne_clean (hs : r.actions.size = Kind.count) {i : Nat} {la : NatSet} {k : Kind}
    (h : (enterOne g q i la r k).conflicts = r.conflicts) :
    (enterOne g q i la r k).actions.size = Kind.count ∧ r.Keeps (enterOne g q i la r k) ∧
      (k.index ∈ la → (enterOne g q i la r k).action k = entry i ∨
        (enterOne g q i la r k).action k = .accept) := by
  -- What is set is an empty cell, or any cell for accept: both are kept in the sense of `Keeps`.
  have hset (a : Action) (ha : r.action k = .error ∨ a = .accept) :
      (r.set k a).actions.size = Kind.count ∧ r.Keeps (r.set k a) ∧ (r.set k a).action k = a := by
    refine ⟨by simpa [Row.set] using hs, fun l => ?_, by rw [action_set hs, if_pos rfl]⟩
    rw [action_set hs]
    split
    · rename_i hkl
      exact ha.imp (fun h => hkl ▸ h) Or.inr
    · exact Or.inr (Or.inl rfl)
  unfold enterOne at h ⊢
  split
  · rename_i hk
    rw [if_pos hk] at h
    split
    · rename_i hi
      obtain ⟨hsize, hkeep, hact⟩ := hset .accept (Or.inr rfl)
      exact ⟨hsize, hkeep, fun _ => Or.inr hact⟩
    · rename_i hi
      rw [if_neg hi] at h
      rcases enter_clean h with ⟨herr, heq⟩ | ⟨hacc, heq⟩
      · obtain ⟨hsize, hkeep, hact⟩ := hset (.reduce i) (Or.inl herr)
        rw [heq]
        exact ⟨hsize, hkeep, fun _ => Or.inl (by rw [hact, entry, if_neg hi])⟩
      · rw [heq]
        exact ⟨hs, fun l => Or.inr (Or.inl rfl), fun _ => Or.inr hacc⟩
  · rename_i hk
    exact ⟨hs, fun l => Or.inr (Or.inl rfl), fun hmem => absurd hmem hk⟩

/-- The cells of a row that a reduction by `i` is entered in, for all `i` and kinds `k` with
`enters k i`, hold the reduction or accept. -/
def Holds (enters : Kind → Nat → Prop) (r : Row) : Prop :=
  ∀ k i, enters k i → r.action k = entry i ∨ r.action k = .accept

/-- A fold of entries that ends with the conflicts it began with passes through rows with these
conflicts only, so each entry has its effect and later ones keep it. -/
theorem foldl_clean {β : Type} {f : Row → β → Row} (enters : β → Kind → Nat → Prop)
    (hgrow : ∀ r b, r.conflicts <:+ (f r b).conflicts)
    (hf : ∀ r b, r.actions.size = Kind.count → (f r b).conflicts = r.conflicts →
      (f r b).actions.size = Kind.count ∧ r.Keeps (f r b) ∧ (f r b).Holds (enters b))
    (l : List β) (r : Row) (hs : r.actions.size = Kind.count)
    (h : (l.foldl f r).conflicts = r.conflicts) :
    (l.foldl f r).actions.size = Kind.count ∧ r.Keeps (l.foldl f r) ∧
      ∀ b ∈ l, (l.foldl f r).Holds (enters b) := by
  have hfold (l : List β) (r : Row) : r.conflicts <:+ (l.foldl f r).conflicts := by
    induction l generalizing r with
    | nil => exact List.suffix_refl _
    | cons b l ih => exact (hgrow r b).trans (ih (f r b))
  induction l generalizing r with
  | nil => exact ⟨hs, fun k => Or.inr (Or.inl rfl), by simp⟩
  | cons b l ih =>
    rw [List.foldl_cons] at h ⊢
    -- The conflicts at the end extend those behind the first entry, and these those at the start.
    have hone : (f r b).conflicts = r.conflicts := by
      have hrest := hfold l (f r b)
      rw [h] at hrest
      exact hrest.sublist.antisymm (hgrow r b).sublist
    obtain ⟨hsize, hkeep, hb⟩ := hf r b hs hone
    obtain ⟨hsize', hkeep', hl⟩ := ih (f r b) hsize (h.trans hone.symm)
    refine ⟨hsize', hkeep.trans hkeep', fun c hc => ?_⟩
    rcases List.mem_cons.mp hc with rfl | hc
    · exact fun k i hki => hkeep'.action (entry_ne_error i) (hb k i hki)
    · exact hl c hc

theorem enterAll_clean (hs : r.actions.size = Kind.count) {i : Nat} {la : NatSet}
    (h : (r.enterAll g q i la).conflicts = r.conflicts) :
    (r.enterAll g q i la).actions.size = Kind.count ∧ r.Keeps (r.enterAll g q i la) ∧
      (r.enterAll g q i la).Holds fun k j => j = i ∧ k.index ∈ la := by
  obtain ⟨hsize, hkeep, hall⟩ := foldl_clean (f := enterOne g q i la)
    (fun l k j => k = l ∧ j = i ∧ k.index ∈ la) (fun r k => enterOne_suffix i la k)
    (fun r k hs h => by
      obtain ⟨hsize, hkeep, hact⟩ := enterOne_clean hs h
      refine ⟨hsize, hkeep, ?_⟩
      rintro _ _ ⟨rfl, rfl, hk⟩
      exact hact hk) Kind.all r hs h
  exact ⟨hsize, hkeep, fun k j hk => hall k k.mem_all k j ⟨rfl, hk⟩⟩

end Row

/-- In a row that notes no conflict all shifts and reductions are in their cells. -/
theorem rowAt_clean {q : Nat} {cs : List Conflict} (h : (g.rowAt q cs).conflicts = cs) :
    Row.Keeps ⟨g.shiftRow q, cs⟩ (g.rowAt q cs) ∧
      ∀ e ∈ g.reductionsAt q, (g.rowAt q cs).Holds fun k i => i = e.1 ∧ k.index ∈ e.2 := by
  obtain ⟨_, hkeep, hall⟩ := Row.foldl_clean
    (f := fun (r : Row) (e : Nat × NatSet) => r.enterAll g q e.1 e.2)
    (fun e k i => i = e.1 ∧ k.index ∈ e.2) (fun r e => enterAll_suffix q e.1 e.2 r)
    (fun r e hs h => Row.enterAll_clean hs h)
    (g.reductionsAt q) ⟨g.shiftRow q, cs⟩ (shiftRow_size q) h
  exact ⟨hkeep, hall⟩

/-- Tables whose rows note no conflict have none. -/
theorem conflicts_eq_nil (ht : g.tables = .ok t)
    (h : ∀ q < g.stateCount, (g.rowAt q []).conflicts = []) : t.conflicts = [] := by
  have hbuilt (n : Nat) (hn : n ≤ g.stateCount) : ((List.range n).foldl
      (Tables.enterState g.slots g.slots.lookaheads)
      (Tables.blank g g.survey.automaton)).conflicts = [] := by
    induction n with
    | zero => rfl
    | succ n ih =>
      rw [List.range_succ, List.foldl_append, List.foldl_cons, List.foldl_nil, enterState_eq]
      rw [ih (by omega)]
      exact h n hn
  unfold tables at ht
  split at ht
  · cases ht
  · obtain rfl := Except.ok.inj ht
    exact List.reverse_eq_nil_iff.mpr (hbuilt g.stateCount (Nat.le_refl _))

section Tables

variable (hw : g.WellFormed) (hr : g.Unreserved) (ht : g.tables = .ok t)

include ht in
theorem conflicts_of_hasRow (hc : t.conflicts = []) {q : Nat} (hq : q < g.stateCount) :
    ∃ cs, HasRow g t q cs ∧ (g.rowAt q cs).conflicts = cs := by
  obtain ⟨cs, hrow⟩ := (tables_spec ht).2.2.2.2.2.2 q hq
  have hnil : (g.rowAt q cs).conflicts = [] := by
    apply List.eq_nil_iff_forall_not_mem.mpr
    intro c hmem
    have hin := hrow.conflict_mem c hmem
    rw [hc] at hin
    cases hin
  have hcs : cs = [] := List.suffix_nil.mp (hnil ▸ rowAt_suffix q cs)
  exact ⟨cs, hrow, hnil.trans hcs.symm⟩

include hw hr ht

/-- The tables accept only at the end of the input. -/
theorem eof_of_accept {q : Nat} {k : Kind} (h : t.action q k = .accept) : k = .eof := by
  have happ := action_applies hw hr ht q k
  rw [h] at happ
  cases happ with
  | accept hmem hk =>
    rcases (mem_reductionsAt hw).mp hmem with ⟨d, hd, _⟩ | ⟨hexp, _⟩
    · obtain ⟨n, hget, rfl⟩ := mem_kernelSets.mp hd
      exact Kind.index_inj (start_lookahead hw hr hget hk)
    · rw [hw.goal_lhs] at hexp
      exact absurd hexp (zero_notMem_expanded hw hr _)

/-- Without conflicts every step over a token that rules may use is a shift. -/
theorem action_of_step (he : g.EndFree) (hc : t.conflicts = []) {q q' : Nat} {k : Kind}
    (h : (.terminal k, q') ∈ g.stepsAt q) : t.action q k = .shift q' := by
  obtain ⟨cs, hrow, hclean⟩ := conflicts_of_hasRow ht hc (lt_of_mem_stepsAt hw hr h)
  have hshift : Row.action ⟨g.shiftRow q, cs⟩ k = .shift q' := shiftRow_of_step hw hr h
  have hact := (rowAt_clean hclean).1.action (by simp) (Or.inl hshift)
  rw [← action_of_hasRow hrow] at hact
  refine hact.resolve_right fun hacc => ?_
  obtain ⟨j, _, hnext⟩ := exists_item_of_step hw hr h
  rw [eof_of_accept hw hr ht hacc] at hnext
  exact he j.prod (prod_lt_of_next hnext) (mem_rhs_of_next hnext)

/-- Without conflicts every reduction that applies is in its cell, unless the cell accepts. -/
theorem action_of_reduction (hc : t.conflicts = []) {q i : Nat} {la : NatSet}
    (h : (i, la) ∈ g.reductionsAt q) {k : Kind} (hk : k.index ∈ la) :
    t.action q k = Row.entry i ∨ t.action q k = .accept := by
  obtain ⟨cs, hrow, hclean⟩ := conflicts_of_hasRow ht hc (lt_stateCount_of_reduction hw hr h)
  rw [action_of_hasRow hrow]
  exact (rowAt_clean hclean).2 _ h k i ⟨rfl, hk⟩

end Tables

end ObjectPascal.Grammar
