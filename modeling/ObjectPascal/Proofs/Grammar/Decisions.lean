import Mathlib.Data.List.Nodup
import ObjectPascal.Proofs.Grammar.Conflicts

/-!
How the cells are decided. Each cell is settled by itself: it begins with the shift of its token, if
there is one, and the reductions that apply on the token are entered one after the other. So a
production that wins over the token leaves no shift, whatever else is entered; one that does not win
is never reduced by where there is a shift; and only a token without associativity empties a cell.
-/

namespace ObjectPascal.Grammar

variable {g : Grammar} {t : Tables}

/-- A production binds tighter than a token: its level is higher, or it is the same and of two equal
operators the left one binds first. -/
def Wins (g : Grammar) (i : Nat) (k : Kind) : Prop :=
  (g.production i).prec ≠ 0 ∧ ∃ p, g.precedenceOf k = some p ∧
    (p.level < (g.production i).prec ∨ (p.level = (g.production i).prec ∧ p.assoc = .left))

/-- Equal operators must not stand side by side. -/
def Nonassociative (g : Grammar) (k : Kind) : Prop :=
  ∃ p, g.precedenceOf k = some p ∧ p.assoc = .nonassoc

/-- A token must not stand beside a production: it is on the same level and has no associativity. -/
def Clashes (g : Grammar) (i : Nat) (k : Kind) : Prop :=
  (g.production i).prec ≠ 0 ∧ g.precedenceOf k = some ⟨(g.production i).prec, .nonassoc⟩

theorem Clashes.nonassociative {i : Nat} {k : Kind} (h : g.Clashes i k) : g.Nonassociative k :=
  ⟨_, h.2, rfl⟩

theorem Clashes.not_wins {i : Nat} {k : Kind} (h : g.Clashes i k) : ¬ g.Wins i k := by
  rintro ⟨_, p, hp, hlevel⟩
  obtain rfl := Option.some.inj (h.2.symm.trans hp)
  simp at hlevel

/-- What an action on a token becomes when the reduction by a production is entered in its cell. -/
inductive Settles (g : Grammar) (k : Kind) (i : Nat) : Action → Action → Prop
  | error : Settles g k i .error (.reduce i)
  | reduce (j : Nat) : Settles g k i (.reduce j) (.reduce j)
  | accept : Settles g k i .accept .accept
  | keep {q : Nat} (h : ¬ g.Wins i k) (hc : ¬ g.Clashes i k) : Settles g k i (.shift q) (.shift q)
  | win {q : Nat} (h : g.Wins i k) : Settles g k i (.shift q) (.reduce i)
  | clash {q : Nat} (h : g.Clashes i k) : Settles g k i (.shift q) .error

/-- The same for a reduction with its lookahead: the start production accepts, and other tokens are
left alone. -/
def Enters (g : Grammar) (k : Kind) (e : Nat × NatSet) (a a' : Action) : Prop :=
  (k.index ∉ e.2 ∧ a' = a) ∨
    (k.index ∈ e.2 ∧ ((e.1 = 0 ∧ a' = .accept) ∨ (e.1 ≠ 0 ∧ g.Settles k e.1 a a')))

namespace Row

variable {r : Row} (q : Nat)

/-- Entering a reduction changes the cell of its token alone, by the levels of both. -/
theorem enter_settles (hs : r.actions.size = Kind.count) (k : Kind) (i : Nat) :
    g.Settles k i (r.action k) ((r.enter g q k i).action k) := by
  have hset (a : Action) (cs : List Conflict) :
      Row.action { r.set k a with conflicts := cs } k = a := by
    rw [show Row.action { r.set k a with conflicts := cs } k = (r.set k a).action k from rfl,
      action_set hs, if_pos rfl]
  have hsame (cs : List Conflict) : Row.action { r with conflicts := cs } k = r.action k := rfl
  unfold enter
  dsimp only
  cases hk : r.action k with
  | error =>
    rw [hset]
    exact .error
  | reduce j =>
    rw [hsame, hk]
    exact .reduce j
  | accept =>
    rw [hk]
    exact .accept
  | shift p =>
    -- The cases are those of the levels of production and token.
    dsimp only
    split
    · rename_i hzero
      rw [hsame, hk]
      exact .keep (fun hwin => hwin.1 hzero) fun hclash => hclash.1 hzero
    · rename_i hnone _
      rw [hsame, hk]
      refine .keep (fun hwin => ?_) fun hclash => ?_
      · obtain ⟨_, p, hp, _⟩ := hwin
        rw [hnone] at hp
        cases hp
      · cases hnone.symm.trans hclash.2
    · rename_i level p hlevel hp
      split
      · rename_i hlt
        rw [hset]
        exact .win ⟨by omega, p, hp, Or.inl (by omega)⟩
      · rename_i hge
        split
        · rename_i heq
          split
          · rename_i hleft
            rw [hset]
            exact .win ⟨by omega, p, hp, Or.inr ⟨by omega, hleft⟩⟩
          · rename_i hnon
            rw [hset]
            refine .clash ⟨by omega, ?_⟩
            rw [hp, hlevel, Nat.succ_eq_add_one, ← heq, ← hnon]
          · rename_i hright
            rw [hsame, hk]
            refine .keep (fun hwin => ?_) fun hclash => ?_
            · obtain ⟨_, p', hp', hlt | ⟨_, hleft⟩⟩ := hwin
              · obtain rfl := Option.some.inj (hp.symm.trans hp')
                omega
              · obtain rfl := Option.some.inj (hp.symm.trans hp')
                rw [hright] at hleft
                cases hleft
            · obtain rfl := Option.some.inj (hp.symm.trans hclash.2)
              cases hright
        · rename_i hne
          rw [hsame, hk]
          refine .keep (fun hwin => ?_) fun hclash => ?_
          · obtain ⟨_, p', hp', hle⟩ := hwin
            obtain rfl := Option.some.inj (hp.symm.trans hp')
            omega
          · obtain rfl := Option.some.inj (hp.symm.trans hclash.2)
            exact hne hlevel

theorem enterOne_size (hs : r.actions.size = Kind.count) (i : Nat) (la : NatSet) (k : Kind) :
    (enterOne g q i la r k).actions.size = Kind.count := by
  have hset (a : Action) : (r.set k a).actions.size = Kind.count := by simpa [Row.set] using hs
  unfold enterOne
  split
  · split
    · exact hset .accept
    · rcases (enter_spec q k i r (g := g)).1 with h | h | h
      · rw [h]
        exact hs
      · rw [h]
        exact hset .error
      · rw [h]
        exact hset (.reduce i)
  · exact hs

theorem enterOne_of_ne (hs : r.actions.size = Kind.count) (i : Nat) (la : NatSet) {k l : Kind}
    (hl : k ≠ l) : (enterOne g q i la r k).action l = r.action l := by
  have hset (a : Action) : (r.set k a).action l = r.action l := by rw [action_set hs, if_neg hl]
  have hact {r' : Row} (h : r'.actions = r.actions) : r'.action l = r.action l := by
    rw [Row.action, Row.action, h]
  unfold enterOne
  split
  · split
    · exact hset .accept
    · rcases (enter_spec q k i r (g := g)).1 with h | h | h
      · exact hact h
      · rw [Row.action, h]
        exact hset .error
      · rw [Row.action, h]
        exact hset (.reduce i)
  · rfl

theorem enterOne_enters (hs : r.actions.size = Kind.count) (i : Nat) (la : NatSet) (k : Kind) :
    g.Enters k (i, la) (r.action k) ((enterOne g q i la r k).action k) := by
  unfold enterOne
  split
  · rename_i hk
    refine Or.inr ⟨hk, ?_⟩
    split
    · rename_i hi
      exact Or.inl ⟨hi, by rw [action_set hs, if_pos rfl]⟩
    · rename_i hi
      exact Or.inr ⟨hi, enter_settles q hs k i⟩
  · rename_i hk
    exact Or.inl ⟨hk, rfl⟩

/-- Entering a reduction on all its tokens settles each cell by itself. -/
theorem enterAll_enters (hs : r.actions.size = Kind.count) (i : Nat) (la : NatSet) :
    (r.enterAll g q i la).actions.size = Kind.count ∧
      ∀ k, g.Enters k (i, la) (r.action k) ((r.enterAll g q i la).action k) := by
  have hfold (l : List Kind) (hl : l.Nodup) (r : Row) (hs : r.actions.size = Kind.count) :
      (l.foldl (enterOne g q i la) r).actions.size = Kind.count ∧
        (∀ k ∈ l, g.Enters k (i, la) (r.action k) ((l.foldl (enterOne g q i la) r).action k)) ∧
        ∀ k, k ∉ l → (l.foldl (enterOne g q i la) r).action k = r.action k := by
    induction l generalizing r with
    | nil => exact ⟨hs, by simp, fun _ _ => rfl⟩
    | cons first l ih =>
      obtain ⟨hfirst, hl⟩ := List.nodup_cons.mp hl
      obtain ⟨hsize, hin, hout⟩ := ih hl _ (enterOne_size q hs i la first)
      refine ⟨hsize, fun k hk => ?_, fun k hk => ?_⟩
      · rw [List.foldl_cons]
        rcases List.mem_cons.mp hk with rfl | hk
        · rw [hout k hfirst]
          exact enterOne_enters q hs i la k
        · have hne : first ≠ k := fun h => hfirst (h ▸ hk)
          rw [← enterOne_of_ne q hs i la hne (g := g)]
          exact hin k hk
      · rw [List.mem_cons, not_or] at hk
        rw [List.foldl_cons, hout k hk.2, enterOne_of_ne q hs i la (Ne.symm hk.1)]
  obtain ⟨hsize, hin, _⟩ := hfold Kind.all Kind.all_nodup r hs
  exact ⟨hsize, fun k => hin k k.mem_all⟩

end Row

section Cells

variable {q : Nat} {k : Kind} {P : Action → Prop}

/-- What holds of a cell and is kept by some reductions holds behind them. -/
theorem foldl_enters (l : List (Nat × NatSet)) {r : Row} (hs : r.actions.size = Kind.count)
    (h₀ : P (r.action k)) (hstep : ∀ e ∈ l, ∀ a a', P a → g.Enters k e a a' → P a') :
    (l.foldl (fun (r : Row) e => r.enterAll g q e.1 e.2) r).actions.size = Kind.count ∧
      P ((l.foldl (fun (r : Row) e => r.enterAll g q e.1 e.2) r).action k) := by
  refine List.foldlRecOn l _
    (motive := fun r : Row => r.actions.size = Kind.count ∧ P (r.action k)) ⟨hs, h₀⟩ ?_
  rintro r ⟨hs, hP⟩ e he
  obtain ⟨hsize, henters⟩ := Row.enterAll_enters q hs e.1 e.2 (g := g)
  exact ⟨hsize, hstep e he _ _ hP (henters k)⟩

/-- What holds of a cell with its shift alone and is kept by all reductions holds in the end. -/
theorem cell_induct (cs : List Conflict) (h₀ : P ((g.shiftRow q).getD k.index .error))
    (hstep : ∀ e ∈ g.reductionsAt q, ∀ a a', P a → g.Enters k e a a' → P a') :
    P ((g.rowAt q cs).action k) :=
  (foldl_enters (g.reductionsAt q) (r := ⟨g.shiftRow q, cs⟩) (shiftRow_size q) h₀ hstep).2

/-- A cell is settled by the reductions in front of one of them, by that one and by those behind
it, where each of the three may make something else true. -/
theorem cell_split {Q : Action → Prop} (cs : List Conflict) {before after : List (Nat × NatSet)}
    {e : Nat × NatSet} (hsplit : g.reductionsAt q = before ++ e :: after)
    (h₀ : P ((g.shiftRow q).getD k.index .error))
    (hbefore : ∀ e ∈ before, ∀ a a', P a → g.Enters k e a a' → P a')
    (hentry : ∀ a a', P a → g.Enters k e a a' → Q a')
    (hafter : ∀ e ∈ after, ∀ a a', Q a → g.Enters k e a a' → Q a') :
    Q ((g.rowAt q cs).action k) := by
  obtain ⟨hsize, hP⟩ :=
    foldl_enters before (q := q) (r := ⟨g.shiftRow q, cs⟩) (shiftRow_size q) h₀ hbefore
  obtain ⟨hsize, henters⟩ := Row.enterAll_enters q hsize e.1 e.2 (g := g)
  have hend := (foldl_enters after (q := q) hsize (hentry _ _ hP (henters k)) hafter).2
  unfold rowAt
  rw [hsplit, List.foldl_append, List.foldl_cons]
  exact hend

/-- What one of the reductions makes true of a cell and is kept by all of them holds in the end. -/
theorem cell_of_entry (cs : List Conflict) {e : Nat × NatSet} (he : e ∈ g.reductionsAt q)
    (hentry : ∀ a a', g.Enters k e a a' → P a')
    (hstep : ∀ e ∈ g.reductionsAt q, ∀ a a', P a → g.Enters k e a a' → P a') :
    P ((g.rowAt q cs).action k) := by
  obtain ⟨before, after, hsplit⟩ := List.append_of_mem he
  refine cell_split (P := fun _ => True) cs hsplit trivial (fun _ _ _ _ _ _ => trivial)
    (fun a a' _ => hentry a a') fun e' he' => hstep e' ?_
  rw [hsplit]
  exact List.mem_append_right _ (List.mem_cons_of_mem _ he')

end Cells

/-- Once a cell has no shift it gets none. -/
theorem Enters.ne_shift {k : Kind} {e : Nat × NatSet} {a a' : Action} (h : g.Enters k e a a')
    (ha : ∀ q, a ≠ .shift q) (q : Nat) : a' ≠ .shift q := by
  rcases h with ⟨_, rfl⟩ | ⟨_, ⟨_, rfl⟩ | ⟨_, hset⟩⟩
  · exact ha q
  · simp
  · cases hset with
    | keep => exact absurd rfl (ha _)
    | error | reduce | accept | win | clash => simp

section Tables

variable (hw : g.WellFormed) (hr : g.Unreserved) (ht : g.tables = .ok t)

include hw hr ht

/-- A reduction that applies on a token leaves its cell with an action, unless equal operators must
not stand side by side. -/
theorem action_ne_error_of_reduction {q i : Nat} {la : NatSet} {k : Kind}
    (h : (i, la) ∈ g.reductionsAt q) (hk : k.index ∈ la) (hn : ¬ g.Nonassociative k) :
    t.action q k ≠ .error := by
  have hsettles {i : Nat} {a a' : Action} (h : g.Settles k i a a') : a' ≠ .error := by
    cases h with
    | clash hclash => exact absurd hclash.nonassociative hn
    | error | reduce | accept | keep | win => simp
  obtain ⟨cs, hrow⟩ := (tables_spec ht).2.2.2.2.2.2 q (lt_stateCount_of_reduction hw hr h)
  rw [action_of_hasRow hrow]
  refine cell_of_entry cs h (P := (· ≠ .error)) ?_ ?_
  · rintro a a' (⟨hk', _⟩ | ⟨_, ⟨_, rfl⟩ | ⟨_, hset⟩⟩)
    · exact absurd hk hk'
    · simp
    · exact hsettles hset
  · rintro e _ a a' ha (⟨_, rfl⟩ | ⟨_, ⟨_, rfl⟩ | ⟨_, hset⟩⟩)
    · exact ha
    · simp
    · exact hsettles hset

/-- Where a production that wins over a token or must not stand beside it is reduced by, the token
is not shifted. -/
theorem action_ne_shift {q i : Nat} {la : NatSet} {k : Kind}
    (h : (i, la) ∈ g.reductionsAt q) (hk : k.index ∈ la) (hi : g.Wins i k ∨ g.Clashes i k)
    (q' : Nat) : t.action q k ≠ .shift q' := by
  obtain ⟨cs, hrow⟩ := (tables_spec ht).2.2.2.2.2.2 q (lt_stateCount_of_reduction hw hr h)
  rw [action_of_hasRow hrow]
  refine cell_of_entry cs h (P := fun a => ∀ q', a ≠ .shift q') ?_ ?_ q'
  · rintro a a' (⟨hk', _⟩ | ⟨_, ⟨_, rfl⟩ | ⟨_, hset⟩⟩) q'
    · exact absurd hk hk'
    · simp
    · cases hset with
      | keep hlose hfits => exact (hi.elim hlose hfits).elim
      | error | reduce | accept | win | clash => simp
  · exact fun e _ a a' ha henters => henters.ne_shift ha

/-- Where a token can be shifted, a production that does not win over it is not reduced by. -/
theorem action_of_not_wins {q q' i : Nat} {k : Kind} (h : (.terminal k, q') ∈ g.stepsAt q)
    (hn : ¬ g.Nonassociative k) (hi : ¬ g.Wins i k) :
    t.action q k ≠ .error ∧ t.action q k ≠ .reduce i := by
  obtain ⟨cs, hrow⟩ := (tables_spec ht).2.2.2.2.2.2 q (lt_of_mem_stepsAt hw hr h)
  rw [action_of_hasRow hrow]
  refine cell_induct cs (P := fun a => a ≠ .error ∧ a ≠ .reduce i) ?_ ?_
  · rw [shiftRow_of_step hw hr h]
    simp
  · rintro ⟨j, la⟩ _ a a' ha (⟨_, rfl⟩ | ⟨_, ⟨_, rfl⟩ | ⟨_, hset⟩⟩)
    · exact ha
    · simp
    · cases hset with
      | error => exact absurd rfl ha.1
      | reduce | accept | keep => exact ha
      | clash hclash => exact absurd hclash.nonassociative hn
      | win hwin =>
        refine ⟨by simp, fun heq => ?_⟩
        obtain rfl : j = i := Action.reduce.inj heq
        exact hi hwin

/-- Where no production that applies on a token wins over it or must not stand beside it, the token
is shifted if it can be. -/
theorem action_of_no_winner {q q' : Nat} {k : Kind} (h : (.terminal k, q') ∈ g.stepsAt q)
    (hlose : ∀ e ∈ g.reductionsAt q, k.index ∈ e.2 →
      e.1 ≠ 0 ∧ ¬ g.Wins e.1 k ∧ ¬ g.Clashes e.1 k) : t.action q k = .shift q' := by
  obtain ⟨cs, hrow⟩ := (tables_spec ht).2.2.2.2.2.2 q (lt_of_mem_stepsAt hw hr h)
  rw [action_of_hasRow hrow]
  refine cell_induct cs (P := (· = .shift q')) (shiftRow_of_step hw hr h) ?_
  rintro e he a a' rfl (⟨_, rfl⟩ | ⟨hk, hentry⟩)
  · rfl
  · obtain ⟨hne, hwin, hclash⟩ := hlose e he hk
    obtain ⟨hzero, _⟩ | ⟨_, hset⟩ := hentry
    · exact absurd hzero hne
    · cases hset with
      | keep => rfl
      | win h => exact absurd h hwin
      | clash h => exact absurd h hclash

/-- A production that alone is complete in a state is reduced by on its lookahead, if the token
cannot be shifted or loses to the production. -/
theorem action_of_sole {q i : Nat} {la : NatSet} {k : Kind} (hi : i ≠ 0)
    (h : (i, la) ∈ g.reductionsAt q) (hk : k.index ∈ la)
    (hsole : ∀ e ∈ g.reductionsAt q, e.1 = i)
    (hshift : ∀ q', (.terminal k, q') ∈ g.stepsAt q → g.Wins i k) :
    t.action q k = .reduce i := by
  obtain ⟨cs, hrow⟩ := (tables_spec ht).2.2.2.2.2.2 q (lt_stateCount_of_reduction hw hr h)
  rw [action_of_hasRow hrow]
  obtain ⟨before, after, hsplit⟩ := List.append_of_mem h
  -- Entries before this one leave the shift or reduce by the same production.
  have hsettles {e : Nat × NatSet} (he : e ∈ g.reductionsAt q) {a a' : Action}
      (ha : a = .error ∨ a = .reduce i ∨ ∃ q', a = .shift q' ∧ g.Wins i k)
      (henters : g.Enters k e a a') : (k.index ∈ e.2 ∧ a' = .reduce i) ∨ k.index ∉ e.2 ∧ a' = a := by
    obtain rfl := hsole e he
    obtain ⟨hout, rfl⟩ | ⟨hin, ⟨hzero, _⟩ | ⟨_, hset⟩⟩ := henters
    · exact .inr ⟨hout, rfl⟩
    · exact absurd hzero hi
    · refine .inl ⟨hin, ?_⟩
      cases hset with
      | error | win => rfl
      | reduce j => simpa using ha
      | accept => simp at ha
      | keep hlose => exact absurd (by simpa using ha) hlose
      | clash hclash =>
        have hwins : g.Wins e.1 k := by simpa using ha
        exact absurd hwins hclash.not_wins
  refine cell_split (P := fun a => a = .error ∨ a = .reduce i ∨ ∃ q', a = .shift q' ∧ g.Wins i k)
    (Q := (· = .reduce i)) cs hsplit ?_ ?_ ?_ ?_
  · obtain hnone | ⟨q', hq', hact⟩ := shiftRow_cases hw hr q k
    · exact .inl hnone
    · exact .inr (.inr ⟨q', hact, hshift q' hq'⟩)
  · intro e he a a' ha henters
    obtain ⟨_, rfl⟩ | ⟨_, rfl⟩ := hsettles (hsplit ▸ List.mem_append_left _ he) ha henters
    · exact .inr (.inl rfl)
    · exact ha
  · intro a a' ha henters
    obtain ⟨_, hred⟩ | ⟨hout, _⟩ := hsettles h ha henters
    · exact hred
    · exact absurd hk hout
  · intro e he a a' ha henters
    have hmem : e ∈ g.reductionsAt q :=
      hsplit ▸ List.mem_append_right _ (List.mem_cons_of_mem _ he)
    obtain ⟨_, hred⟩ | ⟨_, rfl⟩ := hsettles hmem (.inr (.inl ha)) henters
    · exact hred
    · exact ha

/-- The start production accepts, whatever else applies. -/
theorem action_of_start {q : Nat} {la : NatSet} {k : Kind} (h : (0, la) ∈ g.reductionsAt q)
    (hk : k.index ∈ la) : t.action q k = .accept := by
  obtain ⟨cs, hrow⟩ := (tables_spec ht).2.2.2.2.2.2 q (lt_stateCount_of_reduction hw hr h)
  rw [action_of_hasRow hrow]
  refine cell_of_entry cs h (P := (· = .accept)) ?_ ?_
  · rintro a a' (⟨hout, _⟩ | ⟨_, ⟨_, rfl⟩ | ⟨hne, _⟩⟩)
    · exact absurd hk hout
    · rfl
    · exact absurd rfl hne
  · rintro e _ a a' rfl (⟨_, rfl⟩ | ⟨_, ⟨_, rfl⟩ | ⟨_, hset⟩⟩)
    · rfl
    · rfl
    · cases hset
      rfl

end Tables

end ObjectPascal.Grammar
