import ObjectPascal.Grammar.Machine
import ObjectPascal.Proofs.Grammar.Derivation

/-!
Runs of the machine. A step that goes on either shifts the token it looks at or reduces by a
production; a run lists these moves in order. What the moves build is a stack of parse trees, and
each value on the stack of the machine is computed from the tree at its place.
-/

namespace ObjectPascal.Grammar

variable {V G M : Type} {t : Tables} {s : Semantics V G M}

/-- A way for the machine to go on. -/
inductive Move where
  | shift (token : Token)
  | reduce (i : Nat)

/-- The tokens that moves shift, in order. -/
def shifted (ms : List Move) : List Token :=
  ms.filterMap fun
    | .shift token => some token
    | .reduce _ => none

/-- The productions that moves reduce by, in order. -/
def reduced (ms : List Move) : List Nat :=
  ms.filterMap fun
    | .shift _ => none
    | .reduce i => some i

@[simp]
theorem shifted_append (ms ns : List Move) : shifted (ms ++ ns) = shifted ms ++ shifted ns :=
  List.filterMap_append

@[simp]
theorem reduced_append (ms ns : List Move) : reduced (ms ++ ns) = reduced ms ++ reduced ns :=
  List.filterMap_append

@[simp]
theorem shifted_shift (token : Token) : shifted [.shift token] = [token] := rfl

@[simp]
theorem shifted_reduce (i : Nat) : shifted [.reduce i] = [] := rfl

@[simp]
theorem reduced_shift (token : Token) : reduced [.shift token] = [] := rfl

@[simp]
theorem reduced_reduce (i : Nat) : reduced [.reduce i] = [i] := rfl

/-- The values that reductions can compute from a parse tree. Line and memory are those of some
configuration. -/
inductive Semantics.Computes (s : Semantics V G M) : Tree → V → Prop
  | leaf (token : Token) : Computes s (.leaf token) (s.ofToken token)
  | node {i : Nat} {children : List Tree} {args : List V} {c : Configuration V G M}
      {r : Reduced V G M} (hc : List.Forall₂ (Computes s) children args)
      (hr : c.valueOf s i args = .ok r) : Computes s (.node i children) r.value

namespace Configuration

variable (t : Tables) (c : Configuration V G M)

/-- The token that a step looks at. -/
def token : Token :=
  match c.ahead with
  | some token => token
  | none => c.supply.next.1

/-- The configuration with the next token read. -/
def look : Configuration V G M :=
  match c.ahead with
  | some _ => c
  | none => { c with ahead := some c.supply.next.1, supply := c.supply.next.2 }

/-- The next token is invalid and not read yet, so that reading it ends the run. -/
def refuses : Bool := c.ahead.isNone && c.token.kind == .invalid

/-- The move by which a step goes on, unless it ends the run. -/
def move? : Option Move :=
  match t.defaultAt c.top with
  | some i => some (.reduce i)
  | none =>
    if c.refuses then none
    else
      match t.action c.top c.token.kind with
      | .shift _ => some (.shift c.token)
      | .reduce i => some (.reduce i)
      | .accept | .error => none

/-- The action on the token that a step looks at is to accept. -/
def Accepting : Prop :=
  t.defaultAt c.top = none ∧ t.action c.top c.token.kind = .accept

/-- The arguments of a reduction by a production. -/
def args (i : Nat) : List V := (c.values.take (t.grammar.production i).rhs.length).reverse

variable {t c}

@[simp]
theorem look_states : c.look.states = c.states := by unfold look; split <;> rfl

@[simp]
theorem look_values : c.look.values = c.values := by unfold look; split <;> rfl

@[simp]
theorem look_memory : c.look.memory = c.memory := by unfold look; split <;> rfl

@[simp]
theorem look_top : c.look.top = c.top := by unfold top; rw [look_states]

@[simp]
theorem look_goal : c.look.goal = c.goal := by unfold look; split <;> rfl

@[simp]
theorem look_ahead : c.look.ahead = some c.token := by
  unfold look token
  split
  · assumption
  · rfl

/-- Without a default reduction a step reads the next token, refuses it if it is invalid, and else
acts on it. -/
theorem step_of_default_none (h : t.defaultAt c.top = none) :
    (c.refuses = false ∧ c.step t s = c.look.act t s c.token) ∨
      (c.token.kind = .invalid ∧ c.refuses = true ∧
        c.step t s = .failed (.rejection c.token.place c.token.text) c.look) := by
  -- Only a token that is not read yet can be refused.
  cases ha : c.ahead with
  | some token =>
    left
    simp only [step, look, refuses, Configuration.token, h, ha, Option.isNone_some,
      Bool.false_and, and_self]
  | none =>
    by_cases hinv : c.supply.next.1.kind = .invalid
    · right
      simp only [step, look, refuses, token, h, ha, hinv, ↓reduceIte, Option.isNone_none,
        Bool.true_and, beq_self_eq_true, and_self]
    · left
      simp [step, look, refuses, token, h, ha, hinv]

/-- All that a reduction does when it goes on. -/
theorem reduce_eq_more {i : Nat} {c' : Configuration V G M} (h : c.reduce t s i = .more c') :
    ∃ r q, c.valueOf s i (c.args t i) = .ok r ∧
      t.goto ((c.states.drop (t.grammar.production i).rhs.length).headD 0)
        (t.grammar.production i).lhs = some q ∧
      c' = { c with
        states := q :: c.states.drop (t.grammar.production i).rhs.length
        values := r.value :: c.values.drop (t.grammar.production i).rhs.length
        memory := r.memory
        goal := r.goal <|> c.goal
        supply := if r.goal.isSome then c.supply.stop else c.supply } := by
  unfold reduce at h
  dsimp only at h
  split at h
  · cases h
  · rename_i r hvalue
    split at h
    · cases h
    · rename_i q hgoto
      exact ⟨r, q, hvalue, hgoto, (Progress.more.inj h).symm⟩

/-- A reduction fails where its computation does, or where no state follows. -/
theorem reduce_eq_failed {i : Nat} {f : Failure} {c' : Configuration V G M}
    (h : c.reduce t s i = .failed f c') :
    c.valueOf s i (c.args t i) = .error f ∨
      t.goto ((c.states.drop (t.grammar.production i).rhs.length).headD 0)
        (t.grammar.production i).lhs = none := by
  unfold reduce at h
  dsimp only at h
  split at h
  · rename_i e hvalue
    rw [← (Progress.failed.inj h).1]
    exact Or.inl hvalue
  · split at h
    · rename_i hgoto
      exact Or.inr hgoto
    · cases h

/-- All that a step does when it goes on: it shifts, or it reduces by default without a look at the
next token, or it reduces by the action on that token. -/
theorem step_eq_more {c' : Configuration V G M} (h : c.step t s = .more c') :
    (∃ q, t.action c.top c.token.kind = .shift q ∧ c.move? t = some (.shift c.token) ∧
      c' = { c.look with
        states := q :: c.states
        values := s.ofToken c.token :: c.values
        ahead := none
        lastLine := c.token.line }) ∨
    ∃ i, c.move? t = some (.reduce i) ∧
      ((t.defaultAt c.top = some i ∧ c.reduce t s i = .more c') ∨
        ((t.defaultAt c.top = none ∧ t.action c.top c.token.kind = .reduce i) ∧
          c.look.reduce t s i = .more c')) := by
  cases hd : t.defaultAt c.top with
  | some i =>
    right
    refine ⟨i, by simp [move?, hd], Or.inl ⟨rfl, ?_⟩⟩
    unfold step at h
    rwa [hd] at h
  | none =>
    rcases step_of_default_none (s := s) hd with ⟨hread, hstep⟩ | ⟨_, _, hstep⟩
    · rw [hstep] at h
      unfold act at h
      rw [look_top] at h
      split at h
      · rename_i q ha
        left
        refine ⟨q, ha, by simp [move?, hd, hread, ha], ?_⟩
        rw [← Progress.more.inj h, look_states, look_values]
      · rename_i i ha
        right
        exact ⟨i, by simp [move?, hd, hread, ha], Or.inr ⟨⟨rfl, ha⟩, h⟩⟩
      · split at h <;> cases h
      · cases h
    · rw [hstep] at h
      cases h

/-- A step that reduces does so with the stacks as they are, whether or not it looks at the next
token before. -/
theorem reduce_of_step {i : Nat} {c' : Configuration V G M} (h : c.step t s = .more c')
    (hm : c.move? t = some (.reduce i)) :
    ∃ c₁ : Configuration V G M, c₁.states = c.states ∧ c₁.values = c.values ∧ c₁.goal = c.goal ∧
      c₁.reduce t s i = .more c' := by
  rcases step_eq_more h with ⟨_, _, hshift, _⟩ | ⟨j, hj, hred⟩
  · rw [hm] at hshift
    cases hshift
  · rw [hm] at hj
    obtain rfl := Move.reduce.inj (Option.some.inj hj)
    rcases hred with ⟨_, hred⟩ | ⟨_, hred⟩
    · exact ⟨c, rfl, rfl, rfl, hred⟩
    · exact ⟨c.look, look_states, look_values, look_goal, hred⟩

/-- All reasons for a step to fail: a token that is invalid or has no action, a reduction that
fails, or acceptance without a goal. -/
theorem step_eq_failed {f : Failure} {c' : Configuration V G M} (h : c.step t s = .failed f c') :
    ((c.token.kind = .invalid ∨ t.action c.top c.token.kind = .error) ∧
      ∃ message, f = .rejection c.token.place message) ∨
    (∃ i, c.move? t = some (.reduce i) ∧
      (c.reduce t s i = .failed f c' ∨ c.look.reduce t s i = .failed f c')) ∨
    (c.Accepting t ∧ c.goal = none ∧ f = .breach "accepted without goal") := by
  cases hd : t.defaultAt c.top with
  | some i =>
    refine Or.inr (Or.inl ⟨i, by simp [move?, hd], Or.inl ?_⟩)
    unfold step at h
    rwa [hd] at h
  | none =>
    rcases step_of_default_none (s := s) hd with ⟨hread, hstep⟩ | ⟨hinv, _, hstep⟩
    · rw [hstep] at h
      unfold act at h
      rw [look_top] at h
      split at h
      · cases h
      · rename_i i ha
        exact Or.inr (Or.inl ⟨i, by simp [move?, hd, hread, ha], Or.inr h⟩)
      · rename_i ha
        split at h
        · cases h
        · rename_i hgoal
          rw [look_goal] at hgoal
          exact Or.inr (Or.inr ⟨⟨hd, ha⟩, hgoal, (Progress.failed.inj h).1.symm⟩)
      · rename_i ha
        exact Or.inl ⟨Or.inr ha, _, (Progress.failed.inj h).1.symm⟩
    · rw [hstep] at h
      exact Or.inl ⟨Or.inl hinv, _, (Progress.failed.inj h).1.symm⟩

end Configuration

/-- The runs of the machine from a configuration, with their moves. -/
inductive Run (t : Tables) (s : Semantics V G M) (c₀ : Configuration V G M) :
    List Move → Configuration V G M → Prop
  | refl : Run t s c₀ [] c₀
  | tail {ms : List Move} {c c' : Configuration V G M} (h : Run t s c₀ ms c)
      (hs : c.step t s = .more c') : Run t s c₀ (ms ++ (c.move? t).toList) c'

theorem Run.trans {c₀ c₁ c₂ : Configuration V G M} {ms ns : List Move} (h : Run t s c₀ ms c₁)
    (k : Run t s c₁ ns c₂) : Run t s c₀ (ms ++ ns) c₂ := by
  induction k with
  | refl => rwa [List.append_nil]
  | tail _ hs ih =>
    rw [← List.append_assoc]
    exact ih.tail hs

/-- What a bounded number of steps leads to is reached by a run, or is what the step behind a run
ends with. -/
theorem exists_run (n : Nat) (c : Configuration V G M) :
    ∃ ms c', Run t s c ms c' ∧ (Configuration.run t s n c = .more c' ∨
      Configuration.run t s n c = c'.step t s ∧ ∀ c'', c'.step t s ≠ .more c'') := by
  -- Runs are made longer at their end, the bound is counted from the beginning.
  induction n generalizing c with
  | zero => exact ⟨[], c, .refl, Or.inl rfl⟩
  | succ n ih =>
    cases hs : c.step t s with
    | more c₁ =>
      obtain ⟨ms, c', hrun, hend⟩ := ih c₁
      refine ⟨_, c', (Run.refl.tail hs).trans hrun, ?_⟩
      simpa only [Configuration.run, hs] using hend
    | accepted goal c₁ =>
      exact ⟨[], c, .refl, Or.inr ⟨by simp only [Configuration.run, hs], by simp [hs]⟩⟩
    | failed f c₁ =>
      exact ⟨[], c, .refl, Or.inr ⟨by simp only [Configuration.run, hs], by simp [hs]⟩⟩

end ObjectPascal.Grammar
