import ObjectPascal.Proofs.Grammar.Termination

/-!
What a run reads. As long as it has not come to the end of the input and no goal is complete, a run
has taken from the supply the tokens that it has shifted and the one that it looks at, and other
tokens behind these make no difference to it. A production that ends as no other one has a default
reduction, so nothing is read before it is reduced.
-/

namespace ObjectPascal.Grammar

variable {V G M : Type} {t : Tables} {s : Semantics V G M}

namespace Configuration

variable {c c' : Configuration V G M}

/-- The configuration with other tokens to be read. -/
def refill (c : Configuration V G M) (rest : List (Token × Place)) : Configuration V G M :=
  { c with supply := ⟨rest, c.supply.here⟩ }

theorem step_of_default {i : Nat} (h : t.defaultAt c.top = some i) :
    c.step t s = c.reduce t s i ∧ c.move? t = some (.reduce i) := by
  simp only [step, move?, h, and_self]

/-- A reduction that does not complete the goal leaves the supply as it is. -/
theorem reduce_refill {i : Nat} (h : c.reduce t s i = .more c') (hgoal : c'.goal = none)
    (rest : List (Token × Place)) :
    c.goal = none ∧ c'.supply = c.supply ∧ c'.ahead = c.ahead ∧
      (c.refill rest).reduce t s i = .more (c'.refill rest) := by
  obtain ⟨r, q, hvalue, hgoto, rfl⟩ := reduce_eq_more h
  obtain ⟨hr, hc⟩ : r.goal = none ∧ c.goal = none := by simpa using hgoal
  have hvalue' : (c.refill rest).valueOf s i
      ((c.refill rest).values.take (t.grammar.production i).rhs.length).reverse = .ok r := hvalue
  refine ⟨hc, by simp [hr], rfl, ?_⟩
  simp only [reduce, hvalue']
  simp only [refill, hgoto, hr, Option.isSome_none, Bool.false_eq_true, ↓reduceIte]

/-- A reduction that completes the goal drops all tokens to be read. -/
theorem reduce_refill_of_goal {i : Nat} (h : c.reduce t s i = .more c') (hc : c.goal = none)
    (hgoal : c'.goal ≠ none) (rest : List (Token × Place)) :
    (c.refill rest).reduce t s i = .more c' := by
  obtain ⟨r, q, hvalue, hgoto, rfl⟩ := reduce_eq_more h
  have hr : r.goal.isSome = true := by
    rw [Option.isSome_iff_ne_none]
    simpa [hc] using hgoal
  have hvalue' : (c.refill rest).valueOf s i
      ((c.refill rest).values.take (t.grammar.production i).rhs.length).reverse = .ok r := hvalue
  simp only [reduce, hvalue']
  simp only [refill, hgoto, hr, ↓reduceIte, Supply.stop]

/-- A look at a token that is not the end of the input takes at most that token from the supply. -/
theorem look_refill (hne : c.token.kind ≠ .eof) :
    ∃ used, c.supply.ahead = used ++ c.look.supply.ahead ∧
      c.ahead.toList ++ used.map Prod.fst = [c.token] ∧ ∀ rest,
        (c.refill (used ++ rest)).look = c.look.refill rest ∧
        (c.refill (used ++ rest)).token = c.token ∧
        (c.refill (used ++ rest)).refuses = c.refuses := by
  cases ha : c.ahead with
  | some token =>
    have htoken : c.token = token := by simp [Configuration.token, ha]
    refine ⟨[], by simp [look, ha], by simp [htoken], fun rest => ?_⟩
    simp [look, refuses, Configuration.token, refill, ha]
  | none =>
    cases hs : c.supply.ahead with
    | nil =>
      refine absurd ?_ hne
      simp [Configuration.token, ha, Supply.next, hs]
    | cons next rest =>
      obtain ⟨token, place⟩ := next
      refine ⟨[(token, place)], ?_, ?_, fun rest => ?_⟩
      · simp [look, ha, Supply.next, hs]
      · simp [Configuration.token, ha, Supply.next, hs]
      · simp [look, refuses, Configuration.token, refill, ha, Supply.next, hs]

/-- The next move of a configuration with other tokens to be read. -/
theorem move_refill {used rest : List (Token × Place)}
    (htoken : (c.refill (used ++ rest)).token = c.token)
    (hrefuses : (c.refill (used ++ rest)).refuses = c.refuses) :
    (c.refill (used ++ rest)).move? t = c.move? t := by
  unfold move?
  rw [htoken, hrefuses]
  rfl

/-- What has been read in a step, if the machine then neither looks at the end of the input nor
knows a goal; other tokens behind it make no difference. -/
theorem step_refill (heof : ∀ q q', t.action q .eof ≠ .shift q') (h : c.step t s = .more c')
    (hgoal : c'.goal = none) (hne : ∀ token ∈ c'.ahead, token.kind ≠ .eof) :
    c.goal = none ∧ (∀ token ∈ c.ahead, token.kind ≠ .eof) ∧
      ∃ used, c.supply.ahead = used ++ c'.supply.ahead ∧
        c.ahead.toList ++ used.map Prod.fst = shifted (c.move? t).toList ++ c'.ahead.toList ∧
        ∀ rest, (c.refill (used ++ rest)).step t s = .more (c'.refill rest) ∧
          (c.refill (used ++ rest)).move? t = c.move? t := by
  have hahead (hkind : c.token.kind ≠ .eof) : ∀ token ∈ c.ahead, token.kind ≠ .eof := by
    intro token hmem
    have htoken : c.token = token := by rw [Configuration.token, Option.mem_def.mp hmem]
    rwa [← htoken]
  -- With the same token at hand and no default, the step is the same act.
  have hact {used rest : List (Token × Place)} (hd : t.defaultAt c.top = none)
      (hread : c.refuses = false) (hlook : (c.refill (used ++ rest)).look = c.look.refill rest)
      (htoken : (c.refill (used ++ rest)).token = c.token)
      (hrefuses : (c.refill (used ++ rest)).refuses = c.refuses) :
      (c.refill (used ++ rest)).step t s = (c.look.refill rest).act t s c.token := by
    rcases step_of_default_none (s := s) (c := c.refill (used ++ rest)) hd with
      ⟨_, hstep⟩ | ⟨_, href, _⟩
    · rw [hstep, hlook, htoken]
    · rw [hrefuses, hread] at href
      cases href
  have hread (hd : t.defaultAt c.top = none) : c.refuses = false := by
    rcases step_of_default_none (s := s) hd with ⟨hread, _⟩ | ⟨_, _, hfail⟩
    · exact hread
    · rw [hfail] at h
      cases h
  rcases step_eq_more h with ⟨q, hq, hmove, rfl⟩ | ⟨i, hmove, ⟨hd, hred⟩ | ⟨⟨hd, hq⟩, hred⟩⟩
  · have hkind : c.token.kind ≠ .eof := fun hkind => heof _ _ (hkind ▸ hq)
    have hd : t.defaultAt c.top = none := by
      cases hd : t.defaultAt c.top with
      | none => rfl
      | some i => simp [move?, hd] at hmove
    obtain ⟨used, hused, hfst, hall⟩ := look_refill hkind
    refine ⟨by simpa using hgoal, hahead hkind, used, hused, by simpa [hmove] using hfst,
      fun rest => ?_⟩
    obtain ⟨hlook, htoken, hrefuses⟩ := hall rest
    refine ⟨?_, move_refill htoken hrefuses⟩
    have htop : (c.look.refill rest).top = c.top := look_top
    rw [hact hd (hread hd) hlook htoken hrefuses, act, htop, hq]
    simp only [refill, look_states, look_values]
  · obtain ⟨hc, hsupply, hsame, _⟩ := reduce_refill hred hgoal []
    rw [hsame] at hne
    refine ⟨hc, hne, [], by rw [hsupply]; rfl, by simp [hmove, hsame], fun rest => ⟨?_, ?_⟩⟩
    · have htop : (c.refill ([] ++ rest)).top = c.top := rfl
      rw [step, htop, hd]
      exact (reduce_refill hred hgoal rest).2.2.2
    · have htop : (c.refill ([] ++ rest)).top = c.top := rfl
      rw [move?, move?, htop, hd]
  · obtain ⟨hc, hsupply, hsame, _⟩ := reduce_refill hred hgoal []
    have hkind : c.token.kind ≠ .eof := hne c.token (by rw [hsame, look_ahead]; rfl)
    obtain ⟨used, hused, hfst, hall⟩ := look_refill hkind
    refine ⟨by simpa using hc, hahead hkind, used, by rw [hsupply]; exact hused, ?_, fun rest => ?_⟩
    · rw [hfst, hmove, hsame, look_ahead]
      rfl
    obtain ⟨hlook, htoken, hrefuses⟩ := hall rest
    refine ⟨?_, move_refill htoken hrefuses⟩
    have htop : (c.look.refill rest).top = c.top := look_top
    rw [hact hd (hread hd) hlook htoken hrefuses, act, htop, hq]
    exact (reduce_refill hred hgoal rest).2.2.2

end Configuration

section Runs

variable {c c' : Configuration V G M} {ms ns : List Move}

/-- What a run has read, if it then neither looks at the end of the input nor knows a goal; other
tokens behind it make no difference to the run. -/
theorem Run.refill (heof : ∀ q q', t.action q .eof ≠ .shift q') (h : Run t s c ms c')
    (hgoal : c'.goal = none) (hne : ∀ token ∈ c'.ahead, token.kind ≠ .eof) :
    ∃ used, c.supply.ahead = used ++ c'.supply.ahead ∧
      c.ahead.toList ++ used.map Prod.fst = shifted ms ++ c'.ahead.toList ∧
      ∀ rest, Run t s (c.refill (used ++ rest)) ms (c'.refill rest) := by
  induction h with
  | refl => exact ⟨[], rfl, by simp [shifted], fun rest => .refl⟩
  | @tail ms c₁ c₂ _ hs ih =>
    obtain ⟨hgoal₁, hne₁, used', hused', hfst', hall'⟩ :=
      Configuration.step_refill heof hs hgoal hne
    obtain ⟨used, hused, hfst, hall⟩ := ih hgoal₁ hne₁
    refine ⟨used ++ used', by rw [hused, hused', List.append_assoc], ?_, fun rest => ?_⟩
    · rw [List.map_append, ← List.append_assoc, hfst, List.append_assoc, hfst', shifted_append,
        List.append_assoc]
    · obtain ⟨hstep, hmove⟩ := hall' rest
      rw [← hmove, List.append_assoc]
      exact (hall (used' ++ rest)).tail hstep

/-- Each step of a run makes one move, so a run can be parted where its moves are. -/
theorem Run.part (h : Run t s c (ms ++ ns) c') : ∃ c₁, Run t s c ms c₁ ∧ Run t s c₁ ns c' := by
  generalize hall : ms ++ ns = all at h
  induction h generalizing ns with
  | refl =>
    obtain ⟨rfl, rfl⟩ := List.append_eq_nil_iff.mp hall
    exact ⟨c, .refl, .refl⟩
  | @tail ms' c₁ c₂ hrun hs ih =>
    obtain ⟨m, hm⟩ := List.length_eq_one_iff.mp (Configuration.length_move hs)
    rcases List.eq_nil_or_concat ns with rfl | ⟨ns, n, rfl⟩
    · rw [List.append_nil] at hall
      exact ⟨c₂, hall ▸ hrun.tail hs, .refl⟩
    · rw [hm, List.concat_eq_append, ← List.append_assoc] at hall
      obtain ⟨rfl, hn⟩ := List.append_inj' hall rfl
      obtain ⟨c₀, hfirst, hlast⟩ := ih rfl
      refine ⟨c₀, hfirst, ?_⟩
      rw [List.concat_eq_append, hn, ← hm]
      exact hlast.tail hs

/-- The steps of a run are the first ones of every longer sequence of steps. -/
theorem Run.run_add (h : Run t s c ms c') (n : Nat) :
    Configuration.run t s (ms.length + n) c = Configuration.run t s n c' := by
  induction h generalizing n with
  | refl => rw [List.length_nil, Nat.zero_add]
  | tail _ hs ih =>
    rw [List.length_append, Configuration.length_move hs, Nat.add_assoc, ih, Nat.add_comm,
      Configuration.run, hs]

/-- The moves of a run tell where it leads. -/
theorem Run.unique {c₁ c₂ : Configuration V G M} (h : Run t s c ms c₁) (k : Run t s c ms c₂) :
    c₁ = c₂ := by
  have heq := (h.run_add 0).symm.trans (k.run_add 0)
  cases heq
  rfl

/-- All runs that cannot go on end in the same way. -/
theorem Run.step_unique {c₁ c₂ : Configuration V G M} (h : Run t s c ms c₁) (k : Run t s c ns c₂)
    (hc₁ : ∀ c', c₁.step t s ≠ .more c') (hc₂ : ∀ c', c₂.step t s ≠ .more c') :
    c₁.step t s = c₂.step t s := by
  have hlast {c : Configuration V G M} (hc : ∀ c', c.step t s ≠ .more c') (n : Nat) :
      Configuration.run t s (n + 1) c = c.step t s := by
    rw [Configuration.run]
    split
    · rename_i c' hs
      exact absurd hs (hc c')
    · rfl
  rw [← hlast hc₁ ns.length, ← hlast hc₂ ms.length, ← h.run_add, ← k.run_add]
  congr 1
  omega

theorem Run.step_of_singleton {m : Move} (h : Run t s c [m] c') :
    c.step t s = .more c' ∧ c.move? t = some m := by
  generalize hms : [m] = ms at h
  cases h with
  | refl => cases hms
  | @tail ms c₁ _ hrun hs =>
    obtain ⟨m', hm'⟩ := List.length_eq_one_iff.mp (Configuration.length_move hs)
    rw [hm'] at hms
    obtain ⟨rfl, hm⟩ := List.append_inj' (show [] ++ [m] = ms ++ [m'] from hms) rfl
    generalize hnil : ([] : List Move) = ns at hrun
    cases hrun with
    | refl => exact ⟨hs, by simpa [Option.toList_eq_singleton_iff, ← hm] using hm'⟩
    | tail _ hs' =>
      have hlen := Configuration.length_move hs'
      simp [(List.append_eq_nil_iff.mp hnil.symm).2] at hlen

end Runs

section Alone

variable {g : Grammar} {states : List Nat} {xs : List Symbol} {i : Nat}

/-- Where the symbols of production `i` have been read, nothing else has: no other item ends before
its dot as the production does. -/
def Alone (g : Grammar) (i : Nat) : Prop :=
  (g.production i).rhs ≠ [] ∧ ∀ j < g.productions.size, ∀ d, 0 < d →
    d ≤ (g.production j).rhs.length →
    ((g.production j).rhs.take d <:+ (g.production i).rhs ∨
      (g.production i).rhs <:+ (g.production j).rhs.take d) →
    j = i ∧ d = (g.production i).rhs.length

variable (hw : g.WellFormed) (hr : g.Unreserved)

include hw hr

theorem Alone.eq_of_mem_closure (ha : g.Alone i) (hp : g.survey.automaton.Path states xs)
    (hi : ⟨i, (g.production i).rhs.length⟩ ∈ g.survey.closure (g.kernelAt (states.headD 0))) :
    ∀ item ∈ g.survey.closure (g.kernelAt (states.headD 0)),
      item = ⟨i, (g.production i).rhs.length⟩ := by
  obtain ⟨hlen, htake, _⟩ := pop hw hr hp hi
  have hkernel : ∀ item ∈ g.kernelAt (states.headD 0),
      item = ⟨i, (g.production i).rhs.length⟩ := by
    rintro ⟨j, d⟩ hj
    obtain ⟨hjlt, hd⟩ := mem_items.mp ((isKernel_kernelAt hw hr _).sublist.subset hj)
    obtain ⟨_, htake', _⟩ := pop hw hr hp ((mem_closure hw).mpr (Or.inl hj))
    have hpos : 0 < d := by
      cases hp with
      | bottom => exact absurd (List.length_eq_zero_iff.mp (Nat.le_zero.mp hlen)) ha.1
      | push _ he =>
        obtain ⟨_, _, _, heq⟩ := (mem_kernelAt_of_step hw hr he).mp hj
        rw [(Item.mk.inj heq).2]
        exact Nat.succ_pos _
    -- Both items have read what stands on top of the stack.
    have hread {ys : List Symbol} {n : Nat} (h : xs.take n = ys.reverse) : ys <:+ xs.reverse := by
      rw [← List.reverse_prefix, ← h, List.reverse_reverse]
      exact List.take_prefix n xs
    rw [List.take_length] at htake
    obtain ⟨rfl, rfl⟩ := ha.2 j hjlt d hpos hd
      (List.suffix_or_suffix_of_suffix (hread htake') (hread htake))
    rfl
  intro item hitem
  rcases (mem_closure hw).mp hitem with hmem | ⟨_, _, hexp⟩
  · exact hkernel item hmem
  · obtain ⟨j, hj, m, hm, _⟩ := mem_expanded.mp hexp
    rw [hkernel j hj, next, List.getElem?_eq_none (Nat.le_refl _)] at hm
    cases hm

/-- A production that stands alone is reduced without a look at the next token. -/
theorem Alone.default_eq_some (ht : g.tables = .ok t) (ha : g.Alone i)
    (hp : g.survey.automaton.Path states xs) (h : t.Reduces (states.headD 0) i) :
    t.defaultAt (states.headD 0) = some i := by
  obtain ⟨hne, hcomplete⟩ := h.complete hw hr ht
  have hall := ha.eq_of_mem_closure hw hr hp hcomplete
  refine Grammar.default_eq_some hw hr ht ?_ fun k => ?_
  · rcases h with h | h
    · exact (default_spec hw hr ht h).1
    · exact h
  · have happ := action_applies hw hr ht (states.headD 0) k
    generalize t.action (states.headD 0) k = a at happ
    cases happ with
    | error => exact Or.inl rfl
    | shift hstep =>
      obtain ⟨j, hj, hnext⟩ := exists_item_of_step hw hr hstep
      rw [hall j hj, next, List.getElem?_eq_none (Nat.le_refl _)] at hnext
      cases hnext
    | reduce _ hmem _ =>
      have heq := hall _ (complete_of_mem_reductionsAt hw hr hmem)
      exact Or.inr (congrArg _ (Item.mk.inj heq).1)
    | accept hmem _ =>
      have heq := hall _ (complete_of_mem_reductionsAt hw hr hmem)
      exact absurd (Item.mk.inj heq).1.symm hne

end Alone

end ObjectPascal.Grammar

/-!
Two semantics on one input. Where they compute the same value for the next reduction, a step does
the same with either; so a run with one of them is a run with the other up to the first reduction
on which they differ.
-/

namespace ObjectPascal.Grammar

variable {V G M : Type} {t : Tables} {s s' : Semantics V G M}
  {c c' : Configuration V G M} {ms : List Move}

namespace Configuration

theorem reduce_congr {i : Nat} (h : c.valueOf s i (c.args t i) = c.valueOf s' i (c.args t i)) :
    c.reduce t s i = c.reduce t s' i := by
  unfold args at h
  simp only [reduce, h]

theorem reduce_of_error {i : Nat} {f : Failure} (h : c.valueOf s i (c.args t i) = .error f) :
    c.reduce t s i = .failed f c := by
  unfold args at h
  simp only [reduce, h]

/-- Whether a step reduces does not depend on the semantics. If it does, then with the stacks as
they are, whether or not it looks at the next token before. -/
theorem step_of_reduces {i : Nat} (h : c.move? t = some (.reduce i)) :
    ∃ c₁ : Configuration V G M, c₁.states = c.states ∧ c₁.values = c.values ∧
      c₁.memory = c.memory ∧ ∀ s : Semantics V G M, c.step t s = c₁.reduce t s i := by
  rcases chooses_of_move h with hd | ⟨hd, hact⟩
  · exact ⟨c, rfl, rfl, rfl, fun s => (step_of_default hd).1⟩
  · refine ⟨c.look, look_states, look_values, look_memory, fun s => ?_⟩
    rcases step_of_default_none (s := s) hd with ⟨_, hstep⟩ | ⟨_, hread, _⟩
    · rw [hstep, act, look_top, hact]
    · simp [move?, hd, hread] at h

/-- Any other step does the same with all semantics that give tokens the same value. -/
theorem step_of_not_reduces (h : ∀ i, c.move? t ≠ some (.reduce i))
    (htoken : s.ofToken = s'.ofToken) : c.step t s = c.step t s' := by
  have hd : t.defaultAt c.top = none := by
    cases hd : t.defaultAt c.top with
    | none => rfl
    | some i => exact absurd (step_of_default (s := s) hd).2 (h i)
  rcases step_of_default_none (s := s) hd with ⟨hread, hs⟩ | ⟨_, hread, hs⟩
  · rcases step_of_default_none (s := s') hd with ⟨_, hs'⟩ | ⟨_, hread', _⟩
    · rw [hs, hs', act, act, look_top]
      split
      · rw [htoken]
      · rename_i i hact
        exact absurd (by simp [move?, hd, hread, hact]) (h i)
      · rfl
      · rfl
    · rw [hread] at hread'
      cases hread'
  · rcases step_of_default_none (s := s') hd with ⟨hread', _⟩ | ⟨_, _, hs'⟩
    · rw [hread] at hread'
      cases hread'
    · rw [hs, hs']

end Configuration

/-- A run with one semantics is a run with another one that does the same wherever it goes on. -/
theorem Run.transfer {c₀ : Configuration V G M} (h : Run t s c₀ ms c)
    (hs : ∀ ms₁ c₁ c₂, Run t s c₀ ms₁ c₁ → c₁.step t s = .more c₂ → c₁.step t s' = .more c₂) :
    Run t s' c₀ ms c := by
  induction h with
  | refl => exact .refl
  | tail hrun hstep ih => exact ih.tail (hs _ _ _ hrun hstep)

end ObjectPascal.Grammar
