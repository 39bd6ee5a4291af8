import ObjectPascal.Proofs.Grammar.First
import ObjectPascal.Proofs.Grammar.Canonical
import ObjectPascal.Proofs.Grammar.ViablePrefix

/-!
The lookaheads are exactly those of the canonical sets of items with one token ahead. Such a set and
a state that the same symbols lead to are compared: all that follows an item in the set is in the
lookahead of the state, and what arises in the lookahead of the state or passes on to it comes from
such a set. For the latter every item of the state has to be in the set with some token. This needs
that all that the start symbol leads to derives tokens: an item that nothing can follow is dropped
from the sets with one token ahead, but not from the state.
-/

namespace ObjectPascal.Grammar

variable {g : Grammar}

namespace Ahead

/-- Items with a token that follows, and the productions of the nonterminals that come next with
all tokens that can follow these. -/
inductive InClosure (g : Grammar) (s : Set (Item × Kind)) : Item → Kind → Prop
  | base {i : Item} {k : Kind} (h : (i, k) ∈ s) : InClosure g s i k
  | expand {i : Item} {j k : Kind} {p : Nat} (h : InClosure g s i j) (hp : p < g.productions.size)
      (hn : g.next i = some (.nonterminal (g.production p).lhs))
      (hf : g.Opens (g.rest i ++ [.terminal j]) k) : InClosure g s ⟨p, 0⟩ k

/-- The closure of a set of items with one token ahead. -/
def closureSet (g : Grammar) (s : Set (Item × Kind)) : Set (Item × Kind) :=
  {e | InClosure g s e.1 e.2}

/-- The items of a set that stand before a symbol, advanced over it with their tokens. -/
def advanceSet (g : Grammar) (s : Set (Item × Kind)) (x : Symbol) : Set (Item × Kind) :=
  {e | ∃ j, (j, e.2) ∈ s ∧ g.next j = some x ∧ e.1 = ⟨j.prod, j.dot + 1⟩}

/-- The canonical sets of items with one token ahead. The end of the input follows the start
item. -/
inductive Canonical (g : Grammar) : Set (Item × Kind) → Prop
  | start : Canonical g (closureSet g {(⟨0, 0⟩, .eof)})
  | goto {s : Set (Item × Kind)} {x : Symbol} (h : Canonical g s)
      (hx : ∃ e ∈ s, g.next e.1 = some x) : Canonical g (closureSet g (advanceSet g s x))

/-- The items of a set without their tokens. -/
def core (s : Set (Item × Kind)) : Set Item := {i | ∃ k, (i, k) ∈ s}

end Ahead

/-- Every nonterminal that the start symbol leads to derives some tokens. -/
def Fertile (g : Grammar) : Prop :=
  ∀ u n v, g.Derives (g.production 0).rhs (u ++ .nonterminal n :: v) →
    ∃ w : List Kind, g.Derives [.nonterminal n] (w.map .terminal)

/-- The same symbols lead to a state and to a set of items with one token ahead. -/
inductive Beside (g : Grammar) : Nat → Set (Item × Kind) → Prop
  | start : Beside g 0 (Ahead.closureSet g {(⟨0, 0⟩, .eof)})
  | step {q q' : Nat} {s : Set (Item × Kind)} {x : Symbol} (h : Beside g q s)
      (hq : (x, q') ∈ g.stepsAt q) :
      Beside g q' (Ahead.closureSet g (Ahead.advanceSet g s x))

/-- A closure has the productions of the nonterminals that come next in it. -/
theorem Beside.closed {q : Nat} {s : Set (Item × Kind)} (h : g.Beside q s) {i : Item} {j k : Kind}
    {p : Nat} (hi : (i, j) ∈ s) (hp : p < g.productions.size)
    (hn : g.next i = some (.nonterminal (g.production p).lhs))
    (hf : g.Opens (g.rest i ++ [.terminal j]) k) : (⟨p, 0⟩, k) ∈ s := by
  cases h with
  | start => exact .expand hi hp hn hf
  | step => exact .expand hi hp hn hf

section Complete

variable (hw : g.WellFormed)

include hw

theorem follows_of_opens {i : Item} {j k : Kind} (h : g.Opens (g.rest i ++ [.terminal j]) k) :
    g.Follows i j.index k.index := by
  have hmem := (mem_ofString_iff hw _ _).mpr ⟨k, rfl, h⟩
  rcases (mem_ofString_append _ _ _).mp hmem with hfirst | ⟨hempty, hlast⟩
  · exact Or.inl hfirst
  · exact Or.inr ⟨hempty, NatSet.mem_single.mp hlast⟩

/-- What a closure with one token ahead holds, the state expects. -/
theorem expects_of_inClosure {q : Nat} {s : Set (Item × Kind)}
    (hs : ∀ i k, (i, k) ∈ s → g.Expects q i k.index) {i : Item} {k : Kind}
    (h : Ahead.InClosure g s i k) : g.Expects q i k.index := by
  induction h with
  | base h => exact hs _ _ h
  | expand _ hp hn hf ih => exact ih.closure hp hn (follows_of_opens hw hf)

variable (hr : g.Unreserved)

include hr

theorem Beside.expects {q : Nat} {s : Set (Item × Kind)} (h : g.Beside q s) {i : Item} {k : Kind}
    (hi : (i, k) ∈ s) : g.Expects q i k.index := by
  induction h generalizing i k with
  | start =>
    refine expects_of_inClosure hw (fun i k hi => ?_) hi
    obtain ⟨rfl, rfl⟩ := Prod.mk.inj hi
    exact expects_start hw hr
  | step _ hq ih =>
    refine expects_of_inClosure hw (fun i k hi => ?_) hi
    obtain ⟨j, hj, hx, rfl⟩ := hi
    exact (ih hj).step hw hr hx hq

theorem Beside.core_subset {q : Nat} {s : Set (Item × Kind)} (h : g.Beside q s) :
    Ahead.core s ⊆ g.itemsAt q := by
  rintro i ⟨k, hk⟩
  exact (h.expects hw hr hk).mem_closure hw

/-- The lookahead of an item of the kernel holds the tokens that follow it in the sets beside. -/
theorem Beside.mem_lookahead {q : Nat} {s : Set (Item × Kind)} (h : g.Beside q s) {i : Item}
    {k : Kind} (hi : (i, k) ∈ s) {la : NatSet} (hla : (i, la) ∈ g.kernelSets q) :
    k.index ∈ la := by
  obtain ⟨d, hd, rfl⟩ := mem_kernelSets.mp hla
  have hmem : i ∈ g.kernelAt q := List.mem_of_getElem? hd
  rcases (h.expects hw hr hi).lookahead hw with ⟨la', hla', hk⟩ | ⟨hdot, _, hexp, _⟩
  · obtain ⟨d', hd', rfl⟩ := mem_kernelSets.mp hla'
    have hnodup := items_nodup.sublist (isKernel_kernelAt hw hr q).sublist
    have hlt := (List.getElem?_eq_some_iff.mp hd).1
    rwa [(List.getElem?_inj hlt hnodup).mp (hd.trans hd'.symm)]
  · -- An item of the kernel at the beginning of a production is the start item.
    rw [(isKernel_kernelAt hw hr q).zero_of_dot i hmem hdot, hw.goal_lhs] at hexp
    exact absurd hexp (zero_notMem_expanded hw hr _)

theorem exists_beside_of_canonical {s : Set (Item × Kind)} (h : Ahead.Canonical g s) :
    ∃ q, q < g.stateCount ∧ g.Beside q s := by
  induction h with
  | start => exact ⟨0, stateCount_pos hw hr, .start⟩
  | goto _ hx ih =>
    obtain ⟨q, _, hbeside⟩ := ih
    obtain ⟨⟨i, k⟩, hi, hnext⟩ := hx
    obtain ⟨q', hq'⟩ := exists_step hw hr (hbeside.core_subset hw hr ⟨k, hi⟩) hnext
    exact ⟨q', (mem_steps_of_mem_stepsAt hw hr hq').1, .step hbeside hq'⟩

end Complete

section Tokens

variable (hw : g.WellFormed) (hr : g.Unreserved) (hf : g.Fertile)

/-- A string that the start symbol leads to derives some tokens. -/
theorem Fertile.exists_word (hf : g.Fertile) (u xs v : List Symbol)
    (h : g.Derives (g.production 0).rhs (u ++ (xs ++ v))) :
    ∃ w : List Kind, g.Derives xs (w.map .terminal) := by
  induction xs generalizing u with
  | nil => exact ⟨[], .refl⟩
  | cons x xs ih =>
    obtain ⟨w, hxs⟩ := ih (u ++ [x]) (by simpa using h)
    have hx : ∃ w : List Kind, g.Derives [x] (w.map .terminal) := by
      cases x with
      | terminal k => exact ⟨[k], .refl⟩
      | nonterminal n => exact hf u n (xs ++ v) h
    obtain ⟨w', hx⟩ := hx
    refine ⟨w' ++ w, ?_⟩
    rw [List.map_append]
    exact hx.append hxs

theorem Beside.exists_path {q : Nat} {s : Set (Item × Kind)} (h : g.Beside q s) :
    ∃ states xs, g.survey.automaton.Path states xs ∧ states.headD 0 = q := by
  induction h with
  | start => exact ⟨[0], [], .bottom, rfl⟩
  | @step q q' s x _ hq ih =>
    obtain ⟨states, xs, hpath, rfl⟩ := ih
    exact ⟨q' :: states, x :: xs, hpath.step hq, rfl⟩

/-- With any token behind it a string that derives tokens begins with some token. -/
theorem exists_opens {xs : List Symbol} {w : List Kind} (h : g.Derives xs (w.map .terminal))
    (k : Kind) : ∃ k', g.Opens (xs ++ [.terminal k]) k' := by
  have hall : g.Derives (xs ++ [.terminal k]) ((w ++ [k]).map .terminal) := by
    rw [List.map_append]
    exact h.append .refl
  cases w with
  | nil => exact ⟨k, [], hall⟩
  | cons k' w => exact ⟨k', (w ++ [k]).map .terminal, hall⟩

/-- Where some token follows each item of a set, some token follows each item of its closure. -/
theorem exists_token_of_inClosure {t : Set Item} {s : Set (Item × Kind)}
    (hrest : ∀ i n, g.InClosure t i → g.next i = some (.nonterminal n) →
      ∃ w : List Kind, g.Derives (g.rest i) (w.map .terminal))
    (ht : ∀ i ∈ t, ∃ k, (i, k) ∈ s) {i : Item} (h : g.InClosure t i) :
    ∃ k, Ahead.InClosure g s i k := by
  induction h with
  | base hi =>
    obtain ⟨k, hk⟩ := ht _ hi
    exact ⟨k, .base hk⟩
  | expand h hp hn ih =>
    obtain ⟨j, hj⟩ := ih
    obtain ⟨w, hword⟩ := hrest _ _ h hn
    obtain ⟨k, hk⟩ := exists_opens hword j
    exact ⟨k, .expand hj hp hn hk⟩

include hw hr hf

theorem Beside.rest_derives {q : Nat} {s : Set (Item × Kind)} (h : g.Beside q s) {i : Item}
    {n : Nat} (hi : i ∈ g.itemsAt q) (hn : g.next i = some (.nonterminal n)) :
    ∃ w : List Kind, g.Derives (g.rest i) (w.map .terminal) := by
  obtain ⟨states, xs, hpath, rfl⟩ := h.exists_path
  obtain ⟨right, hright⟩ := hpath.viable hw hr i hi
  have hdrop : (g.production i.prod).rhs.drop i.dot = .nonterminal n :: g.rest i := by
    obtain ⟨hlt, hget⟩ := List.getElem?_eq_some_iff.mp hn
    rw [List.drop_eq_getElem_cons hlt, hget]
    rfl
  rw [hdrop] at hright
  exact hf.exists_word (xs.reverse ++ [.nonterminal n]) (g.rest i) right (by simpa using hright)

/-- Some token follows each item of a state in each set beside it. -/
theorem Beside.exists_token {q : Nat} {s : Set (Item × Kind)} (h : g.Beside q s) {i : Item}
    (hi : i ∈ g.itemsAt q) : ∃ k, (i, k) ∈ s := by
  induction h generalizing i with
  | start =>
    have hrest (i : Item) (n : Nat) (hin : g.InClosure {⟨0, 0⟩} i) :=
      Beside.rest_derives hw hr hf (n := n) .start (by rwa [itemsAt_zero hw hr] : i ∈ g.itemsAt 0)
    rw [itemsAt_zero hw hr] at hi
    exact exists_token_of_inClosure hrest (fun i hi => ⟨.eof, by rw [hi]; rfl⟩) hi
  | @step q q' s x h hq ih =>
    have hitems := itemsAt_of_step hw hr hq
    have hrest (i : Item) (n : Nat) (hin : g.InClosure (g.advanceSet (g.itemsAt q) x) i) :=
      Beside.rest_derives hw hr hf (n := n) (.step h hq) (by rwa [hitems] : i ∈ g.itemsAt q')
    rw [hitems] at hi
    refine exists_token_of_inClosure hrest ?_ hi
    rintro _ ⟨j, hj, hx, rfl⟩
    obtain ⟨k, hk⟩ := ih hj
    exact ⟨k, j, hk, hx, rfl⟩

theorem Beside.core_eq {q : Nat} {s : Set (Item × Kind)} (h : g.Beside q s) :
    Ahead.core s = g.itemsAt q :=
  Set.Subset.antisymm (h.core_subset hw hr) fun _ hi => h.exists_token hw hr hf hi

theorem Beside.canonical {q : Nat} {s : Set (Item × Kind)} (h : g.Beside q s) :
    Ahead.Canonical g s := by
  induction h with
  | start => exact .start
  | step h hq ih =>
    obtain ⟨j, hj, hnext⟩ := exists_item_of_step hw hr hq
    obtain ⟨k, hk⟩ := h.exists_token hw hr hf hj
    exact .goto ih ⟨(j, k), hk, hnext⟩

end Tokens
section Sources

theorem index_ne_passMark (k : Kind) : k.index ≠ passMark := by
  rw [passMark]
  exact k.index_lt.ne

/-- Lookahead `j` of a nonterminal is in a set: a terminal follows its productions there, and for
the mark `k` does. -/
def Brought (g : Grammar) (s : Set (Item × Kind)) (k : Kind) (n j : Nat) : Prop :=
  ∀ p < g.productions.size, (g.production p).lhs = n →
    (j = passMark → (⟨p, 0⟩, k) ∈ s) ∧ ∀ k' : Kind, j = k'.index → (⟨p, 0⟩, k') ∈ s

variable (hw : g.WellFormed) {q : Nat} {s : Set (Item × Kind)} (h : g.Beside q s)

include hw h

/-- What the rest of an item begins with follows the nonterminal that comes next. -/
theorem Beside.brought_first {i : Item} {n j : Nat} {k k' : Kind} (hi : (i, k') ∈ s)
    (hn : g.next i = some (.nonterminal n)) (hj : j ∈ g.firstSets.ofString (g.rest i)) :
    g.Brought s k n j := by
  rintro p hp rfl
  obtain ⟨l, rfl, hopens⟩ := (mem_ofString_iff hw _ _).mp hj
  have hin : (⟨p, 0⟩, l) ∈ s := h.closed hi hp hn (hopens.before _)
  refine ⟨fun hmark => absurd hmark (index_ne_passMark l), fun l' hl' => ?_⟩
  rwa [← Kind.index_inj hl']

/-- Where the rest of an item may be empty, what follows the item follows the nonterminal. -/
theorem Beside.mem_of_pass {i : Item} {p : Nat} {k : Kind} (hi : (i, k) ∈ s)
    (hp : p < g.productions.size) (hn : g.next i = some (.nonterminal (g.production p).lhs))
    (hempty : g.firstSets.derivesEmpty (g.rest i) = true) : (⟨p, 0⟩, k) ∈ s := by
  have hopens : g.Opens [.terminal k] k := ⟨[], .refl⟩
  exact h.closed hi hp hn (hopens.behind ((derivesEmpty_iff hw _).mp hempty))

/-- Spreading brings nothing that is not in the set, as long as some token follows the productions
that it spreads from. -/
theorem Beside.brought_spread {k : Kind} {expanded : List Nat}
    (hall : ∀ p < g.productions.size, (g.production p).lhs ∈ expanded → ∃ k', (⟨p, 0⟩, k') ∈ s)
    {a : Array NatSet} (ha : ∀ n j, j ∈ setAt a n → g.Brought s k n j) (n j : Nat)
    (hj : j ∈ setAt (g.survey.spread expanded a) n) : g.Brought s k n j := by
  have hspread : ∀ n j, j ∈ setAt (g.survey.spread expanded a) n → g.Brought s k n j := by
    unfold Survey.spread
    refine List.foldlRecOn expanded _ (motive := fun a : Array NatSet =>
      ∀ n j, j ∈ setAt a n → g.Brought s k n j) ha ?_
    intro b hb m hm
    refine List.foldlRecOn (g.survey.corners.getD m []) _ (motive := fun a : Array NatSet =>
      ∀ n j, j ∈ setAt a n → g.Brought s k n j) hb ?_
    intro b' hb' c hc n j hj
    rcases mem_modify.mp hj with hj | ⟨rfl, _, hj⟩
    · exact hb' n j hj
    · -- The corner is that of a production which some token follows.
      obtain ⟨p, hp, rfl, rest, hrhs, hfirst, hempty⟩ := (mem_corners hw).mp hc
      have hnext : g.next ⟨p, 0⟩ = some (.nonterminal c.head) := by simp [next, hrhs]
      have hrest : g.rest ⟨p, 0⟩ = rest := by simp [Grammar.rest, hrhs]
      rcases mem_corner.mp hj with hj | ⟨hnull, hj⟩
      · obtain ⟨k', hk'⟩ := hall p hp hm
        refine h.brought_first hw hk' hnext ?_
        rwa [hrest, ← hfirst]
      · rintro p' hp' hlhs
        have hpass : g.firstSets.derivesEmpty (g.rest ⟨p, 0⟩) = true := by rwa [hrest, ← hempty]
        obtain ⟨hmark, hkind⟩ := hb _ j hj p hp rfl
        rw [← hlhs] at hnext
        exact ⟨fun heq => h.mem_of_pass hw (hmark heq) hp' hnext hpass,
          fun k' heq => h.mem_of_pass hw (hkind k' heq) hp' hnext hpass⟩
  exact hspread n j hj

/-- An item of the set brings to the productions of its closure only what is in the set. -/
theorem Beside.brought_marked {i : Item} {k : Kind} (hi : (i, k) ∈ s)
    (hall : ∀ p < g.productions.size, (g.production p).lhs ∈ g.survey.expanded [i] →
      ∃ k', (⟨p, 0⟩, k') ∈ s) (n j : Nat) (hj : j ∈ setAt (g.marked i) n) :
    g.Brought s k n j := by
  have hseeds : ∀ n j, j ∈ setAt (g.survey.seeds [(i, .single passMark)]) n →
      g.Brought s k n j := by
    intro n j hj
    obtain ⟨_, e, he, hn, hcon⟩ := ((seeds_spec _).2 n j).mp hj
    obtain rfl := List.mem_singleton.mp he
    rcases mem_contribution.mp hcon with hfirst | ⟨hempty, hmark⟩
    · exact h.brought_first hw hi hn hfirst
    · have hmark : j = passMark := NatSet.mem_single.mp hmark
      rintro p hp rfl
      exact ⟨fun _ => h.mem_of_pass hw hi hp hn hempty,
        fun k' hk' => absurd (hk'.symm.trans hmark) (index_ne_passMark k')⟩
  have hbelow : ∀ p < g.productions.size,
      (g.production p).lhs ∈ (g.survey.expanded [i]).below g.nonterminalCount →
      ∃ k', (⟨p, 0⟩, k') ∈ s := fun p hp hm => hall p hp (NatSet.mem_below.mp hm).2
  have hround (a : Array NatSet) (ha : ∀ n j, j ∈ setAt a n → g.Brought s k n j) :=
    h.brought_spread hw hbelow ha
  exact saturate_induct hround _ _ hseeds n j hj

end Sources

section Places

/-- Lookahead `j` at a place follows the item of the place in a set beside its state. -/
def Sourced (g : Grammar) (p j : Nat) : Prop :=
  ∀ q d i, (g.kernelAt q)[d]? = some i → p = g.offset q + d →
    ∃ s k, g.Beside q s ∧ (i, k) ∈ s ∧ j = k.index

variable (hw : g.WellFormed) (hr : g.Unreserved) (hf : g.Fertile)

include hw hr

/-- Some set stands beside each state. -/
theorem exists_beside {q : Nat} (hq : q < g.stateCount) : ∃ s, g.Beside q s := by
  refine state_induct hw hr (P := fun q => ∃ s, g.Beside q s) ⟨_, .start⟩ ?_ q hq
  rintro q x q' ⟨s, hs⟩ hstep
  exact ⟨_, hs.step hstep⟩

include hf

/-- What a pass brings to a place from a set beside the state it comes from is in a set beside the
state of the place. -/
theorem Sourced.pass {e : Pass} (he : e ∈ g.passes) {j : Nat}
    (hj : (j ∈ e.la ∧ j < Kind.count) ∨ (passMark ∈ e.la ∧ g.Sourced e.source j)) :
    g.Sourced e.target j := by
  intro q' d' i' hi' ht
  obtain ⟨q, d, i, x, i₀, hget, hsource, hstep, hnext, rfl, hpass⟩ :=
    pass_source hw hr he hi' ht
  have hq : q < g.stateCount := lt_stateCount_of_kernelAt hget
  have hmem : i ∈ g.kernelAt q := List.mem_of_getElem? hget
  have hitem : i ∈ g.itemsAt q := (mem_closure hw).mpr (Or.inl hmem)
  -- It is enough to find the token behind the item that is advanced.
  suffices hbefore : ∃ s k, g.Beside q s ∧ (i₀, k) ∈ s ∧ j = k.index by
    obtain ⟨s, k, hs, hk, hjk⟩ := hbefore
    exact ⟨_, k, hs.step hstep, .base ⟨i₀, hk, hnext, rfl⟩, hjk⟩
  -- In a set beside the state some token follows each production of the closure of the item.
  have hall {s : Set (Item × Kind)} (hs : g.Beside q s) (p : Nat) (hp : p < g.productions.size)
      (hexp : (g.production p).lhs ∈ g.survey.expanded [i]) : ∃ k, (⟨p, 0⟩, k) ∈ s := by
    refine hs.exists_token hw hr hf ((mem_closure hw).mpr (Or.inr ⟨rfl, hp, ?_⟩))
    obtain ⟨i₁, hi₁, m, hm, hcone⟩ := mem_expanded.mp hexp
    obtain rfl := List.mem_singleton.mp hi₁
    exact mem_expanded.mpr ⟨_, hmem, m, hm, hcone⟩
  have hprod := prod_lt_of_next hnext
  rcases hpass with ⟨rfl, hla⟩ | ⟨hdot, _, hla⟩
  · rcases hj with ⟨hj, hlt⟩ | ⟨_, hfrom⟩
    · rw [hla, NatSet.mem_single, passMark] at hj
      exact absurd hj hlt.ne
    · exact hfrom q d i₀ hget hsource
  · obtain ⟨p, dot⟩ := i₀
    obtain rfl : dot = 0 := hdot
    rw [hla] at hj
    rcases hj with ⟨hj, hlt⟩ | ⟨hmark, hfrom⟩
    · obtain ⟨k, rfl⟩ := Kind.exists_index hlt
      obtain ⟨s, hs⟩ := exists_beside hw hr hq
      obtain ⟨k₀, hk₀⟩ := hs.exists_token hw hr hf hitem
      have hbrought := hs.brought_marked hw hk₀ (hall hs) _ _ hj p hprod rfl
      exact ⟨s, k, hs, hbrought.2 k rfl, rfl⟩
    · obtain ⟨s, k, hs, hk, rfl⟩ := hfrom q d i hget hsource
      have hbrought := hs.brought_marked hw hk (hall hs) _ _ hmark p hprod rfl
      exact ⟨s, k, hs, hbrought.1 rfl, rfl⟩

theorem lookaheads_sourced (p j : Nat) (hj : j ∈ setAt g.slots.lookaheads p) : g.Sourced p j := by
  have hsets (p j : Nat) (hj : j ∈ setAt g.flow.sets p) : g.Sourced p j := by
    rcases ((flow_sets g.passes g.slots.initial).2 p j).mp hj with hj | ⟨_, e, he, rfl, hlt, hj⟩
    · obtain ⟨rfl, _, rfl⟩ := mem_initial.mp hj
      intro q d i hi hp
      have hstart : (g.kernelAt 0)[0]? = some ⟨0, 0⟩ := by rw [kernelAt_zero hw hr]; rfl
      have hplace : g.offset 0 + 0 = 0 := by simp [offset]
      obtain ⟨rfl, rfl⟩ := place_inj hstart hi (hplace.trans hp)
      exact ⟨_, .eof, .start, .base rfl, rfl⟩
    · exact Sourced.pass hw hr hf he (Or.inl ⟨hj, hlt⟩)
  have hedge (p p' j : Nat) (he : (p, p') ∈ g.flow.edges.reverse) (hp : g.Sourced p j) :
      g.Sourced p' j := by
    rcases (mem_edges g.passes g.slots.initial).mp (List.mem_reverse.mp he) with
      hnil | ⟨e, hpass, rfl, rfl, hmark⟩
    · cases hnil
    · exact Sourced.pass hw hr hf hpass (Or.inr ⟨hmark, hp⟩)
  have hall : ∀ p j, j ∈ setAt g.slots.lookaheads p → g.Sourced p j := by
    rw [lookaheads_eq]
    exact saturate_induct (P := fun a => ∀ p j, j ∈ setAt a p → g.Sourced p j)
      (fun a ha => passOn_induct hedge ha) _ _ hsets
  exact hall p j hj

end Places

theorem Productive.fertile (hw : g.WellFormed) (hp : g.Productive) : g.Fertile := by
  intro u n v h
  have hlt := h.nonterminal_lt hw (hw.rhs_lt 0 hw.size_pos) n
  exact hp n (hlt (List.mem_append_right _ List.mem_cons_self))

section Barren

/-- A goal with a part that derives no tokens. -/
def barren : Grammar :=
  (((({} : Grammar).start "goal").rule "goal" [.name "head", .name "tail"]).rule "head"
    [.name "item", .token .semicolon]).rule "item" [.token .integer]
    |>.rule "tail" [.name "tail", .token .integer]

/-- The states of the barren grammar. -/
def barrenStates : Automaton :=
  ⟨#[[⟨0, 0⟩], [⟨3, 1⟩], [⟨0, 1⟩], [⟨1, 1⟩], [⟨2, 1⟩], [⟨1, 2⟩, ⟨4, 1⟩], [⟨2, 2⟩], [⟨4, 2⟩]],
    #[[(.terminal .integer, 1), (.nonterminal 1, 2), (.nonterminal 2, 3), (.nonterminal 4, 4)],
      [], [], [(.nonterminal 3, 5)], [(.terminal .semicolon, 6)], [(.terminal .integer, 7)], [],
      []]⟩

theorem barren_built : barren.Built :=
  .rule (.rule (.rule (.rule (.start .empty _) _ _ none) _ _ none) _ _ none) _ _ none

/-- There is a kernel for each state. -/
example : barrenStates.kernels.size = 8 := by decide +kernel

theorem barren_eq : barren = ⟨#["$accept", "goal", "head", "tail", "item"],
    #[⟨0, [.nonterminal 1], 0⟩, ⟨1, [.nonterminal 2, .nonterminal 3], 0⟩,
      ⟨2, [.nonterminal 4, .terminal .semicolon], 0⟩, ⟨4, [.terminal .integer], 0⟩,
      ⟨3, [.nonterminal 3, .terminal .integer], 0⟩], [], 0⟩ := by
  decide +kernel

theorem barren_unreserved : barren.Unreserved := by
  rw [barren_eq]
  exact ⟨by decide, by decide⟩

theorem barren_survey : barren.survey = ⟨barren,
    ⟨#[false, false, false, false, false], #[.single Kind.integer.index,
      .single Kind.integer.index, .single Kind.integer.index, ∅, .single Kind.integer.index]⟩,
    #[[0], [1], [2], [4], [3]],
    #[[⟨1, ∅, true⟩], [⟨2, ∅, false⟩], [⟨4, .single Kind.semicolon.index, false⟩],
      [⟨3, .single Kind.integer.index, false⟩], []],
    #[⟨23⟩, ⟨22⟩, ⟨20⟩, ⟨8⟩, ⟨16⟩]⟩ := by
  rw [barren_eq]
  decide +kernel

theorem barren_automaton : barren.survey.automaton = barrenStates := by
  rw [Survey.automaton_eq, barren_survey, barren_eq]
  decide +kernel

set_option maxRecDepth 20000 in
theorem barren_lookaheads : barren.slots.lookaheads =
    #[.single Kind.eof.index, .single Kind.semicolon.index, .single Kind.eof.index,
      .single Kind.eof.index, ∅, .single Kind.eof.index,
      .single Kind.eof.index ∪ .single Kind.integer.index, ∅,
      .single Kind.eof.index ∪ .single Kind.integer.index] := by
  rw [slots, barren_automaton, barren_survey, barren_eq]
  decide +kernel

/-- Nothing follows the head of the goal. -/
theorem barren_not_opens (j k : Kind) : ¬ barren.Opens [.nonterminal 3, .terminal j] k := by
  intro h
  have hmem := (mem_ofString_iff barren_built.wellFormed _ _).mpr ⟨k, rfl, h⟩
  rw [← survey_facts, barren_survey] at hmem
  simp [First.ofString, First.isNullable, First.of] at hmem

/-- The head comes next only where the goal begins, and what it consists of only in the head. -/
theorem barren_next {i : Item} {n : Nat} (hn : barren.next i = some (.nonterminal n))
    (hi : i.prod ≠ 2) : (n = 2 → i = ⟨1, 0⟩) ∧ n ≠ 4 := by
  have htwo : ∀ p < 5, ∀ d < 2, barren.next ⟨p, d⟩ = some (.nonterminal 2) → p = 1 ∧ d = 0 := by
    rw [barren_eq]
    decide
  have hfour : ∀ p < 5, ∀ d < 2, p ≠ 2 → barren.next ⟨p, d⟩ ≠ some (.nonterminal 4) := by
    rw [barren_eq]
    decide
  have hprod : i.prod < 5 := by
    have hlt := prod_lt_of_next hn
    rw [barren_eq] at hlt
    exact hlt
  have hdot : i.dot < 2 := by
    have hlen : ∀ p < 5, (barren.production p).rhs.length ≤ 2 := by
      rw [barren_eq]
      decide
    exact (List.getElem?_eq_some_iff.mp hn).1.trans_le (hlen _ hprod)
  constructor
  · rintro rfl
    obtain ⟨h1, h0⟩ := htwo _ hprod _ hdot hn
    cases i
    cases h1
    cases h0
    rfl
  · rintro rfl
    exact hfour _ hprod _ hdot hi hn

/-- No canonical set with one token ahead has an item of the head or of what it consists of. -/
theorem barren_canonical {s : Set (Item × Kind)} (h : Ahead.Canonical barren s) :
    ∀ i k, (i, k) ∈ s → i.prod ≠ 2 ∧ i.prod ≠ 3 := by
  have hclosure {s : Set (Item × Kind)} (hs : ∀ i k, (i, k) ∈ s → i.prod ≠ 2 ∧ i.prod ≠ 3)
      (i : Item) (k : Kind) (hi : Ahead.InClosure barren s i k) : i.prod ≠ 2 ∧ i.prod ≠ 3 := by
    induction hi with
    | base hi => exact hs _ _ hi
    | @expand i j k p _ hp hn hf ih =>
      have hlhs : (barren.production 2).lhs = 2 ∧ (barren.production 3).lhs = 4 := by
        rw [barren_eq]
        decide
      constructor
      · rintro rfl
        rw [hlhs.1] at hn
        obtain rfl := (barren_next hn ih.1).1 rfl
        have hrest : barren.rest ⟨1, 0⟩ = [.nonterminal 3] := by
          rw [barren_eq]
          rfl
        rw [hrest] at hf
        exact barren_not_opens j k hf
      · rintro rfl
        rw [hlhs.2] at hn
        exact (barren_next hn ih.1).2 rfl
  induction h with
  | start =>
    refine hclosure fun i k hi => ?_
    obtain ⟨rfl, _⟩ := Prod.mk.inj hi
    decide
  | goto _ _ ih =>
    refine hclosure fun i k hi => ?_
    obtain ⟨j, hj, _, rfl⟩ := hi
    exact ih j k hj

end Barren

end ObjectPascal.Grammar
