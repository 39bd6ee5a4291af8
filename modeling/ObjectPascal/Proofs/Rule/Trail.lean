import ObjectPascal.Proofs.Grammar.Decisions
import ObjectPascal.Proofs.Rule.Ending
import ObjectPascal.Proofs.Rule.Precedence

/-!
Trails. What stands on the stack of a parse tells which rules can have been read up to which place:
those that begin with what is on top, if they can begin where that begins. So it can be decided from
the rules alone, without the automaton, that a parse goes on with the next token or completes the one
rule that ends on top.
-/

namespace ObjectPascal

namespace Grammar

theorem next_eq (g : Grammar) (i d : Nat) : g.next ⟨i, d⟩ = (g.production i).rhs[d]? := rfl

end Grammar

namespace Rule

open Grammar (Tables)

/-- A stack as the rules see it: its symbols, the top first, each with the phrases that can begin
behind it. -/
abbrev Trail := List (Sym × List Phrase)

namespace Trail

/-- The phrases that can begin on top. At the bottom these are those for whole sources. -/
def heads : Trail → List Phrase
  | [] => [.goal, .program, .unit, .library, .package]
  | x :: _ => x.2

/-- A rule can have been read up to some place: what it begins with is on top, and the rule could
begin below. -/
def admits (w : Trail) (r : Rule) (d : Nat) : Bool :=
  (r.rhs.take d).reverse.isPrefixOf (w.map (·.1)) && (heads (w.drop d)).contains r.lhs

/-- Phrases together with all that their rules begin with. -/
def closed (ps : List Phrase) : Bool :=
  all.all fun r => !ps.contains r.lhs ||
    match r.rhs.head? with
    | some (.phrase p) => ps.contains p
    | _ => true

/-- Every phrase that a rule goes on with behind the symbol on top can begin there. -/
def opens : Trail → Bool
  | [] => true
  | x :: w => all.all fun r => (List.range r.rhs.length).all fun d =>
    r.rhs[d]? != some x.1 ||
      match r.rhs[d + 1]? with
      | some (.phrase p) => x.2.contains p || !admits (x :: w) r (d + 1)
      | _ => true

/-- The phrases that can begin are all told. -/
def complete : Trail → Bool
  | [] => closed (heads [])
  | x :: w => complete w && closed x.2 && opens (x :: w)

/-- A rule can end on top. -/
def ends (w : Trail) (r : Rule) : Bool := w.admits r r.rhs.length

/-- A token can come next. -/
def takes (w : Trail) (k : Kind) : Bool :=
  all.any fun r => (List.range r.rhs.length).any fun d =>
    r.rhs[d]? == some (.token k) && w.admits r d

/-- At most one rule can end on top. -/
def sole (w : Trail) : Bool := all.countP w.ends ≤ 1

/-- A stack of states of which a trail tells. -/
structure Tells (w : Trail) (states : List Nat) : Prop where
  complete : w.complete = true
  path : ∃ xs, grammar.survey.automaton.Path states xs ∧
    List.Forall₂ grammar.Denotes xs (w.map fun x => x.1.part)

section Rules

/-- Lists that are related element by element are so at every place. -/
theorem exists_of_forall₂ {α β γ : Type} {R : α → γ → Prop} {f : β → γ} {l : List α} {m : List β}
    (h : List.Forall₂ R l (m.map f)) {d : Nat} {x : α} (hx : l[d]? = some x) :
    ∃ b, m[d]? = some b ∧ R x (f b) := by
  induction l generalizing m d with
  | nil => cases hx
  | cons y l ih =>
    rw [List.forall₂_map_right_iff] at h
    obtain ⟨b, m, hyb, hrest, rfl⟩ := List.forall₂_cons_left_iff.mp h
    cases d with
    | zero =>
      obtain rfl : y = x := Option.some.inj hx
      exact ⟨b, rfl, hyb⟩
    | succ d => exact ih (List.forall₂_map_right_iff.mpr hrest) hx

variable {i d : Nat} {r : Rule} {x : Symbol} {a : Sym}

/-- What comes next in a production stands for what comes next in its rule. -/
theorem exists_sym_of_next (hr : ofProduction? i = some r) (h : grammar.next ⟨i, d⟩ = some x) :
    ∃ a, r.rhs[d]? = some a ∧ grammar.Denotes x a.part := by
  rw [Grammar.next_eq] at h
  exact exists_of_forall₂ (tells_of_production hr).2.2 h

/-- A source begins with a goal. -/
example : (heads []).contains .goal = true := by decide +kernel

/-- A rule that begins a trail ends on top, at its place. -/
theorem admits_succ {w : Trail} {ps : List Phrase} (h : admits w r d = true)
    (ha : r.rhs[d]? = some a) : admits ((a, ps) :: w) r (d + 1) = true := by
  unfold admits at h ⊢
  rw [Bool.and_eq_true] at h ⊢
  refine ⟨?_, h.2⟩
  rw [List.take_add_one, ha]
  simpa using h.1

end Rules

section Heads

open Grammar (Leads)

variable {ps : List Phrase}

/-- Closed phrases hold all that they lead to. -/
theorem contains_of_leads (hc : closed ps = true) {m n : Nat} {p : Phrase}
    (h : Relation.ReflTransGen grammar.Leads m n) (hm : grammar.names[m]? = some p.name)
    (hp : p ∈ ps) : ∃ q ∈ ps, grammar.names[n]? = some q.name := by
  induction h with
  | refl => exact ⟨p, hp, hm⟩
  | tail _ hstep ih =>
    obtain ⟨q, hq, hname⟩ := ih
    obtain ⟨i, hlhs, hnext⟩ := hstep
    have hi := Grammar.prod_lt_of_next hnext
    have hne : i ≠ 0 := by
      rintro rfl
      rw [grammar_numbered.built.wellFormed.goal_lhs] at hlhs
      exact grammar_numbered.zero_denotes (a := .phrase q) (hlhs ▸ hname)
    obtain ⟨r, hget, hleft, _⟩ := grammar_numbered.exists_rule hi hne
    have hr : ofProduction? i = some r := by
      obtain ⟨j, rfl⟩ := Nat.exists_eq_succ_of_ne_zero hne
      simpa [ofProduction?, table] using hget
    obtain ⟨a, ha, hdenotes⟩ := exists_sym_of_next hr hnext
    rw [hlhs] at hleft
    obtain rfl : r.lhs = q := Sym.phrase.inj (Numbered.sym_unique (a := .phrase r.lhs) hleft
      (b := .phrase q) hname)
    cases a with
    | token k => cases hdenotes
    | phrase p' =>
      refine ⟨p', ?_, hdenotes⟩
      have hall := List.all_eq_true.mp hc r (List.mem_of_getElem? hget)
      rw [← List.head?_eq_getElem?] at ha
      simpa [ha, hq] using hall

end Heads

variable {w : Trail} {states : List Nat} {i d : Nat} {r : Rule}

/-- A rule whose phrase is expanded in a state can begin there, if all that comes next can. -/
theorem admits_zero (hc : closed (heads w) = true) {kernel : List Grammar.Item}
    (hkernel : ∀ j ∈ kernel, ∀ m, grammar.next j = some (.nonterminal m) →
      ∃ p ∈ heads w, grammar.names[m]? = some p.name)
    (hr : ofProduction? i = some r)
    (hexp : (grammar.production i).lhs ∈ grammar.survey.expanded kernel) :
    w.admits r 0 = true := by
  have hw := grammar_numbered.built.wellFormed
  obtain ⟨j, hj, m, hnext, hcone⟩ := Grammar.mem_expanded.mp hexp
  obtain ⟨p, hp, hname⟩ := hkernel j hj m hnext
  have hleads := (Grammar.mem_cones hw (Grammar.lt_count_of_next hw hnext)).mp hcone
  obtain ⟨q, hq, hname'⟩ := contains_of_leads hc hleads hname hp
  obtain ⟨_, hlhs, _⟩ := tells_of_production hr
  obtain rfl : r.lhs = q := Phrase.name_inj (Option.some.inj (hlhs.symm.trans hname'))
  simpa [admits] using hq

/-- What a state has read of a rule the trail admits. -/
theorem Tells.admits (h : w.Tells states) (hr : ofProduction? i = some r)
    (hmem : ⟨i, d⟩ ∈ grammar.survey.closure (grammar.kernelAt (states.headD 0))) :
    w.admits r d = true := by
  have hw := grammar_numbered.built.wellFormed
  have hu := grammar_numbered.unreserved
  obtain ⟨hc, xs, hpath, hden⟩ := h
  -- The induction follows the stack downwards, as the items of a kernel do.
  induction w generalizing states xs i d r with
  | nil =>
    obtain rfl := List.forall₂_nil_right_iff.mp hden
    cases hpath with
    | bottom =>
    rw [List.headD_cons, Grammar.kernelAt_zero hw hu] at hmem
    obtain hkernel | ⟨hdot, _, hexp⟩ := (Grammar.mem_closure hw).mp hmem
    · obtain ⟨rfl, rfl⟩ := Grammar.Item.mk.inj (List.mem_singleton.mp hkernel)
      cases hr
    · obtain rfl : d = 0 := hdot
      refine admits_zero hc (fun j hj m hnext => ?_) hr hexp
      obtain rfl := List.mem_singleton.mp hj
      obtain ⟨n, hstart, hname⟩ := grammar_numbered.start
      rw [Grammar.next_eq, hstart] at hnext
      obtain rfl : n = m := by simpa using hnext
      exact ⟨.goal, List.mem_cons_self, hname⟩
  | cons e w ih =>
    obtain ⟨a, ps⟩ := e
    obtain ⟨⟨hbelow, hclosed⟩, hopens⟩ : (Trail.complete w = true ∧ closed ps = true) ∧
        opens ((a, ps) :: w) = true := by
      simpa only [Trail.complete, Bool.and_eq_true] using hc
    obtain ⟨x, xs, ha, hrest, rfl⟩ := List.forall₂_cons_right_iff.mp hden
    cases hpath with
    | push hpath he =>
    rename_i p ps' q'
    -- An item of the kernel has its place behind the symbol on top.
    have hkernel {i d : Nat} {r : Rule} (hr : ofProduction? i = some r)
        (hmem : ⟨i, d⟩ ∈ grammar.kernelAt q') :
        ∃ d', d = d' + 1 ∧ r.rhs[d']? = some a ∧ Trail.admits ((a, ps) :: w) r d = true := by
      obtain ⟨⟨i', d'⟩, hitem, hnext, heq⟩ := (Grammar.mem_kernelAt_of_step hw hu he).mp hmem
      obtain ⟨rfl, rfl⟩ := Grammar.Item.mk.inj heq
      obtain ⟨a', ha', hdenotes⟩ := exists_sym_of_next hr hnext
      obtain rfl := Numbered.sym_unique ha hdenotes
      have hitem : ⟨i, d'⟩ ∈ grammar.survey.closure (grammar.kernelAt ((p :: ps').headD 0)) := hitem
      exact ⟨d', rfl, ha', admits_succ (ih hr hitem hbelow xs hpath hrest) ha'⟩
    obtain hk | ⟨hdot, _, hexp⟩ := (Grammar.mem_closure hw).mp hmem
    · obtain ⟨_, _, _, hadmits⟩ := hkernel hr hk
      exact hadmits
    · obtain rfl : d = 0 := hdot
      refine admits_zero hclosed (fun j hj m hnext => ?_) hr hexp
      obtain ⟨i', d'⟩ := j
      by_cases hzero : i' = 0
      · subst hzero
        obtain ⟨j, _, _, heq⟩ := (Grammar.mem_kernelAt_of_step hw hu he).mp hj
        obtain ⟨_, rfl⟩ := Grammar.Item.mk.inj heq
        obtain ⟨n, hstart, _⟩ := grammar_numbered.start
        rw [Grammar.next_eq, hstart] at hnext
        cases hnext
      · obtain ⟨r', hr', _⟩ := exists_ofProduction (Grammar.prod_lt_of_next hnext) hzero
        obtain ⟨d', rfl, hlast, hadmits⟩ := hkernel hr' hj
        obtain ⟨b, hb, hdenotes⟩ := exists_sym_of_next hr' hnext
        cases b with
        | token k => cases hdenotes
        | phrase b =>
          refine ⟨b, ?_, hdenotes⟩
          have hmem := List.mem_range.mpr (List.getElem?_eq_some_iff.mp hlast).1
          have hall := List.all_eq_true.mp
            (List.all_eq_true.mp hopens r' (tells_of_production hr').1) d' hmem
          simpa [hlast, hb, hadmits, heads] using hall

section Choices

/-- Elements at two places are at the same one if only one element has their property. -/
theorem index_unique {α : Type} {p : α → Bool} {l : List α} (h : l.countP p ≤ 1) {i j : Nat}
    {x y : α} (hx : l[i]? = some x) (hy : l[j]? = some y) (hpx : p x = true) (hpy : p y = true) :
    i = j := by
  induction l generalizing i j with
  | nil => cases hx
  | cons z l ih =>
    have hlater {k : Nat} {x : α} (hx : l[k]? = some x) (hpx : p x = true) : 0 < l.countP p :=
      List.countP_pos_iff.mpr ⟨x, List.mem_of_getElem? hx, hpx⟩
    rw [List.countP_cons] at h
    cases i with
    | zero =>
      obtain rfl : z = x := Option.some.inj hx
      cases j with
      | zero => rfl
      | succ j =>
        have := hlater hy hpy
        rw [if_pos hpx] at h
        omega
    | succ i =>
      cases j with
      | zero =>
        obtain rfl : z = y := Option.some.inj hy
        have := hlater hx hpx
        rw [if_pos hpy] at h
        omega
      | succ j => exact congrArg _ (ih (by omega) hx hy)

/-- The rule binds tighter than a token. -/
def prevails (r : Rule) (k : Kind) : Bool :=
  r.level != 0 &&
    match leveled.precedenceOf k with
    | some p => decide (p.level < r.level) || p.level == r.level && p.assoc == .left
    | none => false

/-- The goal of the whole input is on top. -/
def done : Trail → Bool
  | [] => false
  | x :: _ => x.1 == .phrase .goal

/-- The token goes on top if it can come next: it is valid, and no rule that ends there has a
level. -/
def shifts (w : Trail) (k : Kind) : Bool :=
  k != .invalid && !w.done && all.all fun r => !w.ends r || r.level == 0

/-- A rule that ends on top is the only one, and the next token leaves it no choice: it is valid and
cannot come there, or the rule binds tighter. -/
def completes (w : Trail) (k : Kind) : Bool :=
  k != .invalid && !w.done && w.sole && (!w.takes k || all.all fun r => !w.ends r || prevails r k)

theorem wins_of_prevails {k : Kind} (hr : ofProduction? i = some r) (h : prevails r k = true) :
    grammar.Wins i k := by
  rw [prevails, Bool.and_eq_true, bne_iff_ne] at h
  obtain ⟨hne, hlevel⟩ := h
  rw [← grammar_level.2 i r hr] at hne hlevel
  rw [← Grammar.precedenceOf_congr grammar_level.1] at hlevel
  split at hlevel
  · rename_i p hp
    refine ⟨hne, p, hp, ?_⟩
    simpa using hlevel
  · cases hlevel

variable {k : Kind} {q : Nat} {la : NatSet}

theorem Tells.ne_zero (h : w.Tells states) (hdone : w.done = false)
    (he : (i, la) ∈ grammar.reductionsAt (states.headD 0)) : i ≠ 0 := by
  rintro rfl
  have hw := grammar_numbered.built.wellFormed
  have hu := grammar_numbered.unreserved
  obtain ⟨_, xs, hpath, hden⟩ := h
  obtain ⟨n, hstart, hname⟩ := grammar_numbered.start
  have hcomplete := Grammar.complete_of_mem_reductionsAt hw hu he
  rw [hstart] at hcomplete
  obtain ⟨_, htake, _⟩ := Grammar.pop hw hu hpath hcomplete
  rw [hstart] at htake
  obtain ⟨xs, rfl⟩ : ∃ rest, xs = .nonterminal n :: rest := by
    cases xs with
    | nil => cases htake
    | cons x xs => exact ⟨xs, by simpa using htake⟩
  obtain ⟨e, w, rfl⟩ : ∃ e w', w = e :: w' := by
    cases w with
    | nil => cases hden
    | cons e w => exact ⟨e, w, rfl⟩
  have hgoal : e.1 = .phrase .goal := Numbered.sym_unique (List.forall₂_cons.mp hden).1 hname
  simp [done, hgoal] at hdone

/-- What is complete in the top state is a rule that ends on top. -/
theorem Tells.exists_ends (h : w.Tells states) (hi : i ≠ 0)
    (he : (i, la) ∈ grammar.reductionsAt (states.headD 0)) :
    ∃ r, ofProduction? i = some r ∧ w.ends r = true := by
  have hw := grammar_numbered.built.wellFormed
  have hcomplete := Grammar.complete_of_mem_reductionsAt hw grammar_numbered.unreserved he
  have hlt := Grammar.prod_lt_of_mem_closure hw grammar_numbered.unreserved hcomplete
  obtain ⟨r, hr, _, hrhs⟩ := exists_ofProduction hlt hi
  rw [hrhs.length_eq, List.length_map] at hcomplete
  exact ⟨r, hr, h.admits hr hcomplete⟩

/-- What can be shifted in the top state is a token that can come next. -/
theorem Tells.takes_of_step (h : w.Tells states)
    (hq : (.terminal k, q) ∈ grammar.stepsAt (states.headD 0)) : w.takes k = true := by
  have hw := grammar_numbered.built.wellFormed
  have hu := grammar_numbered.unreserved
  obtain ⟨⟨i, d⟩, hitem, hnext⟩ := Grammar.exists_item_of_step hw hu hq
  by_cases hi : i = 0
  · subst hi
    obtain ⟨n, hstart, _⟩ := grammar_numbered.start
    rw [Grammar.next_eq, hstart] at hnext
    cases d <;> cases hnext
  obtain ⟨r, hr, _⟩ := exists_ofProduction (Grammar.prod_lt_of_next hnext) hi
  obtain ⟨a, ha, hdenotes⟩ := exists_sym_of_next hr hnext
  cases a with
  | phrase p => cases hdenotes
  | token l =>
    obtain rfl : k = l := hdenotes
    refine List.any_eq_true.mpr ⟨r, (tells_of_production hr).1, ?_⟩
    refine List.any_eq_true.mpr ⟨d, List.mem_range.mpr (List.getElem?_eq_some_iff.mp ha).1, ?_⟩
    rw [h.admits hr hitem, ha]
    simp

variable {t : Grammar.Tables} (ht : grammar.tables = .ok t)

include ht

/-- A token that goes on top is shifted. -/
theorem Tells.action_of_shifts (h : w.Tells states) (hk : w.shifts k = true)
    (hq : (.terminal k, q) ∈ grammar.stepsAt (states.headD 0)) :
    t.action (states.headD 0) k = .shift q := by
  have hw := grammar_numbered.built.wellFormed
  have hu := grammar_numbered.unreserved
  simp only [shifts, Bool.and_eq_true, Bool.not_eq_true'] at hk
  refine Grammar.action_of_no_winner hw hu ht hq fun e he _ => ?_
  have hne := h.ne_zero hk.1.2 he
  obtain ⟨r, hr, hends⟩ := h.exists_ends hne he
  have hlevel : (grammar.production e.1).prec = 0 := by
    have hall := List.all_eq_true.mp hk.2 r (tells_of_production hr).1
    rw [grammar_level.2 e.1 r hr]
    simpa [hends] using hall
  exact ⟨hne, fun hwin => hwin.1 hlevel, fun hclash => hclash.1 hlevel⟩

/-- A rule that has no choice is reduced by. -/
theorem Tells.action_of_completes (h : w.Tells states)
    (hk : w.completes k = true) (he : (i, la) ∈ grammar.reductionsAt (states.headD 0))
    (hla : k.index ∈ la) : t.action (states.headD 0) k = .reduce i := by
  have hw := grammar_numbered.built.wellFormed
  have hu := grammar_numbered.unreserved
  simp only [completes, Bool.and_eq_true, Bool.not_eq_true'] at hk
  obtain ⟨⟨⟨_, hdone⟩, hsole⟩, hnext⟩ := hk
  obtain ⟨r, hr, hends⟩ := h.exists_ends (h.ne_zero hdone he) he
  refine Grammar.action_of_sole hw hu ht (h.ne_zero hdone he) he hla ?_ fun q' hq' => ?_
  · intro e' he'
    obtain ⟨r', hr', hends'⟩ := h.exists_ends (h.ne_zero hdone he') he'
    obtain ⟨j', hj', hget'⟩ := ofProduction_eq_some hr'
    obtain ⟨j, rfl, hget⟩ := ofProduction_eq_some hr
    rw [hj', index_unique (of_decide_eq_true hsole) hget' hget hends' hends]
  · rw [h.takes_of_step hq', Bool.not_true, Bool.false_or] at hnext
    have hall := List.all_eq_true.mp hnext r (tells_of_production hr).1
    exact wins_of_prevails hr (by simpa [hends] using hall)

end Choices

end Trail
end Rule
end ObjectPascal
