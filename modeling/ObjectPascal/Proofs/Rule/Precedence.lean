import ObjectPascal.Proofs.Grammar.Attachment
import ObjectPascal.Proofs.Grammar.Precedence
import ObjectPascal.Proofs.Rule.Numbering
import ObjectPascal.Proofs.Rule.Provenance

/-!
Precedence in the language. Rules take their level from the declared levels of tokens, and the
levels never change while rules are added. So the law for parse trees of any grammar tells how the
operators of the language group.
-/

namespace ObjectPascal

namespace Grammar

/-- The level of the last token with a declared level among the parts of a rule. -/
def levelOfParts (g : Grammar) (ps : List Part) : Nat :=
  ps.foldl (fun level p =>
    match p with
    | .token k => ((g.precedenceOf k).map (·.level)).getD level
    | .name _ => level) 0

section Levels

variable (g : Grammar)

theorem precedenceOf_congr {g g' : Grammar} (h : g.levels = g'.levels) (k : Kind) :
    g.precedenceOf k = g'.precedenceOf k := by
  rw [precedenceOf, precedenceOf, h]

/-- The level of a rule behind a symbol, for the level in front of it. -/
def levelBehind (g : Grammar) (level : Nat) : Symbol → Nat
  | .terminal k => ((g.precedenceOf k).map (·.level)).getD level
  | .nonterminal _ => level

/-- The same behind a part that is yet to be named. -/
def levelBehindPart (g : Grammar) (level : Nat) : Part → Nat
  | .token k => ((g.precedenceOf k).map (·.level)).getD level
  | .name _ => level

/-- Naming the parts of a rule does not change its level. -/
theorem levelOfRule_symbolsOf (ps : List Part) :
    (g.symbolsOf ps).1.levelOfRule (g.symbolsOf ps).2 = g.levelOfParts ps := by
  have hfold (g' : Grammar) (hl : g'.levels = g.levels) (ps : List Part) (level : Nat) :
      (g'.symbolsOf ps).2.foldl g.levelBehind level = ps.foldl g.levelBehindPart level := by
    induction ps generalizing g' level with
    | nil => rfl
    | cons p ps ih =>
      cases p with
      | token k => exact ih g' hl _
      | name s => exact ih _ ((g'.intern_levels s).trans hl) _
  have hprec (k : Kind) : (g.symbolsOf ps).1.precedenceOf k = g.precedenceOf k :=
    precedenceOf_congr (g.symbolsOf_levels ps) k
  unfold levelOfRule levelOfParts
  simp only [hprec]
  exact hfold g rfl ps 0

/-- A rule is on the level of its given token, else of its last token with a level, and changes no
level. -/
theorem rule_level (lhs : String) (rhs : List Part) (prec : Option Kind) :
    (g.rule lhs rhs prec).levels = g.levels ∧
      (g.rule lhs rhs prec).productions.size = g.productions.size + 1 ∧
      (∀ i < g.productions.size, (g.rule lhs rhs prec).production i = g.production i) ∧
      ((g.rule lhs rhs prec).production g.productions.size).prec =
        match prec with
        | some k => g.levelOf k
        | none => g.levelOfParts rhs := by
  have hlevels : ((g.intern lhs).1.symbolsOf rhs).1.levels = g.levels :=
    ((g.intern lhs).1.symbolsOf_levels rhs).trans (g.intern_levels lhs)
  have hprods : ((g.intern lhs).1.symbolsOf rhs).1.productions = g.productions :=
    ((g.intern lhs).1.symbolsOf_spec rhs).1.trans (g.intern_productions lhs)
  have hpush : ∃ p : Production, (g.rule lhs rhs prec).productions = g.productions.push p ∧
      p.prec = match prec with
        | some k => g.levelOf k
        | none => g.levelOfParts rhs := by
    refine ⟨_, by simp only [rule, hprods]; rfl, ?_⟩
    cases prec with
    | some k => simp only [levelOf, precedenceOf_congr hlevels]
    | none =>
      have hparts : (g.intern lhs).1.levelOfParts rhs = g.levelOfParts rhs := by
        unfold levelOfParts
        simp only [precedenceOf_congr (g.intern_levels lhs)]
      exact ((g.intern lhs).1.levelOfRule_symbolsOf rhs).trans hparts
  obtain ⟨p, hp, hprec⟩ := hpush
  obtain ⟨hold, hnew⟩ := production_push hp
  refine ⟨hlevels, by rw [hp, Array.size_push], hold, ?_⟩
  rw [hnew, hprec]

end Levels

end Grammar

namespace Rule

open Grammar

/-- The level of a rule. -/
def level (r : Rule) : Nat :=
  match r.prec with
  | some k => leveled.levelOf k
  | none => leveled.levelOfParts (r.rhs.map Sym.part)

/-- A sign has a level. -/
example : (leveled.precedenceOf .plus).isSome = true := by decide +kernel

theorem foldl_level (rs : List Rule) {g : Grammar} (hg : g.levels = leveled.levels) :
    let h := rs.foldl (fun g r => g.rule r.lhs.name (r.rhs.map Sym.part) r.prec) g
    h.levels = leveled.levels ∧ (∀ i < g.productions.size, h.production i = g.production i) ∧
      ∀ i r, rs[i]? = some r → (h.production (g.productions.size + i)).prec = r.level := by
  induction rs generalizing g with
  | nil => exact ⟨hg, fun _ _ => rfl, by simp⟩
  | cons r rs ih =>
    obtain ⟨hlevels, hsize, hold, hnew⟩ :=
      g.rule_level r.lhs.name (r.rhs.map Sym.part) r.prec
    obtain ⟨hl, hkept, hrest⟩ := ih (hlevels.trans hg)
    refine ⟨hl, fun i hi => (hkept i (by omega)).trans (hold i hi), fun i r' hr' => ?_⟩
    cases i with
    | zero =>
      obtain rfl : r = r' := by simpa using hr'
      rw [List.foldl_cons, Nat.add_zero, hkept _ (by omega), hnew, level]
      cases r.prec with
      | some k => simp only [levelOf, precedenceOf_congr hg]
      | none => simp only [levelOfParts, precedenceOf_congr hg]
    | succ i =>
      have hnext := hrest i r' (by simpa using hr')
      rwa [hsize, Nat.add_right_comm, Nat.add_assoc] at hnext

/-- The levels of the language are the declared ones, and each production is on the level of its
rule. -/
theorem grammar_level : grammar.levels = leveled.levels ∧
    ∀ i r, ofProduction? i = some r → (grammar.production i).prec = r.level := by
  have hstart : (leveled.start Phrase.goal.name).levels = leveled.levels :=
    leveled.intern_levels _
  have hsize : (leveled.start Phrase.goal.name).productions.size = 1 := by cbv
  obtain ⟨hl, _, hrules⟩ := foldl_level all hstart
  refine ⟨hl, fun i r hr => ?_⟩
  cases i with
  | zero => cases hr
  | succ i =>
    have hget : all[i]? = some r := by simpa [ofProduction?, table] using hr
    have hprec := hrules i r hget
    rwa [hsize, Nat.add_comm] at hprec

/-- One symbol of the grammar stands for a part of a rule. -/
theorem symbol_unique {x y : Symbol} {a : Part} (hx : grammar.Denotes x a)
    (hy : grammar.Denotes y a) : x = y := by
  cases a with
  | token k =>
    cases x with
    | terminal l =>
      cases y with
      | terminal m => exact congrArg _ (hx.trans hy.symm)
      | nonterminal n => cases hy
    | nonterminal n => cases hx
  | name s =>
    cases x with
    | terminal l => cases hx
    | nonterminal m =>
      cases y with
      | terminal l => cases hy
      | nonterminal n => exact congrArg _ (grammar_numbered.number_inj hx hy)

/-- The operators with two operands, by their levels from the loosest to the tightest. -/
def tiers : List (List Kind) := [
  [.OR, .XOR],
  [.AND],
  [.equal, .notEqual, .less, .lessEqual, .greater, .greaterEqual, .IN, .IS],
  [.plus, .minus],
  [.star, .slash, .DIV, .MOD, .SHL, .SHR, .AS]]

/-- The operators with one operand, which stands behind them. -/
def signs : List Kind := [.NOT, .atSign, .minus, .plus]

/-- Production `i` is an operation with the operator `k` between two operands. -/
def IsBinary (i : Nat) (k : Kind) : Prop :=
  ∃ r, ofProduction? i = some r ∧ r.lhs = .expr ∧
    r.rhs = [.phrase .expr, .token k, .phrase .expr]

/-- Production `i` is an operation with the operator `k` before its operand. -/
def IsUnary (i : Nat) (k : Kind) : Prop :=
  ∃ r, ofProduction? i = some r ∧ r.lhs = .expr ∧ r.rhs = [.token k, .phrase .expr]

/-- The operators of a tier are on the same level, which is two above the number of the tier. -/
theorem precedenceOf_tier {m : Nat} {k : Kind} (h : k ∈ tiers.getD m []) :
    m < 5 ∧ grammar.precedenceOf k = some ⟨m + 2, .left⟩ := by
  have hall : ∀ m < 5, ∀ k ∈ tiers.getD m [], leveled.precedenceOf k = some ⟨m + 2, .left⟩ := by
    decide
  have hm : m < 5 := by
    by_contra hm
    have hnone : tiers[m]? = none := List.getElem?_eq_none (Nat.not_lt.mp hm)
    rw [List.getD_eq_getElem?_getD, hnone] at h
    cases h
  rw [precedenceOf_congr grammar_level.1]
  exact ⟨hm, hall m hm k h⟩

/-- Whether an operation is on the level of its operator. -/
def onLevel (r : Rule) : Bool :=
  match r.rhs with
  | [.phrase .expr, .token k, .phrase .expr] =>
    (List.range 5).any fun m => (tiers.getD m []).contains k && r.level == m + 2
  | [.token k, .phrase .expr] => signs.contains k && r.level == 7
  | _ => true

set_option maxRecDepth 20000 in
/-- A binary operation is on the level of its operator, an operation with one operand above all of
them. -/
theorem level_of_operation : ∀ r ∈ all, r.lhs = .expr →
    (∀ k, r.rhs = [.phrase .expr, .token k, .phrase .expr] →
      ∃ m, k ∈ tiers.getD m [] ∧ r.level = m + 2) ∧
    ∀ k, r.rhs = [.token k, .phrase .expr] → k ∈ signs ∧ r.level = 7 := by
  have hall : (all.all fun r => r.lhs != .expr || r.onLevel) = true := by
    decide
  intro r hr hlhs
  have h := List.all_eq_true.mp hall r hr
  rw [hlhs] at h
  refine ⟨fun k hrhs => ?_, fun k hrhs => ?_⟩
  · simp only [onLevel, hrhs, bne_self_eq_false, Bool.false_or] at h
    obtain ⟨m, _, hm⟩ := List.any_eq_true.mp h
    simp only [Bool.and_eq_true, List.contains_eq_mem, decide_eq_true_eq, beq_iff_eq] at hm
    exact ⟨m, hm⟩
  · simpa [onLevel, hrhs] using h

/-- Every operator has an operation. -/
theorem exists_operation :
    (∀ m, ∀ k ∈ tiers.getD m [], ∃ i, IsBinary i k) ∧ ∀ k ∈ signs, ∃ i, IsUnary i k := by
  have hbinary : ∀ m < 5, ∀ k ∈ tiers.getD m [], ∃ r ∈ operations, r.lhs = .expr ∧
      r.rhs = [.phrase .expr, .token k, .phrase .expr] := by
    decide
  have hunary : ∀ k ∈ signs, ∃ r ∈ operations, r.lhs = .expr ∧
      r.rhs = [.token k, .phrase .expr] := by
    decide
  have hnumber {r : Rule} (hr : r ∈ operations) : ∃ i, ofProduction? i = some r :=
    exists_production (by simp [all, expressions, hr])
  refine ⟨fun m k hk => ?_, fun k hk => ?_⟩
  · obtain ⟨r, hr, hlhs, hrhs⟩ := hbinary m (precedenceOf_tier hk).1 k hk
    obtain ⟨i, hi⟩ := hnumber hr
    exact ⟨i, r, hi, hlhs, hrhs⟩
  · obtain ⟨r, hr, hlhs, hrhs⟩ := hunary k hk
    obtain ⟨i, hi⟩ := hnumber hr
    exact ⟨i, r, hi, hlhs, hrhs⟩

/-- Two productions of expressions, of which the first ends with one and the second begins with one
and a token, meet. -/
theorem meeting_of_rules {i j : Nat} {r r' : Rule} (hi : ofProduction? i = some r)
    (hj : ofProduction? j = some r') (hlhs : r.lhs = .expr) (hlhs' : r'.lhs = .expr)
    (front : List Sym) {back : List Sym} {k : Kind} (hr : r.rhs = front ++ [.phrase .expr])
    (hr' : r'.rhs = .phrase .expr :: .token k :: back) : grammar.Meeting i j k := by
  obtain ⟨_, hname, hrhs⟩ := tells_of_production hi
  obtain ⟨_, hname', hrhs'⟩ := tells_of_production hj
  rw [hlhs] at hname
  rw [hlhs'] at hname'
  -- Only one number stands for expressions.
  have hexpr {x : Symbol} (hx : grammar.Denotes x (Sym.part (.phrase .expr))) :
      x = .nonterminal (grammar.production i).lhs := by
    cases x with
    | terminal l => cases hx
    | nonterminal n => exact congrArg _ (grammar_numbered.number_inj hx hname)
  have heq : (grammar.production j).lhs = (grammar.production i).lhs :=
    grammar_numbered.number_inj hname' hname
  refine ⟨heq, ?_, ?_⟩
  · rw [hr, List.map_append] at hrhs
    have hlast := List.forall₂_drop_append _ _ _ hrhs
    obtain ⟨x, xs, hx, hnil, hdrop⟩ := List.forall₂_cons_right_iff.mp hlast
    obtain rfl := List.forall₂_nil_right_iff.mp hnil
    refine ⟨(grammar.production i).rhs.take (front.map Sym.part).length, ?_⟩
    rw [← hexpr hx, ← hdrop, List.take_append_drop]
  · rw [hr'] at hrhs'
    obtain ⟨x, xs, hx, hxs, hcons⟩ := List.forall₂_cons_right_iff.mp hrhs'
    obtain ⟨y, ys, hy, _, rfl⟩ := List.forall₂_cons_right_iff.mp hxs
    refine ⟨ys, ?_⟩
    have hterminal : y = .terminal k := by
      cases y with
      | terminal l => exact congrArg _ hy
      | nonterminal n => cases hy
    rw [hcons, hexpr hx, heq, hterminal]

/-- Operators group by their levels in every parse tree. In any grammar whose rules do not use the
goal, whatever its conflicts: let production `p` end with its own nonterminal and `q` begin with it
and a token. If `p` is on a higher level than the token, or on the same and the token associates to
the left, a node of `q` is never the last child of a node of `p`; if it is on a lower level, or on
the same and the token associates to the right, a node of `p` is never the first child of a node of
`q`. In the language the right operand of an operation is therefore none on the same or a looser
tier, its left operand none on a looser tier, and the operand of a sign, `not` or `@` no operation
with two operands. -/
theorem operators_group_by_level :
    (∀ (g : Grammar) (t : Tables), g.Built → g.Unreserved → g.tables = .ok t →
      ∀ (V G M : Type) (s : Semantics V G M) (supply : Supply) (memory : M) (ms : List Move)
        (c : Configuration V G M), Run t s { supply, memory } ms c → c.Accepting t →
      ∃ tree, g.built ms = [tree] ∧ List.Forall₂ s.Computes [tree] c.values ∧
        ∀ (p q : Nat) (k : Kind) (prec : Precedence), g.Meeting p q k →
          (g.production p).prec ≠ 0 → g.precedenceOf k = some prec → prec.assoc ≠ .nonassoc →
          ((prec.level < (g.production p).prec ∨
              ((g.production p).prec = prec.level ∧ prec.assoc = .left)) →
            ∀ before children, ¬ (Grammar.Tree.node p (before ++ [.node q children])).Within tree) ∧
          (((g.production p).prec < prec.level ∨
              ((g.production p).prec = prec.level ∧ prec.assoc = .right)) →
            ∀ children after, ¬ (Grammar.Tree.node q (.node p children :: after)).Within tree)) ∧
    ∀ (t : Tables), languageTables = .ok t →
      ∀ (V G M : Type) (s : Semantics V G M) (supply : Supply) (memory : M) (ms : List Move)
        (c : Configuration V G M), Run t s { supply, memory } ms c → c.Accepting t →
      ∃ tree, grammar.built ms = [tree] ∧ List.Forall₂ s.Computes [tree] c.values ∧
        (∀ k, (∃ i, IsBinary i k) ↔ ∃ m, k ∈ tiers.getD m []) ∧
        (∀ k, (∃ i, IsUnary i k) ↔ k ∈ signs) ∧
        (∀ i j m n k l, IsBinary i k → IsBinary j l → k ∈ tiers.getD m [] → l ∈ tiers.getD n [] →
          (n ≤ m → ∀ before children,
            ¬ (Grammar.Tree.node i (before ++ [.node j children])).Within tree) ∧
          (m < n → ∀ children after,
            ¬ (Grammar.Tree.node j (.node i children :: after)).Within tree)) ∧
        ∀ i j k l, IsUnary i k → IsBinary j l → ∀ before children,
          ¬ (Grammar.Tree.node i (before ++ [.node j children])).Within tree := by
  refine ⟨fun g t hb hr ht V G M s supply memory ms c hrun hacc =>
    hrun.grouped hb.wellFormed hr ht hacc, ?_⟩
  intro t hlang V G M s supply memory ms c hrun hacc
  have ht : grammar.tables = .ok t := by rwa [languageTables] at hlang
  obtain ⟨tree, hbuilt, hvalues, hgrouped⟩ :=
    hrun.grouped grammar_numbered.built.wellFormed grammar_numbered.unreserved ht hacc
  refine ⟨tree, hbuilt, hvalues, fun k => ⟨?_, ?_⟩, fun k => ⟨?_, exists_operation.2 k⟩, ?_, ?_⟩
  · rintro ⟨i, r, hi, hlhs, hrhs⟩
    obtain ⟨m, hm, _⟩ := (level_of_operation r (tells_of_production hi).1 hlhs).1 k hrhs
    exact ⟨m, hm⟩
  · rintro ⟨m, hm⟩
    exact exists_operation.1 m k hm
  · rintro ⟨i, r, hi, hlhs, hrhs⟩
    exact ((level_of_operation r (tells_of_production hi).1 hlhs).2 k hrhs).1
  · rintro i j m n k l ⟨r, hi, hlhs, hrhs⟩ ⟨r', hj, hlhs', hrhs'⟩ hk hl
    obtain ⟨m', hm', hlevel⟩ := (level_of_operation r (tells_of_production hi).1 hlhs).1 k hrhs
    obtain ⟨_, hprec⟩ := precedenceOf_tier hl
    -- A token is on one tier only.
    obtain rfl : m = m' := by
      have hsame := (precedenceOf_tier hk).2.symm.trans (precedenceOf_tier hm').2
      have hlevels := congrArg Precedence.level (Option.some.inj hsame)
      exact Nat.add_right_cancel hlevels
    have hmeeting := meeting_of_rules hi hj hlhs hlhs'
      [.phrase .expr, .token k] hrhs hrhs'
    have hprod := (grammar_level.2 i r hi).trans hlevel
    have hboth := hgrouped i j l _ hmeeting (by omega) hprec (by simp)
    rw [hprod] at hboth
    refine ⟨fun hle => hboth.1 ?_, fun hlt => hboth.2 (Or.inl (by simpa using hlt))⟩
    rcases Nat.lt_or_eq_of_le hle with hlt | rfl
    · exact Or.inl (by simpa using hlt)
    · exact Or.inr ⟨rfl, rfl⟩
  · rintro i j k l ⟨r, hi, hlhs, hrhs⟩ ⟨r', hj, hlhs', hrhs'⟩
    obtain ⟨_, hlevel⟩ := (level_of_operation r (tells_of_production hi).1 hlhs).2 k hrhs
    obtain ⟨n, hn, _⟩ := (level_of_operation r' (tells_of_production hj).1 hlhs').1 l hrhs'
    obtain ⟨hlt, hprec⟩ := precedenceOf_tier hn
    have hmeeting := meeting_of_rules hi hj hlhs hlhs' [.token k] hrhs hrhs'
    have hprod := (grammar_level.2 i r hi).trans hlevel
    exact (hgrouped i j l _ hmeeting (by omega) hprec (by simp)).1
      (Or.inl (by rw [hprod]; simp only; omega))

/-- In the grammar of terms a product does not end with a sum. -/
theorem operators_group_by_level_terms : ∃ t tree, ∃ c : Configuration Unit Unit Unit,
    terms.tables = .ok t ∧ c.Accepting t ∧ terms.Meeting 3 2 .plus ∧
    (∃ ms, Run t silent { supply := termsInput, memory := () } ms c ∧ terms.built ms = [tree]) ∧
    ∀ before children, ¬ (Grammar.Tree.node 3 (before ++ [.node 2 children])).Within tree := by
  obtain ⟨t, ms, c, ht, hrun, hacc⟩ := terms_accepts
  obtain ⟨tree, hbuilt, _, hgrouped⟩ := operators_group_by_level.1 terms t terms_built
    terms_unreserved ht Unit Unit Unit silent termsInput () ms c hrun hacc
  have hmeeting : terms.Meeting 3 2 .plus := by
    rw [terms_eq]
    exact ⟨rfl, ⟨[.nonterminal 1, .terminal .star], rfl⟩, ⟨[.nonterminal 1], rfl⟩⟩
  refine ⟨t, tree, c, ht, hacc, hmeeting, ⟨ms, hrun, hbuilt⟩, ?_⟩
  have hprec : terms.precedenceOf .plus = some ⟨1, .left⟩ := by
    rw [terms_eq]
    decide
  have hlevel : (terms.production 3).prec = 2 := by
    rw [terms_eq]
    decide
  exact (hgrouped 3 2 .plus _ hmeeting (by omega) hprec (by simp)).1 (Or.inl (by rw [hlevel]; simp))

end Rule

end ObjectPascal

/-!
An else part belongs to the nearest if that has none. The rule for an if statement without an else
part gives way to the word `else`, with which the other rule goes on, so it is never reduced where
that is the next token. And no other rule builds such a statement.
-/

namespace ObjectPascal.Rule

open Grammar (Tables Move Run Configuration Part shifted)

section Rules

/-- A rule that begins as another one has a production that begins as that of the other. -/
theorem prefix_of_denotes {xs ys : List Symbol} {as bs : List Part}
    (hx : List.Forall₂ grammar.Denotes xs as) (hy : List.Forall₂ grammar.Denotes ys (as ++ bs)) :
    xs <+: ys := by
  induction hx generalizing ys with
  | nil => exact List.nil_prefix
  | cons hx _ ih =>
    obtain ⟨y, ys, hone, hys, rfl⟩ := List.forall₂_cons_right_iff.mp hy
    rw [symbol_unique hx hone]
    exact List.cons_prefix_cons.mpr ⟨rfl, ih hys⟩

theorem precedenceOf_else : grammar.precedenceOf .ELSE = some ⟨1, .right⟩ := by
  rw [Grammar.precedenceOf_congr grammar_level.1]
  decide

set_option maxRecDepth 20000 in
/-- An if statement without an else part is on the level of the word before its statement. -/
theorem level_of_bareIf : ∀ r ∈ all, r.rhs = bareIf → r.level = 1 := by
  have hall : (all.all fun r => r.rhs != bareIf || r.level == 1) = true := by
    decide
  intro r hr hrhs
  simpa [hrhs] using List.all_eq_true.mp hall r hr

variable {i : Nat}

/-- The rule with an else part goes on with the word `else`. -/
theorem bareIf_continues (h : IsRule i .stmt bareIf) : ∃ j, grammar.Continues i j .ELSE := by
  obtain ⟨r, hi, hlhs, hrhs⟩ := h
  obtain ⟨r', hr', hlhs', hrhs'⟩ : ∃ r' ∈ all, r'.lhs = .stmt ∧
      r'.rhs = bareIf ++ [.token .ELSE] ++ [.phrase .stmt] := by
    have hmem : choices ⊆ all := fun r hr => by simp [all, statements, hr]
    exact ⟨_, hmem (List.mem_of_getElem? (i := 1) rfl), rfl, rfl⟩
  obtain ⟨j, hj⟩ := exists_production hr'
  obtain ⟨_, hname, hparts⟩ := tells_of_production hi
  obtain ⟨_, hname', hparts'⟩ := tells_of_production hj
  rw [hlhs] at hname
  rw [hlhs'] at hname'
  rw [hrhs] at hparts
  rw [hrhs', List.map_append, List.map_append] at hparts'
  refine ⟨j, grammar_numbered.number_inj hname' hname, prefix_of_denotes ?_ hparts'⟩
  exact List.rel_append hparts (.cons rfl .nil)

theorem bareIf_givesWay (h : IsRule i .stmt bareIf) : grammar.GivesWay i .ELSE := by
  obtain ⟨r, hi, _, hrhs⟩ := h
  have hlevel : (grammar.production i).prec = 1 :=
    (grammar_level.2 i r hi).trans (level_of_bareIf r (ofProduction_mem hi) hrhs)
  exact .inr (.inr ⟨_, precedenceOf_else, .inr ⟨hlevel, rfl⟩⟩)

/-- An if statement without an else part is not completed in front of one. -/
theorem token_ne_else {V G M : Type} {t : Tables} {s : Grammar.Semantics V G M} {supply : Supply}
    {memory : M} {ms : List Move} {c : Configuration V G M} (ht : grammar.tables = .ok t)
    (hrun : Run t s { supply, memory } ms c) (hi : IsRule i .stmt bareIf)
    (hmove : c.move? t = some (.reduce i)) : c.token.kind ≠ .ELSE := by
  intro hkind
  obtain ⟨j, hcontinues⟩ := bareIf_continues hi
  have hassoc : ¬ grammar.Nonassociative .ELSE :=
    Grammar.not_nonassociative precedenceOf_else (by decide)
  rw [← hkind] at hcontinues hassoc
  exact hcontinues.move_ne grammar_numbered.built.wellFormed grammar_numbered.unreserved ht hrun
    hassoc (hkind ▸ bareIf_givesWay hi) hmove

end Rules

section Next

variable {config : Config} {source : Text} {origin : Nat} {goal : Goal} {t : Tables}
  {ms before : List Move} {pos : Nat → Nat} {id i : Nat} {d : Configuration Value Goal Nat}

/-- Behind everything that is no whole source there is another token, and it is the next one that the
parse looks at. -/
theorem Placed.exists_next (h : Placed config source origin goal t ms pos)
    (hn : Numbers t (semantics config origin) { supply := .ofText source, memory := 0 } ms id
      before i d)
    (hi : ∀ r, ofProduction? i = some r → r.lhs ≠ .goal ∧ r.lhs.whole = false) :
    (((Supply.ofText source).ahead.map (·.1)).takeWhile (·.kind != .eof))[(shifted before).length]? =
      some d.token := by
  have hw := grammar_numbered.built.wellFormed
  have hr := grammar_numbered.unreserved
  obtain ⟨c, hrun, hacc, _⟩ := h.run
  obtain ⟨tree, k, j, forest, dot, hends, hmoves⟩ := ends_of_accepting h.tables hrun hacc
  have hms : ms = forest.flatMap Grammar.Tree.moves ++ [.shift dot] ++ [.reduce j] ++
      [.reduce k] := by
    rw [← hmoves, hends.eq]
    simp
  -- The last two reductions are those of the whole source, so the full stop is shifted later.
  have hpart := hn.part
  rw [hms, List.prefix_concat_iff, List.prefix_concat_iff, List.prefix_concat_iff] at hpart
  obtain ⟨rest, hrest⟩ : before ++ [.reduce i] <+: forest.flatMap Grammar.Tree.moves := by
    rcases hpart with heq | heq | heq | hpart
    · obtain ⟨r, hk, hlhs⟩ := hends.goal
      have hik := (List.append_inj' heq rfl).2
      cases hik
      exact absurd hlhs (hi r hk).1
    · obtain ⟨r, hj, hwhole⟩ := hends.whole
      have hij := (List.append_inj' heq rfl).2
      cases hij
      rw [(hi r hj).2] at hwhole
      cases hwhole
    · cases (List.append_inj' heq rfl).2
    · exact hpart
  rw [← hrest] at hms
  simp only [List.append_assoc] at hms
  obtain ⟨d', hbefore, hbehind⟩ := (hms ▸ hrun).part
  obtain rfl := hbefore.unique hn.run
  have hcoming := hbehind.shifted_prefix hw hr h.tables grammar_endFree
  have hne : d'.coming ≠ [] := by
    intro hnil
    rw [hnil, List.prefix_nil, Grammar.shifted_append, Grammar.shifted_append,
      Grammar.shifted_append, Grammar.shifted_shift] at hcoming
    simp at hcoming
  rcases Configuration.coming_cases (c := d') with ⟨_, hnil⟩ | ⟨_, ts, hts⟩
  · exact absurd hnil hne
  · obtain ⟨back, hback⟩ := hn.run.shifted_prefix hw hr h.tables grammar_endFree
    rw [hts] at hback
    change _ = ((Supply.ofText source).ahead.map (·.1)).takeWhile (·.kind != .eof) at hback
    rw [← hback]
    simp

end Next

/-- An else part belongs to the nearest if. In any grammar whose rules do not use the goal, whatever
its conflicts: where another production for the same nonterminal goes on with a token behind all of
production `i`, and `i` gives way to the token, no run reduces by `i` in front of that token, be it
by its table or by default. In the language every source is rejected, or it is accepted with a tree
in which each if statement without an else part is built by the rule for those, and the token of the
source behind what the statement covers is not the word `else`. -/
theorem else_belongs_to_nearest_if :
    (∀ (g : Grammar) (t : Tables), g.Built → g.Unreserved → g.tables = .ok t →
      ∀ (V G M : Type) (s : Grammar.Semantics V G M) (supply : Supply) (memory : M)
        (ms : List Move) (c : Configuration V G M), Run t s { supply, memory } ms c →
      ∀ i j, g.Continues i j c.token.kind → ¬ g.Nonassociative c.token.kind →
        g.GivesWay i c.token.kind → c.move? t ≠ some (.reduce i)) ∧
    ∀ (config : Config) (source : Text) (origin : Nat),
      (∃ place message,
        (parse config source origin).result = .error (.rejection place message)) ∨
      ∃ goal t ms c, (parse config source origin).result = .ok goal ∧ grammar.tables = .ok t ∧
        Run t (semantics config origin) { supply := .ofText source, memory := 0 } ms c ∧
        c.goal = some goal ∧ ∀ x ∈ goal.nodes, x.bare = true →
          (∃ before i d, Numbers t (semantics config origin)
            { supply := .ofText source, memory := 0 } ms x.info.id before i d) ∧
          ∀ before i d, Numbers t (semantics config origin)
              { supply := .ofText source, memory := 0 } ms x.info.id before i d →
            IsRule i .stmt bareIf ∧
            ∃ u, (((Supply.ofText source).ahead.map (·.1)).takeWhile
              (·.kind != .eof))[(shifted before).length]? = some u ∧ u.kind ≠ .ELSE := by
  refine ⟨fun g t hb hr ht V G M s supply memory ms c hrun i j hcontinues hassoc hgives =>
    hcontinues.move_ne hb.wellFormed hr ht hrun hassoc hgives, fun config source origin => ?_⟩
  refine (rejected_or_placed config source origin).imp_right ?_
  rintro ⟨goal, t, ms, pos, hresult, hplaced⟩
  obtain ⟨c, hrun, _, hgoal⟩ := hplaced.run
  refine ⟨goal, t, ms, c, hresult, hplaced.tables, hrun, hgoal, fun x hx hbare => ?_⟩
  obtain ⟨before, i, d, horigin⟩ := hplaced.recorded x hx
  refine ⟨⟨before, i, d, horigin.numbers⟩, fun before' j d' hnumbers => ?_⟩
  obtain ⟨rfl, rfl, rfl⟩ := horigin.numbers.unique hplaced.tables hnumbers
  have hrule := horigin.bare hbare
  refine ⟨hrule, d.token, hplaced.exists_next hnumbers fun r hr => ?_,
    token_ne_else hplaced.tables hnumbers.run hrule hnumbers.move⟩
  obtain ⟨r', hr', hlhs, _⟩ := hrule
  obtain rfl := Option.some.inj (hr.symm.trans hr')
  rw [hlhs]
  exact ⟨nofun, rfl⟩

/-- In the grammar of conditionals the first rule is not reduced in front of an else part. -/
theorem else_belongs_to_nearest_if_conditionals :
    ∃ t ms, ∃ c : Configuration Unit Unit Unit, Grammar.conditionals.tables = .ok t ∧
      Run t Grammar.silent { supply := Grammar.conditionalsInput, memory := () } ms c ∧
      c.states = [4, 1, 0] ∧ Grammar.conditionals.Continues 1 2 c.token.kind ∧
      ¬ Grammar.conditionals.Nonassociative c.token.kind ∧
      Grammar.conditionals.GivesWay 1 c.token.kind ∧ c.move? t ≠ some (.reduce 1) := by
  obtain ⟨t, ms, c, ht, hrun, hstates, hkind⟩ := Grammar.conditionals_meet_else
  have hcontinues : Grammar.conditionals.Continues 1 2 .ELSE := by
    rw [Grammar.conditionals_eq]
    exact ⟨rfl, [.nonterminal 1], rfl⟩
  have hlevel : Grammar.conditionals.precedenceOf .ELSE = some ⟨1, .right⟩ := by
    rw [Grammar.conditionals_eq]
    decide
  have hassoc : ¬ Grammar.conditionals.Nonassociative .ELSE :=
    Grammar.not_nonassociative hlevel (by decide)
  have hgives : Grammar.conditionals.GivesWay 1 .ELSE := by
    refine .inr (.inr ⟨_, hlevel, .inr ⟨?_, rfl⟩⟩)
    rw [Grammar.conditionals_eq]
    rfl
  rw [← hkind] at hcontinues hassoc hgives
  exact ⟨t, ms, c, ht, hrun, hstates, hcontinues, hassoc, hgives,
    else_belongs_to_nearest_if.1 _ t Grammar.conditionals_built Grammar.conditionals_unreserved ht
      _ _ _ _ _ _ ms c hrun 1 2 hcontinues hassoc hgives⟩

end ObjectPascal.Rule
