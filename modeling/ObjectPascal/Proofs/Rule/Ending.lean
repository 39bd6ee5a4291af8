import ObjectPascal.Proofs.Grammar.Reading
import ObjectPascal.Proofs.Rule.Termination
import ObjectPascal.Proofs.Token.Source

/-!
The end of a source. A source is accepted with a full stop behind the end of its last block. The
rules that end with this full stop, and those for the goal, end as no others do, so they are reduced
without a look at the next token; and the goal, once it is known, stops the reading. What stands
behind the full stop is therefore never read.
-/

namespace ObjectPascal.Rule

open Grammar

/-- The phrases for whole sources. -/
def Phrase.whole : Phrase → Bool
  | .program | .unit | .library | .package => true
  | _ => false

/-- The phrases that end with the end of a block. -/
def Phrase.closing : Phrase → Bool
  | .block | .blockBody | .compoundStmt | .unitEnd => true
  | _ => false

/-- The symbols that end with the end of a block. -/
def Sym.closing : Sym → Bool
  | .token k => k == .END || k == .asm
  | .phrase p => p.closing

/-- One of two lists of symbols is the end of the other. -/
def overlap (as bs : List Sym) : Bool := as.isSuffixOf bs || bs.isSuffixOf as

section Forms

/-- What is to be checked of a rule, from the end of its right side. -/
def endsRightly (r : Rule) : Bool :=
  (r.lhs != .goal || match r.rhs with
    | [.phrase p] => p.whole
    | _ => false) &&
  (!r.lhs.whole || match r.rhs.reverse with
    | .token .dot :: a :: _ => a.closing
    | _ => false) &&
  (!r.lhs.closing || match r.rhs.reverse with
    | a :: _ => a.closing
    | _ => false) &&
  !r.rhs.contains (.phrase .goal)

set_option maxRecDepth 20000 in
/-- The goal is a whole source, no rule uses it, a whole source ends with a full stop behind the end
of a block, and the end of a block with `end` or with assembler code. -/
theorem all_end : ∀ r ∈ all,
    (r.lhs = .goal → ∃ p, r.rhs = [.phrase p] ∧ p.whole = true) ∧
    (r.lhs.whole = true → ∃ front a, r.rhs = front ++ [a, .token .dot] ∧ a.closing = true) ∧
    (r.lhs.closing = true → ∃ front a, r.rhs = front ++ [a] ∧ a.closing = true) ∧
    .phrase .goal ∉ r.rhs := by
  have hall : all.all endsRightly = true := by decide
  intro r hr
  have h := List.all_eq_true.mp hall r hr
  simp only [endsRightly, Bool.and_eq_true, Bool.or_eq_true, Bool.not_eq_true', bne_iff_ne,
    List.contains_eq_mem, decide_eq_false_iff_not] at h
  obtain ⟨⟨⟨hgoal, hwhole⟩, hclosing⟩, hnot⟩ := h
  refine ⟨fun hl => ?_, fun hl => ?_, fun hl => ?_, hnot⟩
  · have hform := hgoal.resolve_left fun hne => hne hl
    split at hform
    · rename_i p hrhs
      exact ⟨p, hrhs, hform⟩
    · cases hform
  · have hform := hwhole.resolve_left (by simp [hl])
    split at hform
    · rename_i a front hrhs
      exact ⟨front.reverse, a, by simpa using congrArg List.reverse hrhs, hform⟩
    · cases hform
  · have hform := hclosing.resolve_left (by simp [hl])
    split at hform
    · rename_i a front hrhs
      exact ⟨front.reverse, a, by simpa using congrArg List.reverse hrhs, hform⟩
    · cases hform

/-- A statement is no whole source. -/
example : Phrase.whole .stmt = false := by decide +kernel

set_option maxRecDepth 20000 in
/-- No part of a rule ends as the rules for the goal and for whole sources do. -/
theorem all_apart {i j : Nat} {r r' : Rule} (hi : ofProduction? i = some r)
    (hj : ofProduction? j = some r') (hr : r.lhs = .goal ∨ r.lhs.whole = true) {d : Nat}
    (hd : d < r'.rhs.length)
    (h : r'.rhs.take (d + 1) <:+ r.rhs ∨ r.rhs <:+ r'.rhs.take (d + 1)) :
    j = i ∧ d + 1 = r.rhs.length := by
  have hall : ((all.zipIdx.filter fun (r, _) => r.lhs == .goal || r.lhs.whole).all fun (r, i) =>
      all.zipIdx.all fun (r', j) => (List.range r'.rhs.length).all fun d =>
        !overlap (r'.rhs.take (d + 1)) r.rhs || (j == i && d + 1 == r.rhs.length)) = true := by
    decide +kernel
  obtain ⟨i, rfl, hget⟩ := ofProduction_eq_some hi
  obtain ⟨j, rfl, hget'⟩ := ofProduction_eq_some hj
  have hmem : (r, i) ∈ all.zipIdx.filter fun (r, _) => r.lhs == .goal || r.lhs.whole :=
    List.mem_filter.mpr ⟨List.mk_mem_zipIdx_iff_getElem?.mpr hget, by simpa using hr⟩
  have hone := List.all_eq_true.mp (List.all_eq_true.mp hall _ hmem) (r', j)
    (List.mk_mem_zipIdx_iff_getElem?.mpr hget')
  have hdot := List.all_eq_true.mp hone d (List.mem_range.mpr hd)
  have hoverlap : overlap (r'.rhs.take (d + 1)) r.rhs = true := by
    simpa only [overlap, Bool.or_eq_true, List.isSuffixOf_iff_suffix] using h
  simpa [hoverlap] using hdot

end Forms

section Alone

/-- Symbols of the grammar stand for one list of symbols of the rules. -/
theorem syms_unique {xs : List Symbol} {as bs : List Sym}
    (ha : List.Forall₂ grammar.Denotes xs (as.map Sym.part))
    (hb : List.Forall₂ grammar.Denotes xs (bs.map Sym.part)) : as = bs := by
  induction xs generalizing as bs with
  | nil =>
    rw [List.map_eq_nil_iff.mp (List.forall₂_nil_left_iff.mp ha),
      List.map_eq_nil_iff.mp (List.forall₂_nil_left_iff.mp hb)]
  | cons x xs ih =>
    rw [List.forall₂_map_right_iff] at ha hb
    obtain ⟨a, as, hxa, has, rfl⟩ := List.forall₂_cons_left_iff.mp ha
    obtain ⟨b, bs, hxb, hbs, rfl⟩ := List.forall₂_cons_left_iff.mp hb
    rw [Numbered.sym_unique hxa hxb,
      ih (List.forall₂_map_right_iff.mpr has) (List.forall₂_map_right_iff.mpr hbs)]

theorem suffix_of_denotes {xs ys : List Symbol} {as bs : List Sym}
    (ha : List.Forall₂ grammar.Denotes xs (as.map Sym.part))
    (hb : List.Forall₂ grammar.Denotes ys (bs.map Sym.part)) (h : xs <:+ ys) : as <:+ bs := by
  obtain ⟨front, rfl⟩ := h
  have hdrop := List.forall₂_drop front.length hb
  rw [List.drop_left, ← List.map_drop] at hdrop
  rw [syms_unique ha hdrop]
  exact List.drop_suffix _ _

/-- The productions for the goal and for whole sources stand alone. -/
theorem alone_of_whole {i : Nat} {r : Rule} (hr : ofProduction? i = some r)
    (hl : r.lhs = .goal ∨ r.lhs.whole = true) : grammar.Alone i := by
  obtain ⟨hmem, _, hrhs⟩ := tells_of_production hr
  obtain ⟨hgoal, hwhole, _, hnot⟩ := all_end r hmem
  have hne : r.rhs ≠ [] := by
    rcases hl with hl | hl
    · obtain ⟨p, hp, _⟩ := hgoal hl
      simp [hp]
    · obtain ⟨front, a, hp, _⟩ := hwhole hl
      simp [hp]
  have hlen : (grammar.production i).rhs.length = r.rhs.length := by
    rw [hrhs.length_eq, List.length_map]
  refine ⟨fun hnil => hne (List.length_eq_zero_iff.mp (by rw [← hlen, hnil]; rfl)), ?_⟩
  intro j hj d hpos hd h
  -- What is read of a production stands for what is read of its rule.
  have hsyms {as : List Sym}
      (has : List.Forall₂ grammar.Denotes (grammar.production j).rhs (as.map Sym.part)) :
      as.take d <:+ r.rhs ∨ r.rhs <:+ as.take d := by
    have htake := List.forall₂_take d has
    rw [← List.map_take] at htake
    exact h.imp (suffix_of_denotes htake hrhs) (suffix_of_denotes hrhs htake)
  by_cases hzero : j = 0
  · subst hzero
    obtain ⟨n, hn, hname⟩ := grammar_numbered.start
    have hstart : List.Forall₂ grammar.Denotes (grammar.production 0).rhs
        ([.phrase .goal].map Sym.part) := by
      rw [hn]
      exact .cons hname .nil
    rw [hn, List.length_singleton] at hd
    obtain rfl : d = 1 := by omega
    rcases hsyms hstart with hsuf | hsuf
    · exact absurd (hsuf.subset List.mem_cons_self) hnot
    · obtain ⟨a, ha⟩ := List.exists_mem_of_ne_nil _ hne
      have hag : a = .phrase .goal := List.mem_singleton.mp (hsuf.subset ha)
      exact absurd (hag ▸ ha) hnot
  · obtain ⟨r', hr', _, hrhs'⟩ := exists_ofProduction hj hzero
    have hlen' : (grammar.production j).rhs.length = r'.rhs.length := by
      rw [hrhs'.length_eq, List.length_map]
    obtain ⟨e, rfl⟩ := Nat.exists_eq_succ_of_ne_zero hpos.ne'
    obtain ⟨hij, he⟩ := all_apart hr hr' hl (Nat.lt_of_succ_le (hlen' ▸ hd)) (hsyms hrhs')
    exact ⟨hij, he.trans hlen.symm⟩

end Alone

section Trees

variable {tree : Grammar.Tree} {i : Nat} {children : List Grammar.Tree}

/-- A tree that stands for a symbol of the rules. -/
def Stands (tree : Grammar.Tree) (a : Sym) : Prop := grammar.Denotes (tree.root grammar) a.part

/-- A node over anything but the whole input is the work of a rule. -/
theorem exists_rule_of_node (hv : (Grammar.Tree.node i children).Valid grammar) {p : Phrase}
    (hp : Stands (.node i children) (.phrase p)) :
    ∃ r, ofProduction? i = some r ∧ r.lhs = p ∧ List.Forall₂ Stands children r.rhs := by
  cases hv with
  | node _ _ hi hroots _ =>
    have hne : i ≠ 0 := by
      rintro rfl
      rw [Stands, Grammar.Tree.root, grammar_numbered.built.wellFormed.goal_lhs] at hp
      exact grammar_numbered.zero_denotes hp
    obtain ⟨r, hr, hlhs, hrhs⟩ := exists_ofProduction hi hne
    refine ⟨r, hr, Sym.phrase.inj (Numbered.sym_unique hlhs hp), ?_⟩
    rwa [← hroots, List.forall₂_map_left_iff, List.forall₂_map_right_iff] at hrhs

/-- A tree for a phrase is a node. -/
theorem exists_node {p : Phrase} (hp : Stands tree (.phrase p)) :
    ∃ i children, tree = .node i children := by
  cases tree with
  | leaf token => cases hp
  | node i children => exact ⟨i, children, rfl⟩

theorem Stands.append {front back : List Sym} (h : List.Forall₂ Stands children (front ++ back)) :
    ∃ first last, children = first ++ last ∧ List.Forall₂ Stands last back :=
  ⟨_, _, (List.take_append_drop front.length children).symm, List.forall₂_drop_append _ _ _ h⟩

/-- What ends with the end of a block ends with `end` or with assembler code. -/
theorem last_of_closing (hv : tree.Valid grammar) {a : Sym} (ha : Stands tree a)
    (hc : a.closing = true) :
    ∃ front token, tree.yield = front ++ [token] ∧ (token.kind = .END ∨ token.kind = .asm) := by
  induction hv generalizing a with
  | leaf token =>
    cases a with
    | phrase p => cases ha
    | token k =>
      obtain rfl : token.kind = k := ha
      refine ⟨[], token, Grammar.Tree.yield_leaf token, ?_⟩
      simpa [Sym.closing] using hc
  | node i children hi hroots hvalid ih =>
    cases a with
    | token k => cases ha
    | phrase p =>
      obtain ⟨r, hr, rfl, hchildren⟩ := exists_rule_of_node (.node i children hi hroots hvalid) ha
      obtain ⟨front, b, hrhs, hb⟩ := (all_end r (ofProduction_mem hr)).2.2.1 hc
      rw [hrhs] at hchildren
      obtain ⟨first, _, rfl, hlast⟩ := Stands.append hchildren
      obtain ⟨child, _, hchild, hnil, rfl⟩ := List.forall₂_cons_right_iff.mp hlast
      obtain rfl := List.forall₂_nil_right_iff.mp hnil
      obtain ⟨yield, token, hyield, hkind⟩ := ih child (by simp) hchild hb
      refine ⟨first.flatMap Grammar.Tree.yield ++ yield, token, ?_, hkind⟩
      simp [hyield]

theorem mem_reduced_flatMap {k : Nat} {forest : List Grammar.Tree} :
    k ∈ reduced (forest.flatMap Grammar.Tree.moves) ↔ ∃ tree ∈ forest, k ∈ reduced tree.moves := by
  induction forest with
  | nil => simp [reduced]
  | cons tree forest ih => simp [ih]

/-- Only a tree for the goal is built by a rule for the goal. -/
theorem eq_goal_of_reduced (hv : tree.Valid grammar) {a : Sym} (ha : Stands tree a) {k : Nat}
    {r : Rule} (hk : k ∈ reduced tree.moves) (hr : ofProduction? k = some r)
    (hgoal : r.lhs = .goal) : a = .phrase .goal := by
  induction hv generalizing a with
  | leaf token => simp [reduced] at hk
  | node i children hi hroots hvalid ih =>
    cases a with
    | token k => cases ha
    | phrase p =>
      obtain ⟨r', hr', rfl, hchildren⟩ :=
        exists_rule_of_node (.node i children hi hroots hvalid) ha
      rw [Grammar.Tree.moves_node, reduced_append, List.mem_append, reduced_reduce,
        List.mem_singleton] at hk
      rcases hk with hk | rfl
      · obtain ⟨child, hmem, hk⟩ := mem_reduced_flatMap.mp hk
        obtain ⟨n, hn, rfl⟩ := List.mem_iff_getElem.mp hmem
        have hlen := hchildren.length_eq
        -- No child is a tree for the goal, since no rule uses it.
        have heq := ih _ hmem (hchildren.get hn (by omega)) hk
        exact absurd (heq ▸ List.get_mem _ _) (all_end r' (ofProduction_mem hr')).2.2.2
      · rw [Option.some.inj (hr'.symm.trans hr), hgoal]

/-- How the tree of a source ends: production `i` makes it the goal, and production `j` makes its
parts a whole source, with a full stop behind them. -/
structure Ends (tree : Grammar.Tree) (i j : Nat) (forest : List Grammar.Tree) (dot : Token) :
    Prop where
  eq : tree = .node i [.node j (forest ++ [.leaf dot])]
  goal : ∃ r, ofProduction? i = some r ∧ r.lhs = .goal
  whole : ∃ r, ofProduction? j = some r ∧ r.lhs.whole = true
  kind : dot.kind = .dot
  last : ∃ front token, forest.flatMap Grammar.Tree.yield = front ++ [token] ∧
    (token.kind = .END ∨ token.kind = .asm)
  parts : ∀ k ∈ reduced (forest.flatMap Grammar.Tree.moves ++ [.shift dot, .reduce j]), ∀ r,
    ofProduction? k = some r → r.lhs ≠ .goal

/-- Every tree for the goal ends so. -/
theorem exists_ends (hv : tree.Valid grammar) (hgoal : Stands tree (.phrase .goal)) :
    ∃ i j forest dot, Ends tree i j forest dot := by
  obtain ⟨i, _, rfl⟩ := exists_node hgoal
  obtain ⟨r, hr, hlhs, hchildren⟩ := exists_rule_of_node hv hgoal
  obtain ⟨p, hrhs, hwhole⟩ := (all_end r (ofProduction_mem hr)).1 hlhs
  rw [hrhs] at hchildren
  obtain ⟨child, _, hchild, hnil, rfl⟩ := List.forall₂_cons_right_iff.mp hchildren
  obtain rfl := List.forall₂_nil_right_iff.mp hnil
  obtain ⟨j, parts, rfl⟩ := exists_node hchild
  have hvalid : (Grammar.Tree.node j parts).Valid grammar := by
    cases hv with
    | node _ _ _ _ hc => exact hc _ List.mem_cons_self
  obtain ⟨r', hr', rfl, hparts⟩ := exists_rule_of_node hvalid hchild
  obtain ⟨_, a, hrhs', ha⟩ := (all_end r' (ofProduction_mem hr')).2.1 hwhole
  rw [hrhs'] at hparts
  obtain ⟨first, _, rfl, hlast⟩ := Stands.append hparts
  obtain ⟨block, _, hblock, hrest, rfl⟩ := List.forall₂_cons_right_iff.mp hlast
  obtain ⟨stop, _, hstop, hnil', rfl⟩ := List.forall₂_cons_right_iff.mp hrest
  obtain rfl := List.forall₂_nil_right_iff.mp hnil'
  cases stop with
  | node _ _ => cases hstop
  | leaf dot =>
    refine ⟨i, j, first ++ [block], dot, by simp, ⟨r, hr, hlhs⟩, ⟨r', hr', hwhole⟩, hstop, ?_,
      fun k hk s hs hgoal => ?_⟩
    · have hblockValid : block.Valid grammar := by
        cases hvalid with
        | node _ _ _ _ hc => exact hc _ (by simp)
      obtain ⟨yield, token, hyield, hkind⟩ := last_of_closing hblockValid hblock ha
      exact ⟨first.flatMap Grammar.Tree.yield ++ yield, token, by simp [hyield], hkind⟩
    · have hmoves : (Grammar.Tree.node j (first ++ [block, .leaf dot])).moves =
          (first ++ [block]).flatMap Grammar.Tree.moves ++ [.shift dot, .reduce j] := by simp
      have heq := Sym.phrase.inj (eq_goal_of_reduced hvalid hchild (hmoves ▸ hk) hs hgoal)
      rw [heq] at hwhole
      cases hwhole

end Trees

section Runs

variable {config : Config} {origin : Nat} {t : Tables} {ms : List Move}
  {c : Configuration Value Goal Nat}

/-- The goal is not known before a rule for it is reduced. -/
theorem goal_eq_none_of_reduced {supply : Supply} {memory : Nat}
    (h : Run t (semantics config origin) { supply, memory } ms c)
    (hms : ∀ k ∈ reduced ms, ∀ r, ofProduction? k = some r → r.lhs ≠ .goal) : c.goal = none := by
  induction h with
  | refl => rfl
  | @tail ms c c' _ hs ih =>
    rw [reduced_append] at hms
    have hc := ih fun k hk => hms k (List.mem_append_left _ hk)
    rcases Configuration.step_eq_more hs with ⟨q, _, _, rfl⟩ | ⟨k, hmove, _⟩
    · simpa using hc
    · obtain ⟨c₁, _, _, hsame, hred⟩ := Configuration.reduce_of_step hs hmove
      obtain ⟨e, q, hvalue, _, rfl⟩ := Configuration.reduce_eq_more hred
      have hgoal : e.goal = none := by
        cases hr : ofProduction? k with
        | some r =>
          rw [valueOf_eq_reduction hr] at hvalue
          obtain ⟨v, _, hv⟩ := reduction_eq_ok hvalue
          have hne := hms k (by simp [hmove]) r hr
          rw [hv]
          unfold goalOf
          split
          · rename_i heq _
            exact absurd heq hne
          · rfl
        | none =>
          simp only [Configuration.valueOf, semantics, hr, Option.map_none] at hvalue
          split at hvalue <;> cases hvalue <;> rfl
      simp [hgoal, hsame, hc]

/-- The moves of a run that accepts build a tree for the goal. -/
theorem ends_of_accepting (ht : grammar.tables = .ok t) {supply : Supply} {memory : Nat}
    (h : Run t (semantics config origin) { supply, memory } ms c) (ha : c.Accepting t) :
    ∃ tree i j forest dot, Ends tree i j forest dot ∧ tree.moves = ms := by
  have hw := grammar_numbered.built.wellFormed
  have hr := grammar_numbered.unreserved
  have hparse := Parsing.built hw hr ht h
  obtain ⟨tree, hbuilt, hroot⟩ := hparse.accepting hw hr ht ha
  have hmoves := moves_built (g := grammar) ms
  rw [hbuilt, List.reverse_singleton, List.flatMap_singleton] at hmoves
  obtain ⟨n, hn, hname⟩ := grammar_numbered.start
  have hstands : Stands tree (.phrase .goal) := by
    rw [hn] at hroot
    rw [Stands, ← (List.cons.inj hroot).1]
    exact hname
  obtain ⟨i, j, forest, dot, hends⟩ :=
    exists_ends (hparse.valid tree (hbuilt ▸ List.mem_cons_self)) hstands
  exact ⟨tree, i, j, forest, dot, hends, hmoves⟩

/-- A run that accepts has read the tokens up to the full stop of the goal, and comes to the same
configuration with any others behind it. -/
theorem refill_behind_goal (ht : grammar.tables = .ok t) {supply : Supply} {memory : Nat}
    (h : Run t (semantics config origin) { supply, memory } ms c) (ha : c.Accepting t) :
    ∃ used dot place rest, supply.ahead = used ++ (dot, place) :: rest ∧ dot.kind = .dot ∧
      shifted ms = used.map Prod.fst ++ [dot] ∧
      (∃ front last, used.map Prod.fst = front ++ [last] ∧
        (last.kind = .END ∨ last.kind = .asm)) ∧
      ∀ rest', Run t (semantics config origin)
        { supply := ⟨used ++ (dot, place) :: rest', supply.here⟩, memory } ms c := by
  have hw := grammar_numbered.built.wellFormed
  have hr := grammar_numbered.unreserved
  obtain ⟨tree, i, j, forest, dot, hends, hmoves⟩ := ends_of_accepting ht h ha
  have hms : ms = forest.flatMap Grammar.Tree.moves ++ [.shift dot] ++
      ([.reduce j] ++ [.reduce i]) := by
    rw [← hmoves, hends.eq]
    simp
  -- The run up to the full stop, and the two reductions behind it.
  obtain ⟨c₁, h₁, hrest⟩ := Run.part (hms ▸ h)
  obtain ⟨c₂, h₂, h₃⟩ := hrest.part
  obtain ⟨c₀, _, h₀⟩ := h₁.part
  have hnone : c₁.ahead = none := by
    obtain ⟨hs, hmove⟩ := h₀.step_of_singleton
    rcases Configuration.step_eq_more hs with ⟨q, _, _, rfl⟩ | ⟨k, hmove', _⟩
    · rfl
    · rw [hmove] at hmove'
      cases hmove'
  have hparts := hends.parts
  rw [← List.singleton_append, ← List.append_assoc] at hparts
  have hgoal₁ : c₁.goal = none := goal_eq_none_of_reduced h₁ fun k hk =>
    hparts k (by rw [reduced_append]; exact List.mem_append_left _ hk)
  have hgoal₂ : c₂.goal = none := goal_eq_none_of_reduced (h₁.trans h₂) hparts
  have hgoal : c.goal ≠ none := Option.isSome_iff_ne_none.mp (goal_of_accepting ht h ha)
  -- Both reductions are made by default.
  have hdefault {ms : List Move} {c c' : Configuration Value Goal Nat} {k : Nat} {r : Rule}
      (hrun : Run t (semantics config origin) { supply, memory } ms c)
      (hlast : Run t (semantics config origin) c [.reduce k] c') (hk : ofProduction? k = some r)
      (hl : r.lhs = .goal ∨ r.lhs.whole = true) :
      t.defaultAt c.top = some k ∧ c.reduce t (semantics config origin) k = .more c' := by
    obtain ⟨hs, hmove⟩ := hlast.step_of_singleton
    have hd := (alone_of_whole hk hl).default_eq_some hw hr ht
      (Parsing.built hw hr ht hrun).path (Configuration.reduces_of_move hmove)
    exact ⟨hd, (Configuration.step_of_default hd).1.symm.trans hs⟩
  obtain ⟨r', hj, hwhole⟩ := hends.whole
  obtain ⟨r, hi, hlhs⟩ := hends.goal
  obtain ⟨hd₁, hred₁⟩ := hdefault h₁ h₂ hj (Or.inr hwhole)
  obtain ⟨hd₂, hred₂⟩ := hdefault (h₁.trans h₂) h₃ hi (Or.inl hlhs)
  obtain ⟨used, hahead, hfst, hall⟩ := h₁.refill
    (fun q q' hq => kind_ne_eof_of_shift hw hr ht grammar_endFree hq rfl) hgoal₁ (by simp [hnone])
  simp only [Option.toList_none, List.nil_append, hnone, List.append_nil, shifted_append,
    shifted_shift, shifted_forest] at hfst
  obtain ⟨us, _, rfl, hus, hstop⟩ := List.map_eq_append_iff.mp hfst
  obtain ⟨⟨token, place⟩, _, rfl, rfl, hnil⟩ := List.map_eq_cons_iff.mp hstop
  obtain rfl := List.map_eq_nil_iff.mp hnil
  refine ⟨us, token, place, c₁.supply.ahead, by simpa using hahead, hends.kind, ?_, ?_,
    fun rest' => ?_⟩
  · rw [hms, shifted_append, shifted_append, shifted_append, shifted_forest, hus, shifted_shift,
      shifted_reduce, shifted_reduce, List.append_nil, List.append_nil]
  · rw [hus]
    exact hends.last
  · have hstep₁ := Configuration.step_of_default (t := t) (s := semantics config origin)
      (c := c₁.refill rest') hd₁
    have hstep₂ := Configuration.step_of_default (t := t) (s := semantics config origin)
      (c := c₂.refill rest') hd₂
    rw [(Configuration.reduce_refill hred₁ hgoal₂ rest').2.2.2] at hstep₁
    rw [Configuration.reduce_refill_of_goal hred₂ hgoal₂ hgoal rest'] at hstep₂
    have hrun := ((hall rest').tail hstep₁.1).tail hstep₂.1
    rw [hstep₁.2, hstep₂.2, List.append_assoc us, List.append_assoc (_ ++ _)] at hrun
    rw [hms]
    exact hrun

/-- Nothing behind the goal is read. A source is rejected, or its parse shifts a full stop last, and
the text can go on behind it in any way that makes no other mark of it: in the same dialect and for
the same tree the parse then gives the same goal, with the same nodes on the same lines, and the
same number of the last node. -/
theorem nothing_behind_goal_is_read (config : Config) (source : Text) (origin : Nat) :
    (∃ place message,
      (parse config source origin).result = .error (.rejection place message)) ∨
    ∃ t ms c goal dot, languageTables = .ok t ∧
      Run t (semantics config origin) { supply := .ofText source, memory := 0 } ms c ∧
      c.Accepting t ∧ (parse config source origin).result = .ok goal ∧
      (shifted ms).getLast? = some dot ∧ dot.kind = .dot ∧
      source.bytes[dot.place.offset source]? = some 0x2E ∧
      ∀ x : List UInt8, (∀ b ∈ x.head?, b ≠ 0x2E ∧ b ≠ 0x29) →
        parse config ⟨source.bytes.take (dot.place.offset source + 1) ++ x⟩ origin =
          parse config source origin := by
  have hw := grammar_numbered.built.wellFormed
  have hr := grammar_numbered.unreserved
  obtain ⟨t, hlang⟩ := exists_languageTables
  have ht : grammar.tables = .ok t := by rwa [languageTables] at hlang
  have hend (supply : Supply) := exists_end hw hr ht grammar_endFree grammar_ranked.acyclic
    grammar_ranked.unhidden (semantics config origin) supply 0
  obtain ⟨ms, c, hrun, _, hparse, hmore, _⟩ := hend (.ofText source)
  have hresult : parse config source origin =
      .ofProgress (c.step t (semantics config origin)) := by
    rw [parse, hlang, parseBy, hparse]
  cases hstep : c.step t (semantics config origin) with
  | more c' => exact absurd hstep (hmore c')
  | failed f c' =>
    obtain ⟨place, message, rfl⟩ := rejection_of_failed ht hrun hstep
    exact Or.inl ⟨place, message, by rw [hresult, hstep]; rfl⟩
  | accepted goal c' =>
    obtain ⟨hacc, _⟩ := Configuration.step_eq_accepted hstep
    obtain ⟨used, dot, place, rest, hahead, hdot, hshifted, ⟨front, last, hlast, hkind⟩, hall⟩ :=
      refill_behind_goal ht hrun hacc
    -- What has been shifted is valid, and no number stands in front of the full stop.
    have hmem : ∀ x ∈ used, x.1 ∈ shifted ms := fun x hx => by
      rw [hshifted]
      exact List.mem_append_left _ (List.mem_map_of_mem hx)
    have hvalid : ∀ x ∈ used, x.1.kind ≠ .eof ∧ x.1.kind ≠ .invalid := fun x hx =>
      ⟨(hrun.track [c.token] rfl).kind_ne_eof hw hr ht grammar_endFree x.1 (hmem x hx),
        hrun.valid.2 x.1 (hmem x hx)⟩
    have hnumber : ∀ x ∈ used.getLast?, x.1.kind ≠ .integer ∧ x.1.kind ≠ .real := by
      intro x hx
      obtain ⟨init, rfl⟩ := List.getLast?_eq_some_iff.mp hx
      rw [List.map_append] at hlast
      obtain ⟨_, hx⟩ := List.append_inj' hlast rfl
      rw [(List.cons.inj hx).1]
      rcases hkind with hkind | hkind <;> simp [hkind]
    obtain ⟨hbyte, hcut⟩ := Supply.ofText_cut hahead hdot hvalid hnumber
    refine Or.inr ⟨t, ms, c, goal, dot, hlang, hrun, hacc, by rw [hresult, hstep]; rfl,
      by simp [hshifted], hdot, hbyte, fun x hx => ?_⟩
    obtain ⟨rest', hsource⟩ := hcut x hx
    obtain ⟨ns, c', hrun', _, hparse', hmore', _⟩ :=
      hend (.ofText ⟨source.bytes.take (dot.place.offset source + 1) ++ x⟩)
    rw [hresult, parse, hlang, parseBy, hparse']
    rw [hsource] at hrun'
    rw [hrun'.step_unique (hall rest') hmore' hmore]

end Runs

end ObjectPascal.Rule
