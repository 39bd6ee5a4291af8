import ObjectPascal.Proofs.Rule.Identity
import ObjectPascal.Proofs.Rule.Trail

/-!
Guided reading. A parse that comes to a phrase with a known trail below it reads the phrase to its
end, with a value of which the builders of its rules tell. There is one law for tokens and one for
rules, so that what a source is read as can be put together from its parts, with the trails checked
at each place.
-/

namespace ObjectPascal.Rule

open Grammar (Awaits AwaitsRest Climbs Configuration Run Tables following)

/-- The kind of the token that comes first where one of kind `k` comes behind the given ones. -/
def leading : List Token → Kind → Kind
  | [], k => k
  | token :: _, _ => token.kind

theorem following_append (us ts : List Token) :
    following (us ++ ts) = leading us (following ts) := by
  cases us <;> rfl

/-- Valid trees that stand for the right-hand side of a rule are the children of a valid node. -/
theorem valid_node {i : Nat} {r : Rule} (hr : ofProduction? i = some r)
    {forest : List Grammar.Tree} (hvalid : ∀ tree ∈ forest, tree.Valid grammar)
    (hs : List.Forall₂ Stands forest r.rhs) : (Grammar.Tree.node i forest).Valid grammar := by
  obtain ⟨j, rfl, hget⟩ := ofProduction_eq_some hr
  have hlt : j < all.length := (List.getElem?_eq_some_iff.mp hget).1
  refine .node _ _ (by rw [grammar_numbered.size]; omega) ?_ hvalid
  have hrhs := (tells_of_production hr).2.2
  generalize (grammar.production (j + 1)).rhs = xs at hrhs
  generalize r.rhs = as at hs hrhs
  induction hs generalizing xs with
  | nil => exact (List.forall₂_nil_right_iff.mp hrhs).symm
  | cons hfirst _ ih =>
    obtain ⟨x, xs, hx, hxs, rfl⟩ := List.forall₂_cons_right_iff.mp hrhs
    rw [List.map_cons, symbol_unique hfirst hx,
      ih (fun tree h => hvalid tree (.tail _ h)) xs hxs]

section Builders

variable {α : Type}

/-- Building succeeds, on every line and for every number, with a value that has the property. -/
def Build.Succeeds (b : Build α) (P : α → Prop) : Prop :=
  ∀ site last, ∃ v last', b site last = .ok (v, last') ∧ P v

theorem give_succeeds {P : α → Prop} {a : α} (h : P a) : (give a).Succeeds P :=
  fun _ last => ⟨a, last, rfl, h⟩

/-- What is known of the values of symbols, one after the other. -/
def Known : List Sym → Type
  | [] => Unit
  | a :: as => (a.shape.Val → Prop) × Known as

/-- From values of which all that is known holds the function builds a value with the property. -/
def Makes (P : α → Prop) : (as : List Sym) → Known as → Curried (as.map Sym.shape) (Build α) → Prop
  | [], _, b => b.Succeeds P
  | _ :: as, known, f => ∀ v, known.1 v → Makes P as known.2 (f v)

end Builders

/-- A phrase or token can begin behind what a trail tells of, with the given phrases behind it. -/
def Trail.fits (w : Trail) (a : Sym) (ps : List Phrase) : Bool :=
  closed ps && opens ((a, ps) :: w)

theorem Trail.Tells.push {w : Trail} {states : List Nat} (h : w.Tells states) {a : Sym}
    {ps : List Phrase} (hfits : w.fits a ps = true) {tree : Grammar.Tree} (hs : Stands tree a)
    {q : Nat} (hq : (tree.root grammar, q) ∈ grammar.stepsAt (states.headD 0)) :
    Trail.Tells ((a, ps) :: w) (q :: states) := by
  obtain ⟨hc, xs, hpath, hden⟩ := h
  rw [fits, Bool.and_eq_true] at hfits
  refine ⟨?_, tree.root grammar :: xs, ?_, .cons hs hden⟩
  · simp only [Trail.complete, hc, hfits.1, hfits.2, Bool.and_self]
  · cases hpath with
    | bottom => exact .push .bottom hq
    | push hpath he => exact .push (.push hpath he) hq

section Reading

variable (config : Config) (origin : Nat) (t : Tables)

/-- A parse reads a tree where the trail `w` tells of its stack and a token of kind `k` comes behind
the tree, and its value has the property. -/
structure ReadsTree (w : Trail) (a : Sym) (tree : Grammar.Tree) (k : Kind)
    (P : a.shape.Val → Prop) : Prop where
  valid : tree.Valid grammar
  stands : Stands tree a
  run : ∀ (c : Configuration Value Goal Nat) (ts : List Token), following ts = k →
    w.Tells c.states → grammar.Awaits c.states tree ts → c.coming = tree.yield ++ ts →
    ∃ ms c' q v, Run t (semantics config origin) c ms c' ∧
      (tree.root grammar, q) ∈ grammar.stepsAt c.top ∧ c'.states = q :: c.states ∧
      c'.values = ⟨a.shape, v⟩ :: c.values ∧ P v ∧ c'.coming = ts

/-- A parse reads the tokens as what the symbol stands for. -/
def Reads (w : Trail) (a : Sym) (us : List Token) (k : Kind) (P : a.shape.Val → Prop) : Prop :=
  ∃ tree, tree.yield = us ∧ ReadsTree config origin t w a tree k P

/-- A parse reads the tokens as the parts of a right-hand side, and the trail `w'` tells of its
stack behind them. -/
inductive ReadsAll (k : Kind) (w' : Trail) : Trail → (as : List Sym) → List Token → Known as → Prop
  | nil : ReadsAll k w' w' [] [] ()
  | cons {w : Trail} {a : Sym} {as : List Sym} {us vs : List Token} {P : a.shape.Val → Prop}
      {known : Known as} {l : Kind} (ps : List Phrase) (h : Reads config origin t w a us l P)
      (hl : leading vs k = l) (hfits : w.fits a ps = true)
      (rest : ReadsAll k w' ((a, ps) :: w) as vs known) :
      ReadsAll k w' w (a :: as) (us ++ vs) (P, known)

variable {config origin t}
variable {w w' : Trail} {k : Kind} {us : List Token}

/-- What holds of a value that is read still holds if less is asked. -/
theorem Reads.imp {a : Sym} {P Q : a.shape.Val → Prop} (h : Reads config origin t w a us k P)
    (hQ : ∀ v, P v → Q v) : Reads config origin t w a us k Q := by
  obtain ⟨tree, hyield, hvalid, hstands, hrun⟩ := h
  refine ⟨tree, hyield, hvalid, hstands, fun c ts hts htells haw hcome => ?_⟩
  obtain ⟨ms, c', q, v, hrun, hq, hstates, hvalues, hP, hcome'⟩ := hrun c ts hts htells haw hcome
  exact ⟨ms, c', q, v, hrun, hq, hstates, hvalues, hQ v hP, hcome'⟩

/-- The parts are read one after the other, and their values are those that a builder takes. -/
theorem ReadsAll.exists_forest {as : List Sym} {known : Known as}
    (h : ReadsAll config origin t k w' w as us known) :
    ∃ forest : List Grammar.Tree, forest.flatMap Grammar.Tree.yield = us ∧
      (∀ tree ∈ forest, tree.Valid grammar) ∧ List.Forall₂ Stands forest as ∧
      ∀ (p d : Nat) (c : Configuration Value Goal Nat) (ts : List Token), following ts = k →
        w.Tells c.states → grammar.AwaitsRest c.states p d forest ts → c.coming = us ++ ts →
        ∃ ms c' args, Run t (semantics config origin) c ms c' ∧
          grammar.Climbs c.states (forest.map (Grammar.Tree.root grammar)) c'.states ∧
          w'.Tells c'.states ∧ c'.values = args.reverse ++ c.values ∧ args.length = as.length ∧
          (∀ (α : Type) (P : α → Prop) (f : Curried (as.map Sym.shape) (Build α)),
            Makes P as known f → ∃ b, applyTo (as.map Sym.shape) f args = some b ∧ b.Succeeds P) ∧
          c'.coming = ts := by
  have hbuilt := grammar_numbered.built.wellFormed
  have hu := grammar_numbered.unreserved
  induction h with
  | nil =>
    refine ⟨[], rfl, by simp, .nil, fun p d c ts _ hw _ hcome => ?_⟩
    exact ⟨[], c, [], .refl, .refl _, hw, rfl, rfl, fun _ _ f hf => ⟨f, rfl, hf⟩, hcome⟩
  | @cons w a as us vs P known l ps h hl hfits _ ih =>
    obtain ⟨tree, rfl, h⟩ := h
    obtain ⟨forest, rfl, hvalid, hstands, hall⟩ := ih
    refine ⟨tree :: forest, by simp, List.forall_mem_cons.mpr ⟨h.valid, hvalid⟩,
      .cons h.stands hstands, fun p d c ts hts hw haw hcome => ?_⟩
    rw [List.append_assoc] at hcome
    obtain ⟨ms, c₁, q, v, hrun, hq, hstates, hvalues, hP, hcome₁⟩ := h.run c _
      (by rw [following_append, hts, hl]) hw (haw.head hbuilt) hcome
    have htop : c₁.states = q :: c.states := hstates
    obtain ⟨ns, c₂, args, hrun', hclimb, hend, hvalues', hlen, hmakes, hcome₂⟩ :=
      hall p (d + 1) c₁ ts hts (htop ▸ hw.push hfits h.stands hq) (htop ▸ haw.tail hbuilt hu hq)
        hcome₁
    refine ⟨ms ++ ns, c₂, ⟨a.shape, v⟩ :: args, hrun.trans hrun', ?_, hend, ?_, by simp [hlen],
      fun α P f hf => ?_, hcome₂⟩
    · rw [htop] at hclimb
      exact .step hq hclimb
    · rw [hvalues', hvalues]
      simp
    · obtain ⟨b, hb, hsucceeds⟩ := hmakes α P (f v) (hf v hP)
      exact ⟨b, (dif_pos rfl).trans hb, hsucceeds⟩

variable (ht : grammar.tables = .ok t)

include ht

/-- A token that goes on top is read. -/
theorem Reads.word {token : Token} {l : Kind} (hl : token.kind = l) (hw : w.shifts l = true) :
    Reads config origin t w (.token l) [token] k (· = token) := by
  refine ⟨.leaf token, by simp, .leaf token, hl, fun c ts hts htells haw hcome => ?_⟩
  have hbuilt := grammar_numbered.built.wellFormed
  have hu := grammar_numbered.unreserved
  rw [Grammar.Tree.yield_leaf] at hcome
  obtain rfl := Configuration.token_of_coming hcome
  obtain ⟨i, j, hexp, hnext, _⟩ := haw
  obtain ⟨q, hq⟩ := Grammar.exists_step hbuilt hu (hexp.mem_closure hbuilt) hnext
  have hact : t.action c.top c.token.kind = .shift q :=
    htells.action_of_shifts ht (hl ▸ hw) hq
  have hd : t.defaultAt c.top = none :=
    Grammar.default_eq_none hbuilt hu ht (by rw [hact]; simp) (by rw [hact]; simp)
  have hvalid : c.token.kind ≠ .invalid := by
    rintro hinv
    rw [← hl, hinv] at hw
    simp [Trail.shifts] at hw
  obtain ⟨c', hstep, hmove, hstates, hcome'⟩ :=
    Configuration.step_of_shift (s := semantics config origin) hd hact hvalid hcome
  have hrun : Run t (semantics config origin) c [.shift c.token] c' := by
    simpa [hmove] using Run.refl.tail hstep
  refine ⟨_, c', q, c.token, hrun, hq, hstates, ?_, rfl, hcome'⟩
  obtain ⟨q', _, _, rfl⟩ | ⟨i, hmove', _⟩ := Configuration.step_eq_more hstep
  · rfl
  · rw [hmove] at hmove'
    cases hmove'

/-- A rule is reduced by where its parts have been read and it has no choice. -/
theorem Reads.rule {r : Rule} (hr : r ∈ all) {known : Known r.rhs}
    (h : ReadsAll config origin t k w' w r.rhs us known) (hk : w'.completes k = true)
    {P : r.lhs.shape.Val → Prop} (hP : Makes P r.rhs known r.builder)
    (hgoal : r.lhs = .goal → k = .eof) :
    Reads config origin t w (.phrase r.lhs) us k P := by
  have hbuilt := grammar_numbered.built.wellFormed
  have hu := grammar_numbered.unreserved
  have hgrammar := (Grammar.tables_spec ht).2.1
  obtain ⟨i, hr⟩ := exists_production hr
  obtain ⟨forest, rfl, hvalid, hstands, hrun⟩ := h.exists_forest
  have hnode := valid_node hr hvalid hstands
  have hlen : (grammar.production i).rhs.length = r.rhs.length := by
    rw [(tells_of_production hr).2.2.length_eq, List.length_map]
  refine ⟨.node i forest, by simp, hnode, (tells_of_production hr).2.1,
    fun c ts hts htells haw hcome => ?_⟩
  obtain ⟨hne, hrest⟩ := haw.children hbuilt hu hnode
  rw [Grammar.Tree.yield_node] at hcome
  obtain ⟨ms, c₁, args, hrun, hclimb, htells₁, hvalues, hargs, hmakes, hcome₁⟩ :=
    hrun i 0 c ts hts htells hrest hcome
  -- The rule is complete in the top state and expects the next token.
  have hroots : (grammar.production i).rhs = forest.map (Grammar.Tree.root grammar) := by
    rw [← hrest.roots, List.drop_zero]
  have hend := hclimb.expects hbuilt hu hrest.expects (by rw [hrest.roots])
  rw [Nat.zero_add, ← hroots, hts] at hend
  obtain ⟨la, hmem, hla⟩ := hend.reduction hbuilt (List.getElem?_eq_none (Nat.le_refl _))
  have hact := htells₁.action_of_completes ht hk hmem hla
  have hkind : c₁.token.kind = k := by rw [Configuration.token_kind, hcome₁, hts]
  have hmove : c₁.move? t = some (.reduce i) := by
    refine Configuration.move_of_chooses (hkind ▸ Grammar.chooses_of_action hbuilt hu ht hact) ?_
    rintro hinv
    rw [hkind] at hinv
    simp [Trail.completes, hinv] at hk
  -- Its value is what the builder gives for the values of the parts.
  obtain ⟨q, hq⟩ := Grammar.exists_goto hbuilt hu hne (hrest.expects.mem_closure hbuilt)
  have hdrop : c₁.states.drop (grammar.production i).rhs.length = c.states := by
    rw [hroots, hclimb.drop]
  obtain ⟨b, hb, hsucceeds⟩ := hmakes _ P r.builder hP
  have htake : c₁.args t i = args := by
    rw [Configuration.args, hgrammar, hvalues, hlen, ← hargs, ← List.length_reverse,
      List.take_left, List.reverse_reverse]
  obtain ⟨c₂, e, hstep, ⟨v, hv, hPv, hgoalOf⟩, hstates, hvalues₂, hcome₂⟩ :=
    Configuration.step_of_value (s := semantics config origin) (q := q)
      (P := fun e => ∃ v, e.value = ⟨r.lhs.shape, v⟩ ∧ P v ∧ e.goal = goalOf r.lhs v) hmove
      (by rw [hgrammar, hdrop]; exact (Grammar.goto_eq_some_iff hbuilt hu ht).mpr hq) (by
        intro c'
        obtain ⟨v, last', hbuild, hPv⟩ :=
          hsucceeds ⟨c'.lineOf (semantics config origin) args, config, origin⟩ c'.memory
        refine ⟨{ value := ⟨r.lhs.shape, v⟩, memory := last', goal := goalOf r.lhs v }, ?_, v, rfl,
          hPv, rfl⟩
        rw [valueOf_eq_reduction hr, htake, reduction, hb]
        simp only [hbuild]
        rfl)
  rw [hgrammar] at hstates hvalues₂
  refine ⟨ms ++ [.reduce i], c₂, q, v, ?_, hq, ?_, ?_, hPv, ?_⟩
  · simpa [hmove] using hrun.tail hstep
  · rw [hstates, hdrop]
  · rw [hvalues₂, hv, hvalues, hlen, ← hargs, ← List.length_reverse, List.drop_left]
    rfl
  · rw [hcome₂ ?_, hcome₁]
    by_cases hl : r.lhs = .goal
    · right
      cases ts with
      | nil => exact hcome₁
      | cons token ts =>
        exact absurd (hts.trans (hgoal hl)) (c₁.kind_ne_eof token (hcome₁ ▸ List.mem_cons_self))
    · left
      rw [hgoalOf]
      unfold goalOf
      split
      · exact absurd ‹_› hl
      · rfl

/-- A rule with one part reads what the part reads. -/
theorem Reads.single {lhs : Phrase} {a : Sym} {f : a.shape.Val → Build lhs.shape.Val}
    (hr : Rule.rule lhs [a] f ∈ all) {P : a.shape.Val → Prop} {Q : lhs.shape.Val → Prop}
    (h : Reads config origin t w a us k P) {ps : List Phrase}
    (hw : w.fits a ps = true ∧ Trail.completes ((a, ps) :: w) k = true)
    (hf : ∀ v, P v → (f v).Succeeds Q) (hgoal : lhs = .goal → k = .eof) :
    Reads config origin t w (.phrase lhs) us k Q := by
  rw [← List.append_nil us]
  exact .rule ht hr (.cons ps h rfl hw.1 .nil) hw.2 hf hgoal

/-- A rule with one part that builds no node passes the value of the part on. -/
theorem Reads.pass {lhs : Phrase} {a : Sym} {f : a.shape.Val → lhs.shape.Val}
    (hr : Rule.rule lhs [a] (fun v => give (f v)) ∈ all) {P : a.shape.Val → Prop}
    {Q : lhs.shape.Val → Prop} (h : Reads config origin t w a us k P) {ps : List Phrase}
    (hw : w.fits a ps = true ∧ Trail.completes ((a, ps) :: w) k = true)
    (hf : ∀ v, P v → Q (f v)) (hgoal : lhs = .goal → k = .eof) :
    Reads config origin t w (.phrase lhs) us k Q :=
  .single ht hr h hw (fun v hv => give_succeeds (hf v hv)) hgoal

end Reading

/-- A parse that comes to accept gives the goal on top of its stack. -/
theorem parse_of_accepting {config : Config} {source : Text} {origin : Nat} {t : Tables}
    (ht : grammar.tables = .ok t) {ms : List Grammar.Move} {c : Configuration Value Goal Nat}
    (h : Run t (semantics config origin) { supply := .ofText source, memory := 0 } ms c)
    (ha : c.Accepting t) :
    ∃ goal rest, (parse config source origin).result = .ok goal ∧
      c.values = ⟨.goal, goal⟩ :: rest := by
  obtain ⟨goal, rest, hgoal, hvalues⟩ := top_of_accepting ht h ha
  have hstep : c.step t (semantics config origin) = .accepted goal c.look := by
    obtain ⟨_, hstep⟩ | ⟨hinv, _, _⟩ :=
      Configuration.step_of_default_none (s := semantics config origin) ha.1
    · rw [hstep, Configuration.act, Configuration.look_top, ha.2]
      simp [hgoal]
    · have heof := Grammar.eof_of_accept grammar_numbered.built.wellFormed
        grammar_numbered.unreserved ht ha.2
      rw [heof] at hinv
      cases hinv
  obtain ⟨ns, c', hrun, _, hparse, hmore, _⟩ := Grammar.exists_end grammar_numbered.built.wellFormed
    grammar_numbered.unreserved ht grammar_endFree grammar_ranked.acyclic grammar_ranked.unhidden
    (semantics config origin) (.ofText source) 0
  have hsame := hrun.step_unique h hmore (by rw [hstep]; simp)
  refine ⟨goal, rest, ?_, hvalues⟩
  have hlang : languageTables = .ok t := ht
  rw [parse, hlang, parseBy, hparse, hsame, hstep]
  rfl

/-- A statement does not complete a parse. -/
example : goalOf .stmt (.empty { id := 1, line := 1 }) = none := by decide +kernel

/-- A source is accepted whose tokens are read as a goal, and all nodes have numbers that tell them
apart. -/
theorem exists_goal_of_reads {config : Config} {source : Text} {origin : Nat} {t : Tables}
    (ht : grammar.tables = .ok t) {us : List Token} {P : Goal → Prop}
    (h : Reads config origin t [] (.phrase .goal) us .eof P)
    (htokens : ((Supply.ofText source).ahead.map Prod.fst).takeWhile (·.kind != .eof) = us) :
    ∃ goal, (parse config source origin).result = .ok goal ∧ P goal ∧ (Node.goal goal).Tidy ∧
      ∀ x ∈ goal.nodes, x.info.id ≠ 0 := by
  have hbuilt := grammar_numbered.built.wellFormed
  have hu := grammar_numbered.unreserved
  obtain ⟨tree, rfl, h⟩ := h
  obtain ⟨n, hstart, hname⟩ := grammar_numbered.start
  have hroot : tree.root grammar = .nonterminal n := symbol_unique h.stands hname
  have haw : grammar.AwaitsRest [0] 0 0 [tree] [] :=
    Grammar.awaits_start hbuilt hu [tree] (by rw [hstart, List.map_singleton, hroot])
      (by simpa using h.valid)
  have htells : Trail.Tells [] [0] := ⟨by decide +kernel, [], .bottom, .nil⟩
  obtain ⟨ms, c, q, goal, hrun, hq, hstates, hvalues, hP, hcome⟩ :=
    h.run { supply := .ofText source, memory := 0 } [] rfl htells (haw.head hbuilt)
      (by simpa [Configuration.coming] using htokens)
  -- Behind the goal only the end of the input is expected.
  have hend := (haw.tail hbuilt hu hq).expects
  obtain ⟨la, hmem, hla⟩ := hend.reduction hbuilt (by rw [Grammar.next_eq, hstart]; rfl)
  have hact : t.action c.top c.token.kind = .accept := by
    have htop : c.top = q := by rw [Configuration.top, hstates]; rfl
    rw [Configuration.token_kind, hcome, htop]
    exact Grammar.action_of_start hbuilt hu ht hmem hla
  have hacc : c.Accepting t :=
    ⟨Grammar.default_eq_none hbuilt hu ht (by rw [hact]; simp) (by rw [hact]; simp), hact⟩
  obtain ⟨goal', rest, hparse, htop⟩ := parse_of_accepting ht hrun hacc
  have hlaid := (Ordered.of_run ht hrun).laid ⟨.goal, goal'⟩ (htop ▸ List.mem_cons_self)
  have hnumbered := hlaid.numbered _ List.mem_cons_self
  rw [htop] at hvalues
  cases hvalues
  exact ⟨goal, hparse, hP, hlaid.tidy _ List.mem_cons_self, fun x hx =>
    Nat.one_le_iff_ne_zero.mp (hnumbered _ ⟨x, hx, rfl⟩).1⟩

end ObjectPascal.Rule
