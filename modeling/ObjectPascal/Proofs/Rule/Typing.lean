import ObjectPascal.Parse
import ObjectPascal.Proofs.Grammar.Soundness
import ObjectPascal.Proofs.Rule.Numbering

/-!
Builders fail only by rejecting the source. This holds for the operations that builders are made of,
it is kept by every way of putting builders together, and so it holds for every rule of the language
and all values that its right-hand side can have.
-/

namespace ObjectPascal.Rule

/-- A builder whose failures are all rejections. -/
def Build.Rejecting {α : Type} (b : Build α) : Prop :=
  ∀ site last f, b site last = .error f → ∃ place message, f = .rejection place message

namespace Build.Rejecting

variable {α β : Type}

@[simp]
theorem pure (a : α) : Rejecting (Pure.pure a : Build α) := by
  rintro _ _ _ ⟨⟩

@[simp]
theorem give (a : α) : Rejecting (Rule.give a) := pure a

@[simp]
theorem build {b : Build α} : Rejecting (Rule.build b) ↔ Rejecting b := Iff.rfl

@[simp]
theorem bind {b : Build α} {k : α → Build β} (hb : Rejecting b) (hk : ∀ a, Rejecting (k a)) :
    Rejecting (b >>= k) := by
  intro site last f h
  change (b site last >>= fun e => k e.1 site e.2) = .error f at h
  cases hrun : b site last with
  | error f' =>
    rw [hrun] at h
    cases h
    exact hb site last f hrun
  | ok e =>
    rw [hrun] at h
    exact hk e.1 site e.2 f h

@[simp]
theorem map {b : Build α} (f : α → β) (hb : Rejecting b) : Rejecting (f <$> b) := by
  rw [← bind_pure_comp]
  exact bind hb fun a => pure (f a)

@[simp]
theorem ite {c : Prop} [Decidable c] {a b : Build α} :
    Rejecting (if c then a else b) ↔ (c → Rejecting a) ∧ (¬c → Rejecting b) := by
  split <;> simp [*]

@[simp]
theorem mapM {k : α → Build β} (hk : ∀ a, Rejecting (k a)) (l : List α) :
    Rejecting (l.mapM k) := by
  induction l with
  | nil => exact pure []
  | cons a l ih =>
    rw [List.mapM_cons]
    exact bind (hk a) fun b => bind ih fun bs => pure (b :: bs)

@[simp]
theorem foldlM {k : β → α → Build β} (hk : ∀ b a, Rejecting (k b a)) (b : β) (l : List α) :
    Rejecting (l.foldlM k b) := by
  induction l generalizing b with
  | nil => exact pure b
  | cons a l ih =>
    rw [List.foldlM_cons]
    exact bind (hk b a) ih

@[simp]
theorem forIn {k : α → β → Build (ForInStep β)} (hk : ∀ a b, Rejecting (k a b)) (l : List α)
    (b : β) : Rejecting (ForIn.forIn l b k) := by
  induction l generalizing b with
  | nil => exact pure b
  | cons a l ih =>
    rw [List.forIn_cons]
    refine bind (hk a b) fun step => ?_
    cases step with
    | done b => exact pure b
    | yield b => exact ih b

@[simp]
theorem read : Rejecting (MonadReader.read : Build Site) := by
  rintro _ _ _ ⟨⟩

@[simp]
theorem nodeAt (line : Nat) : Rejecting (Rule.nodeAt line) := by
  rintro _ _ _ ⟨⟩

@[simp]
theorem node : Rejecting Rule.node := by
  rintro _ _ _ ⟨⟩

@[simp]
theorem reject (line : Nat) (message : Text) : Rejecting (Rule.reject line message : Build α) := by
  rintro _ _ _ ⟨⟩
  exact ⟨_, _, rfl⟩

@[simp]
theorem require (f : Feature) (line : Nat) (what : Text) :
    Rejecting (Rule.require f line what) := by
  simp [Rule.require]

end Build.Rejecting

section Helpers

@[simp]
theorem groupDecls_rejecting (kind : VarKind) (visibility : Visibility) (g : VarGroup) :
    (groupDecls kind visibility g).Rejecting := by
  simp [groupDecls]

@[simp]
theorem variableSection_rejecting (kind : VarKind) (gs : List VarGroup) :
    (variableSection kind gs).Rejecting := by
  simp [variableSection]

@[simp]
theorem declareType_rejecting (name : Token) (t : TypeExpr) : (declareType name t).Rejecting := by
  simp [declareType]

@[simp]
theorem parameters_rejecting (kind : ParamKind) (names : List Token) (type : Option TypeExpr)
    (default : Option Expr) : (parameters kind names type default).Rejecting := by
  have hdecls : Build.Rejecting (names.mapM fun t => do
      return ({ info := ← nodeAt t.line, name := t.text, kind, type, default } : ParamDecl)) := by
    simp
  exact Build.Rejecting.ite.mpr ⟨fun _ => .bind (.reject _ _) fun _ => hdecls, fun _ => hdecls⟩

@[simp]
theorem heading_rejecting (classMethod : Bool) (word : Token) (name : RoutineName)
    (params : Option (List ParamDecl)) (result : Option TypeExpr) :
    (heading classMethod word name params result).Rejecting := by
  simp [heading]

@[simp]
theorem callableOf_rejecting (h : RoutineHead) (directives : List Directive)
    (visibility : Visibility) : (callableOf h directives visibility).Rejecting := by
  simp [callableOf]

@[simp]
theorem plainDirective_rejecting (t : Token) : (plainDirective t).Rejecting := by
  simp [plainDirective]

@[simp]
theorem dotted_rejecting (name : Text) : (dotted name).Rejecting := by
  unfold dotted
  split
  · simp
  · exact .bind .node fun _ => .foldlM (by simp) _ _

@[simp]
theorem recordOf_rejecting (packed : Bool) (members : Option MemberList)
    (variant : Option VariantPart) : (recordOf packed members variant).Rejecting := by
  refine .bind (.forIn (fun m _ => ?_) _ _) fun _ => by simp
  split <;> simp

@[simp]
theorem variantCaseOf_rejecting (labels : List Expr) (groups : List VarGroup) :
    (variantCaseOf labels groups).Rejecting :=
  .bind .node fun _ => .bind (.mapM (by simp) groups) fun _ => .pure _

@[simp]
theorem addMember_rejecting (l : MemberList) (m : PendingMember) : (addMember l m).Rejecting := by
  cases m <;> simp [addMember]

@[simp]
theorem strictly_rejecting (word : Token) (v : Visibility) : (strictly word v).Rejecting := by
  simp [strictly]

@[simp]
theorem handlerOf_rejecting (var name : Text) (body : Stmt) :
    (handlerOf var name body).Rejecting := by
  simp [handlerOf]

@[simp]
theorem integerOf_rejecting (t : Token) : (integerOf t).Rejecting := by
  unfold integerOf
  split <;> simp

@[simp]
theorem realOf_rejecting (t : Token) : (realOf t).Rejecting := by
  unfold realOf
  split <;> simp

@[simp]
theorem stringOf_rejecting (t : Token) : (stringOf t).Rejecting := by
  unfold stringOf
  split <;> simp

@[simp]
theorem callOf_rejecting (callee : Expr) (args : List Expr) : (callOf callee args).Rejecting := by
  unfold callOf
  split <;> simp

@[simp]
theorem stringCall_rejecting (e : Expr) : (stringCall e).Rejecting := by
  simp [stringCall]

end Helpers

/-- The property holds of what a function gives for all values of the symbols. -/
def Always {α : Type} (P : α → Prop) : (ss : List Sym) → Curried (ss.map Sym.shape) α → Prop
  | [], a => P a
  | s :: ss, f => ∀ v : s.shape.Val, Always P ss (f v)

/-- A rule that, whatever the values of its parts, fails only by rejecting the source. -/
def Rejecting (r : Rule) : Prop := Always Build.Rejecting r.rhs r.builder

/-- A label is a token. -/
example : Phrase.labelId.shape = .token := by decide +kernel

theorem goals_rejecting : ∀ r ∈ goals, r.Rejecting := by
  -- The types of all parts are computed first, so that the builders show their own forms.
  simp only [goals, List.forall_mem_cons]
  dsimp only [Rejecting, rule, Always, Phrase.shape, Sym.shape, Shape.Val]
  simp

theorem names_rejecting : ∀ r ∈ names, r.Rejecting := by
  simp only [names, List.forall_mem_cons, List.forall_mem_append, List.forall_mem_map]
  dsimp only [Rejecting, rule, Always, Phrase.shape, Sym.shape, Shape.Val]
  simp

theorem sections_rejecting : ∀ r ∈ sections, r.Rejecting := by
  simp only [sections, blocks, constantSections, variableSections, List.forall_mem_cons,
    List.forall_mem_append]
  dsimp only [Rejecting, rule, Always, Phrase.shape, Sym.shape, Shape.Val]
  simp

theorem routines_rejecting : ∀ r ∈ routines, r.Rejecting := by
  simp only [routines, headings, parameterLists, directives, List.forall_mem_cons,
    List.forall_mem_append, List.forall_mem_map]
  dsimp only [Rejecting, rule, Always, Phrase.shape, Sym.shape, Shape.Val]
  simp

theorem types_rejecting : ∀ r ∈ types, r.Rejecting := by
  simp only [types, simpleTypes, structuredTypes, classTypes, variantParts, List.forall_mem_cons,
    List.forall_mem_append]
  dsimp only [Rejecting, rule, Always, Phrase.shape, Sym.shape, Shape.Val]
  simp

theorem members_rejecting : ∀ r ∈ members, r.Rejecting := by
  simp only [members, memberLists, properties, List.forall_mem_cons, List.forall_mem_append]
  dsimp only [Rejecting, rule, Always, Phrase.shape, Sym.shape, Shape.Val]
  simp

theorem statements_rejecting : ∀ r ∈ statements, r.Rejecting := by
  simp only [statements, simpleStatements, choices, loops, handlers, List.forall_mem_cons,
    List.forall_mem_append]
  dsimp only [Rejecting, rule, Always, Phrase.shape, Sym.shape, Shape.Val]
  simp

theorem expressions_rejecting : ∀ r ∈ expressions, r.Rejecting := by
  simp only [expressions, operations, primaries, designators, typedConstants,
    List.forall_mem_cons, List.forall_mem_append, List.forall_mem_map]
  dsimp only [Rejecting, rule, ruleAs, Always, Phrase.shape, Sym.shape, Shape.Val]
  simp

theorem all_rejecting : ∀ r ∈ all, r.Rejecting := by
  simp only [all, List.forall_mem_append]
  exact ⟨⟨⟨⟨⟨⟨⟨goals_rejecting, names_rejecting⟩, sections_rejecting⟩, routines_rejecting⟩,
    types_rejecting⟩, members_rejecting⟩, statements_rejecting⟩, expressions_rejecting⟩

end ObjectPascal.Rule

/-!
Values keep to their shapes. A value on the stack has the shape of the symbol at the root of its
tree, since a token gives a token and a rule gives what its phrase asks for. So the builder of every
reduction finds the values it takes, and a parse ends with a goal or with a rejection.
-/

namespace ObjectPascal.Rule

open Grammar (Tree Tables Move Run Parsing Configuration)

/-- The builder of a rule finds what it takes among values of the right shapes, and what holds
whatever the values are holds of what it gives. -/
theorem exists_applyTo {α : Type} {P : α → Prop} {syms : List Sym}
    {f : Curried (syms.map Sym.shape) α} (hf : Always P syms f) {vs : List Value}
    (hvs : vs.map Sigma.fst = syms.map Sym.shape) :
    ∃ a, applyTo (syms.map Sym.shape) f vs = some a ∧ P a := by
  induction syms generalizing vs with
  | nil =>
    obtain rfl : vs = [] := List.map_eq_nil_iff.mp hvs
    exact ⟨f, rfl, hf⟩
  | cons sym syms ih =>
    cases vs with
    | nil => cases hvs
    | cons v vs =>
      obtain ⟨shape, v⟩ := v
      obtain ⟨hshape, hrest⟩ := List.cons.inj hvs
      obtain rfl : shape = sym.shape := hshape
      obtain ⟨a, ha, hP⟩ := ih (hf v) hrest
      exact ⟨a, (dif_pos rfl).trans ha, hP⟩

theorem ofProduction_mem {i : Nat} {r : Rule} (h : ofProduction? i = some r) : r ∈ all :=
  (tells_of_production h).1

/-- Each production that can be reduced has a rule that says the same. -/
theorem exists_ofProduction {i : Nat} (hi : i < grammar.productions.size) (hne : i ≠ 0) :
    ∃ r, ofProduction? i = some r ∧
      grammar.Denotes (.nonterminal (grammar.production i).lhs) (Sym.phrase r.lhs).part ∧
      List.Forall₂ grammar.Denotes (grammar.production i).rhs (r.rhs.map Sym.part) := by
  obtain ⟨r, hget, hlhs, hrhs⟩ := grammar_numbered.exists_rule hi hne
  refine ⟨r, ?_, hlhs, hrhs⟩
  obtain ⟨j, rfl⟩ := Nat.exists_eq_succ_of_ne_zero hne
  simpa [ofProduction?, table] using hget

variable {config : Config} {origin : Nat}

theorem valueOf_eq_reduction {i : Nat} {r : Rule} (hr : ofProduction? i = some r)
    (c : Configuration Value Goal Nat) (args : List Value) :
    c.valueOf (semantics config origin) i args =
      reduction config origin r (c.lineOf (semantics config origin) args) args c.memory := by
  simp [Configuration.valueOf, semantics, hr]

/-- What a reduction gives has the shape of the phrase, and a phrase for a whole source completes
the parse. -/
theorem reduction_eq_ok {r : Rule} {line last : Nat} {args : List Value}
    {e : Grammar.Reduced Value Goal Nat} (h : reduction config origin r line args last = .ok e) :
    ∃ v : r.lhs.shape.Val, e.value = ⟨r.lhs.shape, v⟩ ∧ e.goal = goalOf r.lhs v := by
  unfold reduction at h
  split at h
  · cases h
  · rename_i b _
    cases hrun : b ⟨line, config, origin⟩ last with
    | error f =>
      rw [hrun] at h
      cases h
    | ok p =>
      rw [hrun] at h
      cases h
      exact ⟨p.1, rfl, rfl⟩

/-- On values of the right shapes a reduction fails only by rejecting the source. -/
theorem reduction_eq_error {r : Rule} (hr : r ∈ all) {line last : Nat} {args : List Value}
    (hargs : args.map Sigma.fst = r.rhs.map Sym.shape) {f : Grammar.Failure}
    (h : reduction config origin r line args last = .error f) :
    ∃ place message, f = .rejection place message := by
  obtain ⟨b, hb, hrejects⟩ := exists_applyTo (all_rejecting r hr) hargs
  rw [reduction, hb] at h
  cases hrun : b ⟨line, config, origin⟩ last with
  | error f' =>
    have hf := hrejects _ _ _ hrun
    simp only [hrun] at h
    cases h
    exact hf
  | ok p =>
    simp only [hrun] at h
    cases h

/-- The value has the shape of the symbol. -/
def Shaped (g : Grammar) (x : Symbol) (v : Value) : Prop :=
  ∃ sym : Sym, g.Denotes x sym.part ∧ v.1 = sym.shape

/-- What is computed from a parse tree has the shape of the symbol at its root. -/
theorem shaped_of_computes {tree : Tree} {v : Value} (hv : tree.Valid grammar)
    (hroot : tree.root grammar ≠ .nonterminal 0)
    (h : (semantics config origin).Computes tree v) : Shaped grammar (tree.root grammar) v := by
  cases h with
  | leaf token => exact ⟨.token token.kind, rfl, rfl⟩
  | @node i children args c e _ hvalue =>
    cases hv with
    | node _ _ hi _ _ =>
      have hne : i ≠ 0 := by
        rintro rfl
        exact hroot (congrArg _ grammar_numbered.built.wellFormed.goal_lhs)
      obtain ⟨r, hr, hlhs, _⟩ := exists_ofProduction hi hne
      rw [valueOf_eq_reduction hr] at hvalue
      obtain ⟨w, hw, _⟩ := reduction_eq_ok hvalue
      exact ⟨.phrase r.lhs, hlhs, congrArg Sigma.fst hw⟩

/-- Values with the shapes of symbols have those of the rule that the symbols are the right-hand
side of. -/
theorem shapes_eq {g : Grammar} {xs : List Symbol} {vs : List Value} {syms : List Sym}
    (hv : List.Forall₂ (Shaped g) xs vs) (hs : List.Forall₂ g.Denotes xs (syms.map Sym.part)) :
    vs.map Sigma.fst = syms.map Sym.shape := by
  induction hv generalizing syms with
  | nil =>
    obtain rfl : syms = [] := List.map_eq_nil_iff.mp (List.forall₂_nil_left_iff.mp hs)
    rfl
  | cons hfirst _ ih =>
    cases syms with
    | nil => cases hs
    | cons sym syms =>
      obtain ⟨hdenotes, hrest⟩ := List.forall₂_cons.mp hs
      obtain ⟨sym', hdenotes', hshape⟩ := hfirst
      rw [List.map_cons, List.map_cons, ih hrest, hshape,
        Numbered.sym_unique hdenotes' hdenotes]

section Machine

variable {t : Tables} {ms : List Move} {c : Configuration Value Goal Nat}

/-- A reduction that the tables allow finds values of the shapes that its rule takes. -/
theorem args_shaped (ht : grammar.tables = .ok t) {ts : List Tree}
    (h : Parsing grammar (semantics config origin) ms c ts) {i : Nat} (hi : t.Reduces c.top i) :
    ∃ r, ofProduction? i = some r ∧ (c.args t i).map Sigma.fst = r.rhs.map Sym.shape := by
  have hw := grammar_numbered.built.wellFormed
  have hr := grammar_numbered.unreserved
  obtain ⟨hlt, _, hroots, _⟩ := Tables.Reduces.finds hw hr ht h.path hi
  obtain ⟨r, hrule, _, hrhs⟩ := exists_ofProduction hlt (hi.complete hw hr ht).1
  refine ⟨r, hrule, shapes_eq ?_ hrhs⟩
  rw [Configuration.args, (Grammar.tables_spec ht).2.1]
  generalize hn : (grammar.production i).rhs.length = n at hroots
  rw [← List.map_take, ← List.map_reverse] at hroots
  have hvalues : List.Forall₂ (semantics config origin).Computes (ts.take n).reverse
      (c.values.take n).reverse :=
    List.forall₂_reverse_iff.mpr (List.forall₂_take n h.values)
  -- No rule uses the goal of the whole input, so each tree is a token or the work of a rule.
  have htrees : ∀ tree ∈ (ts.take n).reverse,
      tree.Valid grammar ∧ tree.root grammar ≠ .nonterminal 0 := by
    intro tree htree
    refine ⟨h.valid tree (List.mem_of_mem_take (List.mem_reverse.mp htree)), fun hzero => ?_⟩
    have hmem := List.mem_map_of_mem (f := Tree.root grammar) htree
    rw [hroots, hzero] at hmem
    exact hr.2 i hlt hmem
  rw [← hroots, List.forall₂_map_left_iff]
  refine ((List.forall₂_and_left _ _).mpr ⟨htrees, hvalues⟩).imp ?_
  rintro tree v ⟨⟨hvalid, hroot⟩, hcomputes⟩
  exact shaped_of_computes hvalid hroot hcomputes

theorem goalOf_isSome {p : Phrase} (h : p = .goal) (v : p.shape.Val) : (goalOf p v).isSome := by
  subst h
  rfl

/-- The goal is known as soon as a phrase for a whole source is reduced, and stays known. -/
theorem goal_of_reduced {supply : Supply} {memory : Nat}
    (h : Run t (semantics config origin) { supply, memory } ms c) {i : Nat} {r : Rule}
    (hr : ofProduction? i = some r) (hgoal : r.lhs = .goal) (hi : i ∈ Grammar.reduced ms) :
    c.goal.isSome := by
  induction h with
  | refl => cases hi
  | @tail ms c c' _ hs ih =>
    rcases Configuration.step_eq_more hs with ⟨q, _, hmove, rfl⟩ | ⟨j, hmove, _⟩
    · rw [hmove] at hi
      simpa using ih (by simpa using hi)
    · obtain ⟨c₁, _, _, hsame, hred⟩ := Configuration.reduce_of_step hs hmove
      obtain ⟨e, q, hvalue, _, rfl⟩ := Configuration.reduce_eq_more hred
      rw [hmove, Option.toList_some, Grammar.reduced_append, Grammar.reduced_reduce,
        List.mem_append, List.mem_singleton] at hi
      -- A reduction keeps the goal unless it gives one itself.
      simp only [Option.orElse_eq_orElse, Option.orElse_eq_or, Option.isSome_or, Bool.or_eq_true,
        hsame]
      rcases hi with hi | rfl
      · exact Or.inr (ih hi)
      · rw [valueOf_eq_reduction hr] at hvalue
        obtain ⟨v, _, hv⟩ := reduction_eq_ok hvalue
        rw [hv]
        exact Or.inl (goalOf_isSome hgoal v)

/-- Where the tables accept, the last reduction was by a rule for a whole source. -/
theorem goal_of_accepting (ht : grammar.tables = .ok t) {supply : Supply} {memory : Nat}
    (h : Run t (semantics config origin) { supply, memory } ms c) (ha : c.Accepting t) :
    c.goal.isSome := by
  have hw := grammar_numbered.built.wellFormed
  have hr := grammar_numbered.unreserved
  obtain ⟨tree, hts, hroot⟩ := Grammar.accepting_parse hw hr ht h ha
  obtain ⟨n, hn, hname⟩ := grammar_numbered.start
  have hright := (hts.derivation hroot).1
  rw [hn] at hright
  -- The start symbol is not what was shifted, so some reduction has produced it.
  have hterminals : ((Grammar.shifted ms).map fun token => Symbol.terminal token.kind) ≠
      [.nonterminal n] := by
    intro heq
    have hmem := heq ▸ List.mem_singleton_self (Symbol.nonterminal n)
    obtain ⟨token, _, htoken⟩ := List.mem_map.mp hmem
    cases htoken
  obtain ⟨i, hi, hlt, hlhs⟩ := hright.exists_first hterminals
  have hne : i ≠ 0 := by
    rintro rfl
    rw [← hlhs, hw.goal_lhs] at hname
    exact grammar_numbered.zero_denotes (a := .phrase .goal) hname
  obtain ⟨r, hrule, hdenotes, _⟩ := exists_ofProduction hlt hne
  rw [hlhs] at hdenotes
  have hgoal := Numbered.sym_unique hdenotes (b := .phrase .goal) hname
  exact goal_of_reduced h hrule (Sym.phrase.inj hgoal) (List.mem_reverse.mp hi)

/-- A step of a parse fails only by rejecting the source. -/
theorem rejection_of_failed (ht : grammar.tables = .ok t) {supply : Supply} {memory : Nat}
    (h : Run t (semantics config origin) { supply, memory } ms c) {f : Grammar.Failure}
    {c' : Configuration Value Goal Nat}
    (hfail : c.step t (semantics config origin) = .failed f c') :
    ∃ place message, f = .rejection place message := by
  have hw := grammar_numbered.built.wellFormed
  have hr := grammar_numbered.unreserved
  obtain ⟨ts, hts⟩ := Parsing.of_run hw hr ht h
  rcases hts.step_eq_failed hw hr ht hfail with
    ⟨_, message, rfl⟩ | ⟨i, hmove, hvalue⟩ | ⟨haccept, hnone, _⟩
  · exact ⟨_, message, rfl⟩
  · obtain ⟨r, hrule, hargs⟩ := args_shaped ht hts (Configuration.reduces_of_move hmove)
    rw [valueOf_eq_reduction hrule, valueOf_eq_reduction hrule] at hvalue
    rcases hvalue with hvalue | hvalue
    · exact reduction_eq_error (ofProduction_mem hrule) hargs hvalue
    · exact reduction_eq_error (ofProduction_mem hrule) hargs hvalue
  · have hgoal := goal_of_accepting ht h haccept
    rw [hnone] at hgoal
    cases hgoal

/-- Any number of steps of a parse leads on, to a goal, or to a rejection. -/
theorem run_rejects (ht : grammar.tables = .ok t) (supply : Supply) (memory n : Nat)
    {f : Grammar.Failure} {c' : Configuration Value Goal Nat}
    (h : Configuration.run t (semantics config origin) n { supply, memory } = .failed f c') :
    ∃ place message, f = .rejection place message := by
  obtain ⟨ms, c, hrun, hmore | ⟨hlast, _⟩⟩ :=
    Grammar.exists_run (t := t) (s := semantics config origin) n { supply, memory }
  · rw [hmore] at h
    cases h
  · rw [hlast] at h
    exact rejection_of_failed ht hrun h

end Machine

/-- Wherever a parse of a source in any dialect comes to, each reduction that the tables allow there
finds values of the shapes that its rule takes, so its builder can be applied to them; acceptance
finds a goal; and a step that fails rejects the source. So a parse that ends gives a goal or a
rejection, after however many steps. -/
theorem parse_gives_goal_or_rejection (config : Config) (source : Text) (origin : Nat) :
    ∃ t, languageTables = .ok t ∧
      (∀ ms c, Run t (semantics config origin) { supply := .ofText source, memory := 0 } ms c →
        (∀ i, t.Reduces c.top i → ∃ r, ofProduction? i = some r ∧
          (c.args t i).map Sigma.fst = r.rhs.map Sym.shape ∧
          ∃ b, applyTo (r.rhs.map Sym.shape) r.builder (c.args t i) = some b) ∧
        (c.Accepting t → ∃ goal, c.goal = some goal) ∧
        ∀ f c', c.step t (semantics config origin) = .failed f c' →
          ∃ place message, f = .rejection place message) ∧
      (∀ n f c, Configuration.run t (semantics config origin) n
          { supply := .ofText source, memory := 0 } = .failed f c →
        ∃ place message, f = .rejection place message) ∧
      ((∃ goal, (parse config source origin).result = .ok goal) ∨
        (∃ place message, (parse config source origin).result =
          .error (.rejection place message)) ∨
        ∃ c, t.parse (semantics config origin) (.ofText source) 0 = .more c) := by
  obtain ⟨t, hlang⟩ := exists_languageTables
  have ht : grammar.tables = .ok t := by rwa [languageTables] at hlang
  have hw := grammar_numbered.built.wellFormed
  have hr := grammar_numbered.unreserved
  refine ⟨t, hlang, fun ms c hrun => ⟨fun i hi => ?_, fun ha => ?_, fun f c' hfail => ?_⟩,
    fun n f c hfail => run_rejects ht _ _ n hfail, ?_⟩
  · obtain ⟨ts, hts⟩ := Parsing.of_run hw hr ht hrun
    obtain ⟨r, hrule, hargs⟩ := args_shaped ht hts hi
    obtain ⟨b, hb, _⟩ := exists_applyTo (all_rejecting r (ofProduction_mem hrule)) hargs
    exact ⟨r, hrule, hargs, b, hb⟩
  · exact Option.isSome_iff_exists.mp (goal_of_accepting ht hrun ha)
  · exact rejection_of_failed ht hrun hfail
  · rw [parse, hlang, parseBy]
    cases hend : t.parse (semantics config origin) (.ofText source) 0 with
    | more c => exact Or.inr (Or.inr ⟨c, rfl⟩)
    | accepted goal c => exact Or.inl ⟨goal, rfl⟩
    | failed f c =>
      obtain ⟨place, message, rfl⟩ := run_rejects ht _ _ _ hend
      exact Or.inr (Or.inl ⟨place, message, rfl⟩)

end ObjectPascal.Rule
