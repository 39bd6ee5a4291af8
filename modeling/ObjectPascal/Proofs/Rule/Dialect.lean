import ObjectPascal.Proofs.Rule.Layout

/-!
What dialects have to do with building. A builder asks the dialect only whether it has the feature
that a construct needs, and refuses the construct if not. So builders do the same in a dialect with
more features, except where the dialect with fewer refuses one of a few constructs.
-/

namespace ObjectPascal.Rule

/-- A construct that not all dialects have: the feature that it needs, the line on which it begins
and the wording for it. -/
structure Demand where
  feature : Feature
  line : Nat
  what : Text

/-- The refusal of a construct. -/
def Demand.refusal (q : Demand) (c : Config) : Grammar.Failure :=
  .rejection ⟨q.line, 0⟩ (q.what ++ " not supported by dialect " ++ c.version)

theorem require_eq (f : Feature) (line : Nat) (what : Text) (site : Site) (last : Nat) :
    require f line what site last =
      if site.config.supports f then .ok ((), last)
      else .error (Demand.refusal ⟨f, line, what⟩ site.config) := by
  change (if site.config.supports f = true then (pure () : Build Unit) else reject line _) site
    last = _
  split <;> rfl

/-- A builder does the same in two dialects, or the first one lacks what the builder demands and
refuses it. -/
def Build.Steady {α : Type} (c d : Config) (P : Demand → Prop) (b : Build α) : Prop :=
  ∀ line origin last, b ⟨line, c, origin⟩ last = b ⟨line, d, origin⟩ last ∨
    ∃ q, P q ∧ c.supports q.feature = false ∧ b ⟨line, c, origin⟩ last = .error (q.refusal c)

namespace Build.Steady

variable {α β : Type} {c d : Config} {P : Demand → Prop}

@[simp]
theorem pure (a : α) : Steady c d P (Pure.pure a : Build α) := fun _ _ _ => .inl rfl

@[simp]
theorem give (a : α) : Steady c d P (Rule.give a) := pure a

@[simp]
theorem build {b : Build α} : Steady c d P (Rule.build b) ↔ Steady c d P b := Iff.rfl

@[simp]
theorem bind {b : Build α} {k : α → Build β} (hb : Steady c d P b) (hk : ∀ a, Steady c d P (k a)) :
    Steady c d P (b >>= k) := by
  intro line origin last
  change (b _ last >>= fun e => k e.1 _ e.2) = (b _ last >>= fun e => k e.1 _ e.2) ∨
    ∃ q, P q ∧ _ ∧ (b _ last >>= fun e => k e.1 _ e.2) = _
  rcases hb line origin last with hsame | ⟨q, hq, hlacks, hrefused⟩
  · rw [hsame]
    cases b ⟨line, d, origin⟩ last with
    | error f => exact .inl rfl
    | ok e => exact hk e.1 line origin e.2
  · rw [hrefused]
    exact .inr ⟨q, hq, hlacks, rfl⟩

@[simp]
theorem map {b : Build α} (f : α → β) (hb : Steady c d P b) : Steady c d P (f <$> b) := by
  rw [← bind_pure_comp]
  exact bind hb fun a => pure (f a)

@[simp]
theorem ite {p : Prop} [Decidable p] {a b : Build α} :
    Steady c d P (if p then a else b) ↔ (p → Steady c d P a) ∧ (¬p → Steady c d P b) := by
  split <;> simp [*]

@[simp]
theorem mapM {k : α → Build β} (hk : ∀ a, Steady c d P (k a)) (l : List α) :
    Steady c d P (l.mapM k) := by
  induction l with
  | nil => exact pure []
  | cons a l ih =>
    rw [List.mapM_cons]
    exact bind (hk a) fun b => bind ih fun bs => pure (b :: bs)

@[simp]
theorem foldlM {k : β → α → Build β} (hk : ∀ b a, Steady c d P (k b a)) (b : β) (l : List α) :
    Steady c d P (l.foldlM k b) := by
  induction l generalizing b with
  | nil => exact pure b
  | cons a l ih =>
    rw [List.foldlM_cons]
    exact bind (hk b a) ih

theorem forIn {l : List α} {k : α → β → Build (ForInStep β)}
    (hk : ∀ a ∈ l, ∀ b, Steady c d P (k a b)) (b : β) : Steady c d P (ForIn.forIn l b k) := by
  induction l generalizing b with
  | nil => exact pure b
  | cons a l ih =>
    rw [List.forIn_cons]
    obtain ⟨ha, hl⟩ := List.forall_mem_cons.mp hk
    refine bind (ha b) fun step => ?_
    cases step with
    | done b => exact pure b
    | yield b => exact ih hl b

@[simp]
theorem nodeAt (line : Nat) : Steady c d P (Rule.nodeAt line) := fun _ _ _ => .inl rfl

@[simp]
theorem node : Steady c d P Rule.node := fun _ _ _ => .inl rfl

@[simp]
theorem reject (line : Nat) (message : Text) :
    Steady c d P (Rule.reject line message : Build α) := fun _ _ _ => .inl rfl

/-- The line of the phrase is the same in both dialects. -/
theorem line {k : Nat → Build α} (hk : ∀ line, Steady c d P (k line)) :
    Steady c d P (do k (← read).line) := fun line origin last => hk line line origin last

/-- What the second dialect has as soon as the first one has it is refused by the first one only. -/
theorem require {f : Feature} {line : Nat} {what : Text}
    (h : c.supports f = true → d.supports f = true) (hq : P ⟨f, line, what⟩) :
    Steady c d P (Rule.require f line what) := by
  intro here origin last
  rw [require_eq, require_eq]
  cases hc : c.supports f with
  | true =>
    rw [h hc]
    exact .inl rfl
  | false => exact .inr ⟨_, hq, hc, rfl⟩

end Build.Steady

/-- What a rule demands of the dialect, given the values of its parts. -/
inductive Asks : Phrase → List Sym → List Value → Demand → Prop
  | forIn (word : Token) (vs : List Value) :
    Asks .stmt
      [.token .FOR, .phrase .identifier, .token .IN, .phrase .expr, .token .DO, .phrase .stmt]
      (⟨.token, word⟩ :: vs) ⟨.forIn, word.line, "for-in loops"⟩
  | strictVisibility {k : Kind} (hk : k = .PRIVATE ∨ k = .PROTECTED) (word : Token)
      (vs : List Value) :
    Asks .visibility [.token .STRICT, .token k] (⟨.token, word⟩ :: vs)
      ⟨.strictVisibility, word.line, "strict visibility"⟩
  | inlining {k : Kind} {word : Token} (hword : word.kind = .INLINE) :
    Asks .directive [.token k] [⟨.token, word⟩] ⟨.inlining, word.line, "inline routines"⟩
  | recordMethods {rhs : List Sym} {vs : List Value} {l : MemberList} {m : Member}
      (hl : (.phrase .membersOpt, ⟨.opt .members, some l⟩) ∈ rhs.zip vs) (hm : m ∈ l.items)
      (hfield : ∀ d, m ≠ .var d) :
    Asks .recordType rhs vs
      ⟨.recordMethods, m.info.line, "records with methods or properties"⟩

/-- The same is built by a rule in both dialects, unless the first one lacks what the rule
demands. -/
def Steady (c d : Config) (r : Rule) : Prop :=
  AlwaysOf (fun vs b => b.Steady c d (Asks r.lhs r.rhs vs)) r.rhs [] r.builder

section Helpers

variable {c d : Config} {P : Demand → Prop}

@[simp]
theorem groupDecls_steady (kind : VarKind) (visibility : Visibility) (g : VarGroup) :
    (groupDecls kind visibility g).Steady c d P := by
  simp [groupDecls]

@[simp]
theorem variableSection_steady (kind : VarKind) (gs : List VarGroup) :
    (variableSection kind gs).Steady c d P := by
  simp [variableSection]

@[simp]
theorem declareType_steady (name : Token) (t : TypeExpr) :
    (declareType name t).Steady c d P := by
  simp [declareType]

@[simp]
theorem parameters_steady (kind : ParamKind) (names : List Token) (type : Option TypeExpr)
    (default : Option Expr) : (parameters kind names type default).Steady c d P := by
  have hdecls : Build.Steady c d P (names.mapM fun t => do
      return ({ info := ← nodeAt t.line, name := t.text, kind, type, default } : ParamDecl)) := by
    simp
  exact Build.Steady.ite.mpr ⟨fun _ => .bind (.reject _ _) fun _ => hdecls, fun _ => hdecls⟩

@[simp]
theorem heading_steady (classMethod : Bool) (word : Token) (name : RoutineName)
    (params : Option (List ParamDecl)) (result : Option TypeExpr) :
    (heading classMethod word name params result).Steady c d P := by
  simp [heading]

@[simp]
theorem callableOf_steady (h : RoutineHead) (directives : List Directive)
    (visibility : Visibility) : (callableOf h directives visibility).Steady c d P := by
  simp [callableOf]

@[simp]
theorem dotted_steady (name : Text) : (dotted name).Steady c d P := by
  unfold dotted
  split
  · simp
  · exact .bind .node fun _ => .foldlM (by simp) _ _

@[simp]
theorem variantCaseOf_steady (labels : List Expr) (groups : List VarGroup) :
    (variantCaseOf labels groups).Steady c d P :=
  .bind .node fun _ => .bind (.mapM (by simp) groups) fun _ => .pure _

@[simp]
theorem addMember_steady (l : MemberList) (m : PendingMember) :
    (addMember l m).Steady c d P := by
  cases m <;> simp [addMember]

@[simp]
theorem handlerOf_steady (var name : Text) (body : Stmt) :
    (handlerOf var name body).Steady c d P := by
  simp [handlerOf]

@[simp]
theorem integerOf_steady (t : Token) : (integerOf t).Steady c d P := by
  unfold integerOf
  split <;> simp

@[simp]
theorem realOf_steady (t : Token) : (realOf t).Steady c d P := by
  unfold realOf
  split <;> simp

@[simp]
theorem stringOf_steady (t : Token) : (stringOf t).Steady c d P := by
  unfold stringOf
  split <;> simp

@[simp]
theorem callOf_steady (callee : Expr) (args : List Expr) : (callOf callee args).Steady c d P := by
  unfold callOf
  split <;> simp

@[simp]
theorem stringCall_steady (e : Expr) : (stringCall e).Steady c d P := by
  simp [stringCall]

end Helpers

section Constructs

variable {c d : Config} (h : ∀ f, c.supports f = true → d.supports f = true)

include h

theorem plainDirective_steady (k : Kind) (word : Token) :
    (plainDirective word).Steady c d (Asks .directive [.token k] [⟨.token, word⟩]) := by
  refine Build.Steady.ite.mpr ⟨fun hword => ?_, fun _ => .pure _⟩
  have hkind : word.kind = .INLINE := by simpa using hword
  exact .bind (.require (h _) (.inlining hkind)) fun _ => .pure _

theorem strictly_steady {k : Kind} (hk : k = .PRIVATE ∨ k = .PROTECTED) (word : Token)
    (vs : List Value) (v : Visibility) :
    (strictly word v).Steady c d
      (Asks .visibility [.token .STRICT, .token k] (⟨.token, word⟩ :: vs)) :=
  .bind (.require (h _) (.strictVisibility hk word vs)) fun _ => .pure _

theorem recordOf_steady {rhs : List Sym} {vs : List Value} (packed : Bool)
    {members : Option MemberList}
    (hvs : (.phrase .membersOpt, ⟨.opt .members, members⟩) ∈ rhs.zip vs) (variant : Option VariantPart) :
    (recordOf packed members variant).Steady c d (Asks .recordType rhs vs) := by
  refine .bind (.forIn (fun m hm _ => ?_) _) fun _ => by simp
  cases members with
  | none => cases hm
  | some l =>
    split
    · simp
    · rename_i hfield
      exact .bind (.require (h _) (.recordMethods hvs hm hfield)) fun _ => .pure _

end Constructs

section Rules

variable {c d : Config}

theorem goals_steady : ∀ r ∈ goals, r.Steady c d := by
  simp only [goals, List.forall_mem_cons]
  -- The types of all parts are computed first, so that the builders show their own forms.
  dsimp only [Steady, rule, AlwaysOf, Phrase.shape, Sym.shape, Shape.Val]
  simp

theorem names_steady : ∀ r ∈ names, r.Steady c d := by
  simp only [names, List.forall_mem_cons, List.forall_mem_append, List.forall_mem_map]
  dsimp only [Steady, rule, AlwaysOf, Phrase.shape, Sym.shape, Shape.Val]
  simp

theorem sections_steady : ∀ r ∈ sections, r.Steady c d := by
  simp only [sections, blocks, constantSections, variableSections, List.forall_mem_cons,
    List.forall_mem_append]
  dsimp only [Steady, rule, AlwaysOf, Phrase.shape, Sym.shape, Shape.Val]
  simp
  exact fun names _ type init _ _ _ => .line fun line => .map _ (.reject line _)

variable (h : ∀ f, c.supports f = true → d.supports f = true)

include h

theorem routines_steady : ∀ r ∈ routines, r.Steady c d := by
  simp only [routines, headings, parameterLists, directives, List.forall_mem_cons,
    List.forall_mem_append, List.forall_mem_map]
  dsimp only [Steady, rule, AlwaysOf, Phrase.shape, Sym.shape, Shape.Val]
  simp
  exact fun k _ word => plainDirective_steady h k word

theorem types_steady : ∀ r ∈ types, r.Steady c d := by
  simp only [types, simpleTypes, structuredTypes, classTypes, variantParts, List.forall_mem_cons,
    List.forall_mem_append]
  dsimp only [Steady, rule, AlwaysOf, Phrase.shape, Sym.shape, Shape.Val]
  simp
  exact ⟨fun _ ms v _ => recordOf_steady h false (by simp) v,
    fun _ _ ms v _ => recordOf_steady h true (by simp) v⟩

theorem members_steady : ∀ r ∈ members, r.Steady c d := by
  simp only [members, memberLists, properties, List.forall_mem_cons, List.forall_mem_append]
  dsimp only [Steady, rule, AlwaysOf, Phrase.shape, Sym.shape, Shape.Val]
  simp
  exact ⟨fun word _ => strictly_steady h (.inl rfl) word _ _,
    fun word _ => strictly_steady h (.inr rfl) word _ _⟩

theorem statements_steady : ∀ r ∈ statements, r.Steady c d := by
  simp only [statements, simpleStatements, choices, loops, handlers, List.forall_mem_cons,
    List.forall_mem_append]
  dsimp only [Steady, rule, AlwaysOf, Phrase.shape, Sym.shape, Shape.Val]
  simp
  exact fun word var _ e _ s => .bind (.require (h _) (.forIn word _)) fun _ => .map _ .node

omit h in
theorem expressions_steady : ∀ r ∈ expressions, r.Steady c d := by
  simp only [expressions, operations, primaries, designators, typedConstants,
    List.forall_mem_cons, List.forall_mem_append, List.forall_mem_map]
  dsimp only [Steady, rule, ruleAs, AlwaysOf, Phrase.shape, Sym.shape, Shape.Val]
  simp

theorem all_steady : ∀ r ∈ all, r.Steady c d := by
  simp only [all, List.forall_mem_append]
  exact ⟨⟨⟨⟨⟨⟨⟨goals_steady, names_steady⟩, sections_steady⟩, routines_steady h⟩,
    types_steady h⟩, members_steady h⟩, statements_steady h⟩, expressions_steady⟩

end Rules
end ObjectPascal.Rule
