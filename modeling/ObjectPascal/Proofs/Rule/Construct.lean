import ObjectPascal.Proofs.Grammar.Reading
import ObjectPascal.Proofs.Rule.Dialect
import ObjectPascal.Proofs.Rule.Ending

/-!
A dialect with more features accepts more sources and reads no source differently. Parsed in two
such dialects a source takes the same steps, until the dialect with fewer features refuses a
construct; and that construct has a parse tree over tokens that follow one another in the source.
-/

namespace ObjectPascal.Rule

open Grammar (Tables Move Run Parsing Configuration)

section Members

/-- The phrases in which the members of a type are listed, down to the words they begin with. -/
def Phrase.listing : Phrase → Bool
  | .membersOpt | .memberSeq | .memberList | .member | .visibility | .propertyDecl | .routineHead
  | .routineKind => true
  | _ => false

/-- The words that methods and properties begin with. -/
def beginnings : List Kind := [.PROCEDURE, .FUNCTION, .CONSTRUCTOR, .DESTRUCTOR, .PROPERTY]

/-- A method or property in a list of members begins with the word. -/
inductive Begins : Grammar.Tree → Token → Prop
  | word {token : Token} (h : token.kind ∈ beginnings) : Begins (.leaf token) token
  | part {i : Nat} {r : Rule} {trees : List Grammar.Tree} {tree : Grammar.Tree} {token : Token}
      (hi : ofProduction? i = some r) (hr : r.lhs.listing = true) (htree : tree ∈ trees)
      (h : Begins tree token) : Begins (.node i trees) token

/-- The lines on which the methods and properties in a list of members begin. -/
def memberLines (l : MemberList) : List Nat :=
  l.items.filterMap fun
    | .var _ => none
    | m => some m.info.line

/-- The line on which a method or property begins that is not yet a member. -/
def PendingMember.lines : PendingMember → List Nat
  | .method h _ => [h.line]
  | .property _ _ _ _ line => [line]
  | _ => []

/-- The lines on which the methods and properties begin that a value tells of. -/
def Value.lines : Value → List Nat
  | ⟨.routineHead, h⟩ => [RoutineHead.line h]
  | ⟨.member, m⟩ => PendingMember.lines m
  | ⟨.members, l⟩ => memberLines l
  | ⟨.opt .members, some l⟩ => memberLines l
  | _ => []

/-- These lines for the value of a symbol. Words tell of their own lines. -/
def announced : Sym → Value → List Nat
  | .token k, ⟨.token, t⟩ => if k ∈ beginnings then [Token.line t] else []
  | .phrase .routineKind, ⟨.token, t⟩ => [Token.line t]
  | .phrase _, v => v.lines
  | _, _ => []

/-- A member stands in the list of a type. -/
example : Phrase.listing .member = true := by decide +kernel

theorem announced_token (k : Kind) (t : Token) :
    announced (.token k) ⟨.token, t⟩ = if k ∈ beginnings then [Token.line t] else [] := rfl

theorem announced_routineKind (t : Token) :
    announced (.phrase .routineKind) ⟨.token, t⟩ = [Token.line t] := rfl

theorem announced_phrase {p : Phrase} (h : p ≠ .routineKind) (v : Value) :
    announced (.phrase p) v = v.lines := by
  cases p <;> first | rfl | exact absurd rfl h

theorem announced_eq_nil {p : Phrase} (h : p.listing = false) (v : p.shape.Val) :
    announced (.phrase p) ⟨p.shape, v⟩ = [] := by
  cases p <;> first | rfl | cases h

/-- What a builder gives has the property. -/
def Build.Gives {α : Type} (P : α → Prop) (b : Build α) : Prop :=
  ∀ site last a last', b site last = .ok (a, last') → P a

namespace Build.Gives

variable {α β : Type} {P : α → Prop} {Q : β → Prop}

theorem pure {a : α} (h : P a) : Gives P (Pure.pure a : Build α) := by
  rintro _ _ _ _ ⟨⟩
  exact h

@[simp]
theorem give {a : α} : Gives P (Rule.give a) ↔ P a :=
  ⟨fun h => h ⟨0, default, 0⟩ 0 a 0 rfl, pure⟩

theorem bind {b : Build α} {k : α → Build β} (hb : Gives P b) (hk : ∀ a, P a → Gives Q (k a)) :
    Gives Q (b >>= k) := by
  intro site last a last' h
  change (b site last >>= fun e => k e.1 site e.2) = .ok (a, last') at h
  obtain ⟨e, hrun, h⟩ := bind_eq_ok.mp h
  exact hk e.1 (hb _ _ _ _ hrun) _ _ _ _ h

theorem reject {line : Nat} {message : Text} : Gives P (Rule.reject line message) := by
  rintro _ _ _ _ ⟨⟩

theorem ite {p : Prop} [Decidable p] {a b : Build α} (ha : Gives P a) (hb : Gives P b) :
    Gives P (if p then a else b) := by
  split
  · exact ha
  · exact hb

theorem nodeAt (line : Nat) : Gives (fun i => i.line = line) (Rule.nodeAt line) := by
  rintro _ _ _ _ ⟨⟩
  rfl

theorem any (b : Build α) : Gives (fun _ => True) b := fun _ _ _ _ _ => trivial

end Build.Gives

/-- A rule tells of no methods and properties but those that its parts tell of. -/
def Announces (r : Rule) : Prop :=
  AlwaysOf (fun vs b => b.Gives fun v =>
    announced (.phrase r.lhs) ⟨r.lhs.shape, v⟩ ⊆ (r.rhs.zip vs).flatMap fun p => announced p.1 p.2)
    r.rhs [] r.builder

theorem heading_gives (classMethod : Bool) (word : Token) (name : RoutineName)
    (params : Option (List ParamDecl)) (result : Option TypeExpr) :
    (heading classMethod word name params result).Gives fun h => h.line = word.line :=
  .ite (.bind .reject fun _ (_ : True) => .pure rfl) (.pure rfl)

theorem addMember_gives (l : MemberList) (m : PendingMember) :
    (addMember l m).Gives fun l' =>
      memberLines l' ⊆ memberLines l ++ m.lines := by
  cases m with
  | visibility v => exact .pure (List.subset_append_left _ _)
  | fields g =>
    refine .bind (.any _) fun ds _ => .pure ?_
    simp [memberLines]
  | method h ds =>
    refine .bind (P := fun d => d.info.line = h.line) ?_ fun d hd => .pure ?_
    · exact .bind (.nodeAt h.line) fun i hi => .pure hi
    · simp [memberLines, snoc, PendingMember.lines, Member.info, hd]
  | property name face specs isDefault line =>
    refine .bind (.nodeAt line) fun i hi => .pure ?_
    simp [memberLines, snoc, PendingMember.lines, Member.info, specs_same, hi]

theorem headings_announce : ∀ r ∈ headings, r.lhs.listing = true → r.Announces := by
  simp only [headings, List.forall_mem_cons]
  dsimp only [Announces, rule, AlwaysOf, Phrase.shape, Sym.shape, Shape.Val, Phrase.listing]
  simp [announced_token, announced_routineKind, announced_phrase, beginnings, Value.lines]
  exact ⟨heading_gives false, heading_gives true⟩

theorem members_announce : ∀ r ∈ members, r.lhs.listing = true → r.Announces := by
  simp only [members, memberLists, properties, List.forall_mem_cons, List.forall_mem_append]
  dsimp only [Announces, rule, AlwaysOf, Phrase.shape, Sym.shape, Shape.Val, Phrase.listing]
  have hnone (word : Token) (v : Visibility) :
      (strictly word v).Gives fun m => m.lines = [] := .bind (.any _) fun _ _ => .pure rfl
  have hfields (l : MemberList) (g : VarGroup) :
      (addMember l (.fields g)).Gives fun l' => memberLines l' ⊆ memberLines l := by
    simpa [PendingMember.lines] using addMember_gives l (.fields g)
  simp [announced_token, announced_phrase, beginnings, Value.lines, hnone, hfields]
  refine ⟨⟨fun g => ?_, addMember_gives {}, addMember_gives, fun _ => rfl,
    fun h _ => List.Subset.refl _, rfl, rfl, rfl, rfl⟩, fun word _ _ _ _ => List.Subset.refl _⟩
  simpa [memberLines] using hfields {} g

set_option maxRecDepth 20000 in
/-- The rules for lists of members stand among those for members and headings. -/
theorem listing_announces {r : Rule} (hr : r ∈ all) (hl : r.lhs.listing = true) :
    r.Announces := by
  have hother {rs : List Rule} (hrs : (rs.all fun r => !r.lhs.listing) = true) (hr : r ∈ rs) :
      r.Announces := by
    have hnot := List.all_eq_true.mp hrs r hr
    simp [hl] at hnot
  simp only [all, routines, List.mem_append] at hr
  rcases hr with ((((((hr | hr) | hr) | ((hr | hr) | hr)) | hr) | hr) | hr) | hr
  · exact hother (by decide) hr
  · exact hother (by decide) hr
  · exact hother (by decide) hr
  · exact headings_announce r hr hl
  · exact hother (by decide) hr
  · exact hother (by decide) hr
  · exact hother (by decide) hr
  · exact members_announce r hr hl
  · exact hother (by decide) hr
  · exact hother (by decide) hr

end Members

section Trees

variable {config : Config} {origin : Nat} {children : List Grammar.Tree} {tree : Grammar.Tree}

/-- The values of the parts of a rule have the shapes that it takes. -/
theorem args_of_children {syms : List Sym} {args : List Value}
    (hvalid : ∀ child ∈ children, child.Valid grammar) (hs : List.Forall₂ Stands children syms)
    (hc : List.Forall₂ (semantics config origin).Computes children args) :
    args.map Sigma.fst = syms.map Sym.shape := by
  induction hs generalizing args with
  | nil => rw [List.forall₂_nil_left_iff.mp hc]; rfl
  | @cons child a children syms hstands _ ih =>
    obtain ⟨v, args, hv, hargs, rfl⟩ := List.forall₂_cons_left_iff.mp hc
    obtain ⟨hchild, hvalid⟩ := List.forall_mem_cons.mp hvalid
    have hroot : child.root grammar ≠ .nonterminal 0 := fun hzero => by
      rw [Stands, hzero] at hstands
      exact grammar_numbered.zero_denotes hstands
    obtain ⟨b, hb, hshape⟩ := shaped_of_computes hchild hroot hv
    rw [List.map_cons, List.map_cons, hshape, Numbered.sym_unique hb hstands, ih hvalid hargs]

theorem exists_child {syms : List Sym} {args : List Value}
    (hs : List.Forall₂ Stands children syms)
    (hc : List.Forall₂ (semantics config origin).Computes children args) :
    ∀ p ∈ syms.zip args, ∃ child ∈ children, Stands child p.1 ∧
      (semantics config origin).Computes child p.2 := by
  induction hs generalizing args with
  | nil => simp
  | cons hstands _ ih =>
    obtain ⟨v, args, hv, hargs, rfl⟩ := List.forall₂_cons_left_iff.mp hc
    rw [List.zip_cons_cons, List.forall_mem_cons]
    refine ⟨⟨_, List.mem_cons_self, hstands, hv⟩, fun p hp => ?_⟩
    obtain ⟨child, hchild, h⟩ := ih hargs p hp
    exact ⟨child, List.mem_cons_of_mem _ hchild, h⟩

/-- A line that the value of a tree tells of is that of a word in the tree. -/
theorem exists_begins {v : Value} {a : Sym} (hv : tree.Valid grammar) (ha : Stands tree a)
    (hc : (semantics config origin).Computes tree v) {line : Nat} (hline : line ∈ announced a v) :
    ∃ word, Begins tree word ∧ word.line = line := by
  induction hv generalizing a v with
  | leaf token =>
    cases a with
    | phrase p => cases ha
    | token k =>
      obtain rfl : token.kind = k := ha
      cases hc
      have hmem : line ∈ if token.kind ∈ beginnings then [token.line] else [] := hline
      split at hmem
      · rename_i hk
        exact ⟨token, .word hk, (List.mem_singleton.mp hmem).symm⟩
      · cases hmem
  | node i children hi hroots hvalid ih =>
    cases a with
    | token k => cases ha
    | phrase p =>
      obtain ⟨r, hr, rfl, hchildren⟩ :=
        exists_rule_of_node (.node i children hi hroots hvalid) ha
      cases hc with
      | @node _ _ args c e hargs hvalue =>
        rw [valueOf_eq_reduction hr] at hvalue
        cases hl : r.lhs.listing with
        | false =>
          obtain ⟨w, hw, _⟩ := reduction_eq_ok hvalue
          rw [hw, announced_eq_nil hl] at hline
          cases hline
        | true =>
          obtain ⟨b, hb, hgives⟩ := exists_applyTo_of
            (listing_announces (ofProduction_mem hr) hl) (args_of_children hvalid hchildren hargs)
          rw [reduction, hb] at hvalue
          obtain ⟨⟨w, last⟩, hrun, heq⟩ := bind_eq_ok.mp hvalue
          cases heq
          obtain ⟨p, hp, hpline⟩ := List.mem_flatMap.mp (hgives _ _ _ _ hrun hline)
          obtain ⟨child, hchild, hstands, hcomputes⟩ := exists_child hchildren hargs p hp
          obtain ⟨word, hbegins, hword⟩ := ih child hchild hstands hcomputes hpline
          exact ⟨word, .part hr hl hchild hbegins, hword⟩

/-- The production is a rule for the phrase over the symbols. -/
def IsRule (i : Nat) (lhs : Phrase) (rhs : List Sym) : Prop :=
  ∃ r, ofProduction? i = some r ∧ r.lhs = lhs ∧ r.rhs = rhs

/-- The parse trees of the constructs that dialects may lack: loops over the elements of a
collection, strict visibility, inline routines, and records with a member that is no field. -/
inductive Construct : Demand → Grammar.Tree → Prop
  | forIn {i : Nat} {word : Token} {trees : List Grammar.Tree}
      (hi : IsRule i .stmt
        [.token .FOR, .phrase .identifier, .token .IN, .phrase .expr, .token .DO, .phrase .stmt]) :
    Construct ⟨.forIn, word.line, "for-in loops"⟩ (.node i (.leaf word :: trees))
  | strictVisibility {i : Nat} {k : Kind} {word : Token} {trees : List Grammar.Tree}
      (hk : k = .PRIVATE ∨ k = .PROTECTED) (hi : IsRule i .visibility [.token .STRICT, .token k]) :
    Construct ⟨.strictVisibility, word.line, "strict visibility"⟩ (.node i (.leaf word :: trees))
  | inlining {i : Nat} {word : Token} {trees : List Grammar.Tree}
      (hi : IsRule i .directive [.token .INLINE]) :
    Construct ⟨.inlining, word.line, "inline routines"⟩ (.node i (.leaf word :: trees))
  | recordMethods {i : Nat} {rhs : List Sym} {word : Token} {trees : List Grammar.Tree}
      {tree : Grammar.Tree} (hi : IsRule i .recordType rhs) (htree : tree ∈ trees)
      (hword : Begins tree word) :
    Construct ⟨.recordMethods, word.line, "records with methods or properties"⟩ (.node i trees)

/-- A parse tree stands over tokens that follow one another in a source. -/
def Occurs (source : Text) (tree : Grammar.Tree) : Prop :=
  tree.Valid grammar ∧ tree.yield <:+: (Supply.ofText source).ahead.map Prod.fst

/-- A tree with a token for its value is the leaf of the token. -/
theorem eq_leaf {k : Kind} {word : Token} (hs : Stands tree (.token k))
    (hc : (semantics config origin).Computes tree ⟨.token, word⟩) :
    tree = .leaf word ∧ word.kind = k := by
  cases tree with
  | node i children => cases hs
  | leaf token =>
    cases hc
    exact ⟨rfl, hs⟩

/-- What a rule demands of the dialect is a construct in the tree that it builds. -/
theorem construct_of_asks {i : Nat} {r : Rule} {args : List Value} {q : Demand}
    (hr : ofProduction? i = some r) (hvalid : ∀ child ∈ children, child.Valid grammar)
    (hs : List.Forall₂ Stands children r.rhs)
    (hc : List.Forall₂ (semantics config origin).Computes children args)
    (hq : Asks r.lhs r.rhs args q) : Construct q (.node i children) := by
  obtain ⟨lhs, rhs, prec, builder⟩ := r
  dsimp only at hs hq
  -- The first three constructs are refused for their first word.
  cases hq with
  | forIn word vs =>
    obtain ⟨child, rest, hchild, _, rfl⟩ := List.forall₂_cons_right_iff.mp hc
    obtain ⟨rfl, _⟩ := eq_leaf (List.forall₂_cons.mp hs).1 hchild
    exact .forIn ⟨_, hr, rfl, rfl⟩
  | strictVisibility hk word vs =>
    obtain ⟨child, rest, hchild, _, rfl⟩ := List.forall₂_cons_right_iff.mp hc
    obtain ⟨rfl, _⟩ := eq_leaf (List.forall₂_cons.mp hs).1 hchild
    exact .strictVisibility hk ⟨_, hr, rfl, rfl⟩
  | inlining hword =>
    obtain ⟨child, rest, hchild, _, rfl⟩ := List.forall₂_cons_right_iff.mp hc
    obtain ⟨rfl, rfl⟩ := eq_leaf (List.forall₂_cons.mp hs).1 hchild
    exact .inlining ⟨_, hr, rfl, by rw [hword]⟩
  | @recordMethods _ _ l m hl hm hfield =>
    obtain ⟨child, hchild, hstands, hcomputes⟩ := exists_child hs hc _ hl
    have hline : m.info.line ∈ announced (.phrase .membersOpt) ⟨.opt .members, some l⟩ := by
      refine List.mem_filterMap.mpr ⟨m, hm, ?_⟩
      split
      · exact absurd rfl (hfield _)
      · rfl
    obtain ⟨word, hbegins, hword⟩ := exists_begins (hvalid child hchild) hstands hcomputes hline
    rw [← hword]
    exact .recordMethods ⟨_, hr, rfl, rfl⟩ hchild hbegins

end Trees

section Dialects

variable {c d : Config} {origin : Nat} {t : Tables} {ms : List Move} {source : Text}
  {x : Configuration Value Goal Nat}

/-- A reduction gives the same in both dialects, or the first one refuses what its rule demands. -/
theorem reduction_steady (h : ∀ f, c.supports f = true → d.supports f = true) {r : Rule}
    (hr : r ∈ all) {args : List Value} (hargs : args.map Sigma.fst = r.rhs.map Sym.shape)
    (origin line last : Nat) :
    reduction c origin r line args last = reduction d origin r line args last ∨
      ∃ q, Asks r.lhs r.rhs args q ∧ c.supports q.feature = false ∧
        reduction c origin r line args last = .error (q.refusal c) := by
  obtain ⟨b, hb, hsteady⟩ := exists_applyTo_of (all_steady h r hr) hargs
  rw [List.nil_append] at hsteady
  simp only [reduction, hb]
  rcases hsteady line origin last with hsame | ⟨q, hq, hlacks, hrefused⟩
  · rw [hsame]
    exact .inl rfl
  · rw [hrefused]
    exact .inr ⟨q, hq, hlacks, rfl⟩

/-- The trees that a reduction makes the children of one tree: they stand for the symbols of its
rule, the arguments are computed from them, and their tokens are the last ones shifted. -/
theorem exists_forest (ht : grammar.tables = .ok t) {ts : List Grammar.Tree}
    (hts : Parsing grammar (semantics c origin) ms x ts) {i : Nat} (hi : t.Reduces x.top i) :
    ∃ r children, children = (ts.take (grammar.production i).rhs.length).reverse ∧
      ofProduction? i = some r ∧ (Grammar.Tree.node i children).Valid grammar ∧
      List.Forall₂ Stands children r.rhs ∧
      List.Forall₂ (semantics c origin).Computes children (x.args t i) ∧
      children.flatMap Grammar.Tree.yield <:+ Grammar.shifted ms := by
  have hw := grammar_numbered.built.wellFormed
  have hr := grammar_numbered.unreserved
  obtain ⟨hlt, _, hroots, _⟩ := Tables.Reduces.finds hw hr ht hts.path hi
  obtain ⟨r, hrule, _, hrhs⟩ := exists_ofProduction hlt (hi.complete hw hr ht).1
  rw [Configuration.args, (Grammar.tables_spec ht).2.1]
  generalize hn : (grammar.production i).rhs.length = n at *
  rw [← List.map_take, ← List.map_reverse] at hroots
  refine ⟨r, (ts.take n).reverse, rfl, hrule, ?_, ?_, ?_, ?_⟩
  · refine .node i _ hlt hroots fun child hchild => ?_
    exact hts.valid child (List.mem_of_mem_take (List.mem_reverse.mp hchild))
  · rwa [← hroots, List.forall₂_map_left_iff, List.forall₂_map_right_iff] at hrhs
  · exact List.forall₂_reverse_iff.mpr (List.forall₂_take n hts.values)
  · -- The trees below them were built from the tokens before.
    refine ⟨(ts.drop n).reverse.flatMap Grammar.Tree.yield, ?_⟩
    rw [← hts.yield, ← List.flatMap_append, ← List.reverse_append, List.take_append_drop]

/-- The first dialect refuses a construct that occurs in the source. -/
def Refused (c : Config) (source : Text) (f : Grammar.Failure) : Prop :=
  ∃ q tree, Construct q tree ∧ Occurs source tree ∧ c.supports q.feature = false ∧ f = q.refusal c

/-- One step of a parse leads to the same in both dialects, or the first one refuses a construct
there. -/
theorem step_steady (h : ∀ f, c.supports f = true → d.supports f = true)
    (ht : grammar.tables = .ok t)
    (hrun : Run t (semantics c origin) { supply := .ofText source, memory := 0 } ms x) :
    x.step t (semantics c origin) = x.step t (semantics d origin) ∨
      ∃ f x', x.step t (semantics c origin) = .failed f x' ∧ Refused c source f := by
  have hw := grammar_numbered.built.wellFormed
  have hr := grammar_numbered.unreserved
  by_cases hmove : ∃ i, x.move? t = some (.reduce i)
  · obtain ⟨i, hmove⟩ := hmove
    obtain ⟨ts, hts⟩ := Parsing.of_run hw hr ht hrun
    obtain ⟨r, children, _, hrule, hvalid, hstands, hcomputes, hyield⟩ :=
      exists_forest ht hts (Configuration.reduces_of_move hmove)
    have hparts : ∀ child ∈ children, child.Valid grammar := by
      cases hvalid with
      | node _ _ _ _ hparts => exact hparts
    obtain ⟨x₁, _, hvalues, _, hstep⟩ := Configuration.step_of_reduces hmove
    have hargs : x.args t i = x₁.args t i := by
      rw [Configuration.args, Configuration.args, hvalues]
    rw [hargs] at hcomputes
    rw [hstep, hstep]
    have hshapes := args_of_children hparts hstands hcomputes
    rcases reduction_steady h (ofProduction_mem hrule) hshapes origin
      (x₁.lineOf (semantics c origin) (x₁.args t i)) x₁.memory with
      hsame | ⟨q, hq, hlacks, hrefused⟩
    · left
      apply Configuration.reduce_congr
      rw [valueOf_eq_reduction hrule, valueOf_eq_reduction hrule]
      exact hsame
    · right
      rw [← valueOf_eq_reduction hrule] at hrefused
      refine ⟨_, x₁, Configuration.reduce_of_error hrefused, q, .node i children, ?_, ?_, hlacks,
        rfl⟩
      · exact construct_of_asks hrule hparts hstands hcomputes hq
      · -- What is shifted are the first tokens of the source.
        have hfirst : Grammar.shifted ms <+: (Supply.ofText source).ahead.map Prod.fst := by
          have hcoming := hrun.shifted_prefix hw hr ht grammar_endFree
          exact ((List.prefix_append _ _).trans hcoming).trans (List.takeWhile_prefix _)
        refine ⟨hvalid, ?_⟩
        rw [Grammar.Tree.yield_node]
        exact hyield.isInfix.trans hfirst.isInfix
  · left
    exact Configuration.step_of_not_reduces (fun i hi => hmove ⟨i, hi⟩) rfl

/-- A dialect with all features of another one accepts every source that the other one accepts,
with the same tree and the same number of its last node. Whenever it comes to anything else than
the other one, the other one rejects the source for a construct that it has no feature for, and
that construct occurs in the source. -/
theorem newer_dialect_changes_nothing (c d : Config)
    (h : ∀ f, c.supports f = true → d.supports f = true) (source : Text) (origin : Nat) :
    (∀ goal, (parse c source origin).result = .ok goal →
      parse d source origin = parse c source origin) ∧
    (parse d source origin ≠ parse c source origin →
      ∃ q tree, Construct q tree ∧ Occurs source tree ∧ c.supports q.feature = false ∧
        (parse c source origin).result = .error (q.refusal c)) := by
  have hw := grammar_numbered.built.wellFormed
  have hr := grammar_numbered.unreserved
  obtain ⟨t, hlang⟩ := exists_languageTables
  have ht : grammar.tables = .ok t := by rwa [languageTables] at hlang
  have hends (config : Config) : ∃ ms x,
      Run t (semantics config origin) { supply := .ofText source, memory := 0 } ms x ∧
        parse config source origin = .ofProgress (x.step t (semantics config origin)) ∧
        ∀ x', x.step t (semantics config origin) ≠ .more x' := by
    obtain ⟨ms, x, hrun, _, hparse, hmore, _⟩ := Grammar.exists_end hw hr ht grammar_endFree
      grammar_ranked.acyclic grammar_ranked.unhidden (semantics config origin) (.ofText source) 0
    exact ⟨ms, x, hrun, by rw [parse, hlang, parseBy, hparse], hmore⟩
  have hboth : parse d source origin = parse c source origin ∨
      ∃ f, (parse c source origin).result = .error f ∧ Refused c source f := by
    obtain ⟨ms, x, hrun, hparse, hmore⟩ := hends c
    obtain ⟨ns, y, hrun', hparse', hmore'⟩ := hends d
    -- As long as the first dialect goes on, it refuses nothing.
    have htransfer : Run t (semantics d origin) { supply := .ofText source, memory := 0 } ms x := by
      apply hrun.transfer
      intro ms₁ x₁ x₂ hrun₁ hstep
      rcases step_steady h ht hrun₁ with hsame | ⟨f, x', hfailed, _⟩
      · rw [← hsame, hstep]
      · rw [hstep] at hfailed
        cases hfailed
    rcases step_steady h ht hrun with hsame | ⟨f, x', hfailed, hrefused⟩
    · left
      have hlast : ∀ x', x.step t (semantics d origin) ≠ .more x' := by
        intro x'
        rw [← hsame]
        exact hmore x'
      rw [hparse, hparse', hsame, hrun'.step_unique htransfer hmore' hlast]
    · exact .inr ⟨f, by rw [hparse, hfailed]; rfl, hrefused⟩
  refine ⟨fun goal hgoal => ?_, fun hne => ?_⟩
  · rcases hboth with hsame | ⟨f, hrejected, _⟩
    · exact hsame
    · rw [hgoal] at hrejected
      cases hrejected
  · rcases hboth with hsame | ⟨_, hrejected, q, tree, hq, hoccurs, hlacks, rfl⟩
    · exact absurd hsame hne
    · exact ⟨q, tree, hq, hoccurs, hlacks, hrejected⟩

/-- Version 17 has loops over collections, but no records with methods; the default version has all
features. -/
theorem newer_dialect_changes_nothing_seventeen :
    (∀ f, Config.supports { version := "17.0" } f = true → Config.supports {} f = true) ∧
    Config.supports { version := "17.0" } .recordMethods = false ∧
    (parse {} "program P; type R = record procedure M; end; begin end." ≠
        parse { version := "17.0" } "program P; type R = record procedure M; end; begin end." →
      ∃ q tree, Construct q tree ∧
        Occurs "program P; type R = record procedure M; end; begin end." tree ∧
        Config.supports { version := "17.0" } q.feature = false ∧
        (parse { version := "17.0" }
          "program P; type R = record procedure M; end; begin end.").result =
            .error (q.refusal { version := "17.0" })) := by
  have hmore : ∀ f, Config.supports { version := "17.0" } f = true →
      Config.supports {} f = true := by
    intro f
    cases f <;> decide
  exact ⟨hmore, by decide, (newer_dialect_changes_nothing { version := "17.0" } {} hmore _ 0).2⟩

end Dialects
end ObjectPascal.Rule
