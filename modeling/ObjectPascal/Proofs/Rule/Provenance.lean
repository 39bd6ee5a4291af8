import ObjectPascal.Proofs.Rule.Construct
import ObjectPascal.Proofs.Rule.Identity
import ObjectPascal.Proofs.Rule.SourceOrder

/-!
Where the nodes of a parse come from. Every node gets its number in one reduction, and the tokens
that this covers tell the place and the line of the node. The values on the stack of a parse stand
for stretches of the tokens read, one behind the other, and the nodes in each are arranged there.
Every step keeps this.
-/

namespace ObjectPascal.Rule

open Grammar (Tables Move Run Parsing Configuration shifted)

section Origins

/-- The tokens that a reduction covers behind the moves before it. -/
def covered (before : List Move) (i : Nat) : List Token :=
  ((grammar.built before).take (grammar.production i).rhs.length).reverse.flatMap
    Grammar.Tree.yield

/-- The number of tokens in front of those that a reduction covers. -/
def start (before : List Move) (i : Nat) : Nat :=
  (shifted before).length - (covered before i).length

theorem covered_suffix (before : List Move) (i : Nat) : covered before i <:+ shifted before := by
  generalize hn : (grammar.production i).rhs.length = n
  refine ⟨((grammar.built before).drop n).reverse.flatMap Grammar.Tree.yield, ?_⟩
  have hmoves := congrArg shifted (Grammar.moves_built (g := grammar) before)
  rw [Grammar.shifted_forest] at hmoves
  rw [covered, hn, ← List.flatMap_append, ← List.reverse_append, List.take_append_drop, hmoves]

theorem length_shifted (before : List Move) (i : Nat) :
    (shifted before).length = start before i + (covered before i).length :=
  (Nat.sub_add_cancel (covered_suffix before i).length_le).symm

/-- The tokens that a reduction covers stand behind those in front of them. -/
theorem getElem?_covered (before : List Move) (i k : Nat) :
    (covered before i)[k]? = (shifted before)[start before i + k]? := by
  obtain ⟨front, hfront⟩ := covered_suffix before i
  have hstart : start before i = front.length := by
    rw [start, ← hfront, List.length_append, Nat.add_sub_cancel]
  rw [← hfront, hstart, List.getElem?_append_right (Nat.le_add_right _ _), Nat.add_sub_cancel_left]

variable (t : Tables) (s : Grammar.Semantics Value Goal Nat) (c₀ : Configuration Value Goal Nat)

/-- In a run, the moves `before` lead to `c`, the next one reduces by production `i`, and this hands
out the number. -/
structure Numbers (ms : List Move) (id : Nat) (before : List Move) (i : Nat)
    (c : Configuration Value Goal Nat) : Prop where
  part : before ++ [.reduce i] <+: ms
  run : Run t s c₀ before c
  move : c.move? t = some (.reduce i)
  new : c.memory < id
  issued : ∃ c', c.step t s = .more c' ∧ id ≤ c'.memory

/-- The place of a node is that of the word it is put at, among the tokens that the reduction covers,
or it is the place of the first of them. -/
def PutAt (before : List Move) (i : Nat) (n : Node) (p : Nat) : Prop :=
  match wordOf n with
  | some w => ∃ k u, p = start before i + k ∧ (covered before i)[k]? = some u ∧ w.Fits u
  | none => p = start before i

/-- The rule finds nothing but a name. -/
def NameOnly (i : Nat) : Prop :=
  IsRule i .namedType [.phrase .qualident] ∨ IsRule i .usesItem [.phrase .qualident]

/-- The node is on the line of a token that the reduction covers, if there is one. Where the rule
finds nothing but a name it may also be on the line of the next token. -/
def OnLine (before : List Move) (i : Nat) (c : Configuration Value Goal Nat) (n : Node) : Prop :=
  covered before i = [] ∨ (∃ u ∈ covered before i, u.line = n.info.line) ∨
    (NameOnly i ∧ n.info.line = c.token.line)

/-- The reduction that a node comes from, with the place of the node. -/
structure Origin (ms : List Move) (n : Node) (p : Nat) (before : List Move) (i : Nat)
    (c : Configuration Value Goal Nat) : Prop where
  numbers : Numbers t s c₀ ms n.info.id before i c
  place : PutAt before i n p
  line : OnLine before i c n
  bare : n.bare = true → IsRule i .stmt bareIf

/-- The node comes from a reduction in the run, and it has its place there. -/
def Recorded (ms : List Move) (n : Node) (p : Nat) : Prop :=
  ∃ before i c, Origin t s c₀ ms n p before i c

variable {t s c₀} {ms ms' : List Move} {n : Node} {p : Nat}

theorem Recorded.mono (h : Recorded t s c₀ ms n p) (hms : ms <+: ms') :
    Recorded t s c₀ ms' n p := by
  obtain ⟨before, i, c, ⟨hpart, hrun, hmove, hnew, hissued⟩, hplace, hline, hbare⟩ := h
  exact ⟨before, i, c, ⟨hpart.trans hms, hrun, hmove, hnew, hissued⟩, hplace, hline, hbare⟩

/-- A method that is told its owner comes from the same reduction. -/
theorem Recorded.owned (owner : Text) (h : Recorded t s c₀ ms n p) :
    Recorded t s c₀ ms (owned owner n) p := by
  unfold Rule.owned
  split
  · obtain ⟨before, i, c, hnumbers, hplace, hline, _⟩ := h
    exact ⟨before, i, c, hnumbers, hplace, hline, nofun⟩
  · exact h

theorem line_of_wordOf {w : Word} (h : wordOf n = some w) : w.line = n.info.line := by
  unfold wordOf at h
  split at h <;> cases h <;> rfl

theorem wordOf_of_bare (h : n.bare = true) : wordOf n = none := by
  cases n with
  | stmt s => rfl
  | _ => cases h

end Origins

namespace Scene

/-- The scene between two reductions, in which no node is new. -/
def between (t : Tables) (s : Grammar.Semantics Value Goal Nat)
    (c₀ : Configuration Value Goal Nat) (ms : List Move) (last : Nat) : Scene :=
  ⟨shifted ms, 0, 0, last, 0, fun _ => false, Recorded t s c₀ ms, Nat.le_refl 0, nofun, nofun,
    fun owner _ _ h => h.owned owner⟩

variable {σ τ : Scene} {m : Places} {a b : Nat} {ps : List Piece} {n : Node}

/-- What is arranged in one scene is arranged in another that has the tokens and tells of the
nodes. -/
theorem Arranged.carry (htokens : σ.tokens <+: τ.tokens)
    (htells : ∀ n, n.info.id ≤ m.last → ∀ p, σ.Tells n p → τ.Tells n p)
    (h : σ.Arranged m a ps b) : τ.Arranged m a ps b := by
  have hget {k : Nat} {u : Token} (hu : σ.tokens[k]? = some u) : τ.tokens[k]? = some u := by
    obtain ⟨back, hback⟩ := htokens
    rwa [← hback, List.getElem?_append_left (List.getElem?_eq_some_iff.mp hu).1]
  induction h with
  | nil h => exact .nil h
  | node hs hn _ ih =>
    refine .node ⟨hs.start, hs.stop, hs.full, fun hslack => ?_⟩ (fun x hx => ?_) ih
    · obtain ⟨k, u, hk, hkb, hu, hline⟩ := hs.line hslack
      exact ⟨k, u, hk, hkb, hget hu, hline⟩
    · have hx := hn x hx
      exact ⟨htells x hx.numbered _ hx.tells, hx.numbered, hx.parts, hx.order⟩
  | word hp hu hw _ ih => exact .word hp (hget hu) hw ih

end Scene

section Stacks

open Scene (Arranged)

/-- The values on a stack stand for the tokens of the trees beside them, and their pieces are arranged
there. -/
inductive Stacked (σ : Scene) (m : Places) : List Grammar.Tree → List Value → Nat → Prop
  | nil : Stacked σ m [] [] 0
  | cons {tree : Grammar.Tree} {ts : List Grammar.Tree} {v : Value} {vs : List Value} {a : Nat}
      (h : Stacked σ m ts vs a) (hv : σ.Arranged m a v.pieces (a + tree.yield.length)) :
    Stacked σ m (tree :: ts) (v :: vs) (a + tree.yield.length)

variable {σ τ : Scene} {m m' : Places} {ts : List Grammar.Tree} {vs : List Value} {b : Nat}

/-- The topmost values are arranged one behind the other. -/
theorem Stacked.split (h : Stacked σ m ts vs b) (n : Nat) :
    ∃ a, Stacked σ m (ts.drop n) (vs.drop n) a ∧
      σ.Arranged m a ((vs.take n).reverse.flatMap Value.pieces) b ∧
      b = a + ((ts.take n).reverse.flatMap Grammar.Tree.yield).length := by
  induction h generalizing n with
  | nil => exact ⟨0, by simpa using .nil, by simpa using .nil (Nat.le_refl 0), by simp⟩
  | @cons tree ts v vs c hrest hv ih =>
    cases n with
    | zero => exact ⟨_, .cons hrest hv, .nil (Nat.le_refl _), rfl⟩
    | succ n =>
      obtain ⟨a, hdrop, htake, hlength⟩ := ih n
      refine ⟨a, hdrop, ?_, ?_⟩
      · simpa using htake.append hv
      · simp [hlength, Nat.add_assoc]

theorem Stacked.head {v : Value} (h : Stacked σ m ts (v :: vs) b) :
    ∃ a, σ.Arranged m a v.pieces b := by
  cases h with
  | cons _ hv => exact ⟨_, hv⟩

theorem Stacked.extend (h : Stacked σ m ts vs b) (hm : m.Extends m') : Stacked σ m' ts vs b := by
  induction h with
  | nil => exact .nil
  | cons _ hv ih => exact .cons ih (hv.extend hm)

theorem Stacked.carry (htokens : σ.tokens <+: τ.tokens)
    (htells : ∀ n, n.info.id ≤ m.last → ∀ p, σ.Tells n p → τ.Tells n p)
    (h : Stacked σ m ts vs b) : Stacked τ m ts vs b := by
  induction h with
  | nil => exact .nil
  | cons _ hv ih => exact .cons ih (hv.carry htokens htells)

end Stacks

section Reductions

open Scene (Arranged)

variable {config : Config} {origin : Nat} {tree : Grammar.Tree}

/-- What a tree stands over is not empty if its phrase does not vanish. -/
theorem yield_ne_nil (hv : tree.Valid grammar) {a : Sym} (ha : Stands tree a)
    (hn : a.vanishes = false) : tree.yield ≠ [] := by
  induction hv generalizing a with
  | leaf token => simp
  | node i children hi hroots hvalid ih =>
    cases a with
    | token k => cases ha
    | phrase p =>
      obtain ⟨r, hr, rfl, hchildren⟩ := exists_rule_of_node (.node i children hi hroots hvalid) ha
      have hsome : ∃ b ∈ r.rhs, b.vanishes = false := by
        by_contra hall
        have hvanish := (all_descend r (ofProduction_mem hr)).1 (by simpa using hall)
        rw [Sym.vanishes, hvanish] at hn
        cases hn
      obtain ⟨b, hb, hbn⟩ := hsome
      obtain ⟨k, hk, rfl⟩ := List.mem_iff_getElem.mp hb
      have hlength := hchildren.length_eq
      have hchild := (List.forall₂_iff_get.mp hchildren).2 k (hlength ▸ hk) hk
      have hmem : children.get ⟨k, hlength ▸ hk⟩ ∈ children := List.get_mem _ _
      rw [Grammar.Tree.yield_node]
      intro hnil
      exact ih _ hmem hchild hbn (List.flatMap_eq_nil_iff.mp hnil _ hmem)

/-- The nodes that a value carries have text and are on the line of their text. -/
def Value.solid (v : Value) : Prop := ∀ n ∈ v.parts, n.slack = false

/-- What is built for a body has text and is on the line of its text, if the same holds of the
compound statement that it is made of. -/
def Settles (r : Rule) : Prop :=
  AlwaysOf (fun vs b => List.Forall₂ (fun x v => x = .phrase .compoundStmt → v.solid) r.rhs vs →
    b.Gives fun w => Value.solid ⟨r.lhs.shape, w⟩) r.rhs [] r.builder

theorem bodies_settle : ∀ r ∈ blocks ++ simpleStatements,
    r.lhs = .blockBody ∨ r.lhs = .compoundStmt → r.Settles := by
  simp only [blocks, simpleStatements, List.forall_mem_append, List.forall_mem_cons]
  dsimp only [Settles, rule, AlwaysOf, Phrase.shape, Sym.shape, Shape.Val]
  simp
  have hnode {f : NodeInfo → Stmt} (hf : ∀ i, (Node.stmt (f i)).slack = false) :
      Build.Gives (fun w : Stmt => Value.solid ⟨.stmt, w⟩) (f <$> node) := by
    rw [map_eq_pure_bind]
    exact .bind (.any _) fun i _ => .pure (List.forall_mem_singleton.mpr (hf i))
  exact ⟨fun _ => hnode fun _ => rfl, fun _ => hnode fun _ => rfl⟩

set_option maxRecDepth 20000 in
theorem settles_of_body {r : Rule} (hr : r ∈ all)
    (hl : r.lhs = .blockBody ∨ r.lhs = .compoundStmt) : r.Settles := by
  have hother {rs : List Rule}
      (hrs : (rs.all fun r => r.lhs != .blockBody && r.lhs != .compoundStmt) = true) (hr : r ∈ rs) :
      r.Settles := by
    have hnot := List.all_eq_true.mp hrs r hr
    rcases hl with hl | hl <;> simp [hl] at hnot
  simp only [all, sections, statements, List.mem_append] at hr
  rcases hr with ((((((hr | hr) | ((hr | hr) | hr)) | hr) | hr) | hr) | (((hr | hr) | hr) | hr)) | hr
  · exact hother (by decide) hr
  · exact hother (by decide) hr
  · exact bodies_settle r (List.mem_append_left _ hr) hl
  · exact hother (by decide) hr
  · exact hother (by decide) hr
  · exact hother (by decide) hr
  · exact hother (by decide) hr
  · exact hother (by decide) hr
  · exact bodies_settle r (List.mem_append_right _ hr) hl
  · exact hother (by decide) hr
  · exact hother (by decide) hr
  · exact hother (by decide) hr
  · exact hother (by decide) hr

/-- What holds of the trees below a node holds of symbols and values side by side. -/
theorem forall₂_of_children {children : List Grammar.Tree} {syms : List Sym} {args : List Value}
    {R : Sym → Value → Prop} (hs : List.Forall₂ Stands children syms)
    (hc : List.Forall₂ (semantics config origin).Computes children args)
    (h : ∀ child x v, child ∈ children → Stands child x →
      (semantics config origin).Computes child v → R x v) : List.Forall₂ R syms args := by
  refine List.forall₂_iff_zip.mpr ⟨hs.length_eq.symm.trans hc.length_eq, fun {x v} hxv => ?_⟩
  obtain ⟨child, hchild, hstands, hcomputes⟩ := exists_child hs hc _ hxv
  exact h child x v hchild hstands hcomputes

/-- The body of a block has text and is on the line of its text. -/
theorem solid_of_body (hv : tree.Valid grammar) {p : Phrase}
    (hp : p = .blockBody ∨ p = .compoundStmt) (hs : Stands tree (.phrase p)) {v : Value}
    (hc : (semantics config origin).Computes tree v) : v.solid := by
  induction hv generalizing p v with
  | leaf token => cases hs
  | node i children hi hroots hvalid ih =>
    obtain ⟨r, hr, rfl, hchildren⟩ := exists_rule_of_node (.node i children hi hroots hvalid) hs
    cases hc with
    | @node _ _ args c e hargs hvalue =>
      obtain ⟨b, hb, hsettles⟩ := exists_applyTo_of (settles_of_body (ofProduction_mem hr) hp)
        (args_of_children hvalid hchildren hargs)
      rw [valueOf_eq_reduction hr, reduction, hb] at hvalue
      obtain ⟨⟨w, last⟩, hrun, heq⟩ := bind_eq_ok.mp hvalue
      cases heq
      have hpart : List.Forall₂ (fun x v => x = .phrase .compoundStmt → Value.solid v) r.rhs args := by
        refine forall₂_of_children hchildren hargs fun child x v hchild hstands hcomputes hx => ?_
        subst hx
        exact ih child hchild (.inr rfl) hstands hcomputes
      exact hsettles hpart _ _ _ _ hrun

/-- A value that the rest of a rule is anchored by has the line of a token in its stretch. -/
theorem line_of_anchored {σ : Scene} {m : Places} {x : Sym} {syms : List Sym} {a b : Nat}
    (v : x.shape.Val) (h : σ.Arranged m a (x.shape.pieces v) b)
    (hsolid : x = .phrase .blockBody → Value.solid ⟨x.shape, v⟩)
    (ha : anchored (x :: syms) = true) :
    (x.shape.line v = none ∧ anchored syms = true) ∨
      ∃ k u, a ≤ k ∧ k < b ∧ σ.tokens[k]? = some u ∧ x.shape.line v = some u.line := by
  -- A token is found where its word stands, and a node with text has its line there.
  have hword {t : Token} (hw : σ.Arranged m a [.word (nameWord t)] b) :
      ∃ k u, a ≤ k ∧ k < b ∧ σ.tokens[k]? = some u ∧ some t.line = some u.line := by
    cases hw with
    | word hp hu hw hnil => exact ⟨_, _, hp, Nat.lt_of_succ_le hnil.le, hu, by rw [hw.1]; rfl⟩
  have hnode {n : Node} (hn : σ.Arranged m a [.node n] b) (hs : n.slack = false) :
      ∃ k u, a ≤ k ∧ k < b ∧ σ.tokens[k]? = some u ∧ some n.info.line = some u.line := by
    cases hn with
    | node hspan _ hnil =>
      obtain ⟨k, u, hk, hkb, hu, hline⟩ := hspan.line hs
      exact ⟨k, u, Nat.le_trans hspan.start hk, Nat.lt_of_lt_of_le hkb hnil.le, hu, by rw [hline]⟩
  cases x with
  | token k => exact .inr (hword h)
  | phrase p =>
    by_cases hp : p = .blockBody
    · subst hp
      exact .inr (hnode h (hsolid rfl (.stmt v) List.mem_cons_self))
    · rw [anchored] at ha
      simp only [Sym.shape] at v h ⊢
      clear hsolid
      revert v ha
      cases p.shape with
      | token => exact fun v h _ => .inr (hword h)
      | expr => exact fun v h _ => .inr (hnode h rfl)
      | text => exact fun v h ha => .inl ⟨rfl, ha⟩
      | list s => exact fun v h ha => .inl ⟨rfl, ha⟩
      | opt s =>
        cases s with
        | list s =>
          intro v h ha
          cases v with
          | none => exact .inl ⟨rfl, ha⟩
          | some v => exact .inl ⟨rfl, ha⟩
        | _ => exact fun v h ha => absurd (eq_of_beq ha) hp
      | _ => exact fun v h ha => absurd (eq_of_beq ha) hp

/-- The first value with a line among arranged ones has the line of a token there. -/
theorem exists_line {σ : Scene} {m : Places} {syms : List Sym} {args : List Value} {a b : Nat}
    (hshape : args.map Sigma.fst = syms.map Sym.shape)
    (hsolid : List.Forall₂ (fun x v => x = .phrase .blockBody → v.solid) syms args)
    (h : σ.Arranged m a (args.flatMap Value.pieces) b) (ha : anchored syms = true) :
    ∃ k u, a ≤ k ∧ k < b ∧ σ.tokens[k]? = some u ∧
      args.findSome? (fun v => v.1.line v.2) = some u.line := by
  induction hsolid generalizing a with
  | nil => cases ha
  | @cons x v syms args hx _ ih =>
    obtain ⟨hfirst, hrest⟩ := List.cons.inj hshape
    rw [List.flatMap_cons] at h
    obtain ⟨c, hv, hvs⟩ := h.split
    obtain ⟨shape, v⟩ := v
    obtain rfl : shape = x.shape := hfirst
    rcases line_of_anchored v hv hx ha with ⟨hnone, hsyms⟩ | ⟨k, u, hk, hkc, hu, hline⟩
    · obtain ⟨k, u, hk, hkb, hu, hline⟩ := ih hrest hvs hsyms
      refine ⟨k, u, Nat.le_trans hv.le hk, hkb, hu, ?_⟩
      rw [List.findSome?_cons, hnone, hline]
    · refine ⟨k, u, hk, Nat.lt_of_lt_of_le hkc hvs.le, hu, ?_⟩
      rw [List.findSome?_cons, hline]

end Reductions

section Steps

open Scene (Arranged)

/-- A reduction that a run comes to, with its rule, its line and its result. -/
structure Reducing (t : Tables) (config : Config) (origin : Nat)
    (c₀ : Configuration Value Goal Nat) (ms : List Move) (c c' : Configuration Value Goal Nat)
    (i : Nat) (r : Rule) (line : Nat) (e : Grammar.Reduced Value Goal Nat) : Prop where
  run : Run t (semantics config origin) c₀ ms c
  move : c.move? t = some (.reduce i)
  step : c.step t (semantics config origin) = .more c'
  rule : ofProduction? i = some r
  found : line = c.lineOf (semantics config origin) (c.args t i) ∨
    line = c.look.lineOf (semantics config origin) (c.args t i)
  value : reduction config origin r line (c.args t i) c.memory = .ok e
  values : c'.values = e.value :: c.values.drop (grammar.production i).rhs.length
  memory : c'.memory = e.memory

variable {t : Tables} {config : Config} {origin : Nat} {supply : Supply} {ms : List Move}
  {c c' : Configuration Value Goal Nat} {i : Nat} {r : Rule} {line : Nat}
  {e : Grammar.Reduced Value Goal Nat}

/-- The last line is that of the token shifted last. -/
theorem lastLine_eq {c₀ : Configuration Value Goal Nat}
    (h : Run t (semantics config origin) c₀ ms c) {u : Token}
    (hu : (shifted ms).getLast? = some u) : c.lastLine = u.line := by
  induction h with
  | refl => cases hu
  | @tail ms c c' _ hs ih =>
    rcases Configuration.step_eq_more hs with ⟨q, _, hmove, rfl⟩ | ⟨i, hmove, hred⟩
    · rw [hmove, Option.toList_some, Grammar.shifted_append, Grammar.shifted_shift,
        List.getLast?_concat] at hu
      cases hu
      rfl
    · rw [hmove, Option.toList_some, Grammar.shifted_append, Grammar.shifted_reduce,
        List.append_nil] at hu
      have hlook : c.look.lastLine = c.lastLine := by
        unfold Configuration.look
        split <;> rfl
      rcases hred with ⟨_, hred⟩ | ⟨_, hred⟩
      · obtain ⟨_, _, _, _, rfl⟩ := Configuration.reduce_eq_more hred
        exact ih hu
      · obtain ⟨_, _, _, _, rfl⟩ := Configuration.reduce_eq_more hred
        exact hlook.trans (ih hu)

theorem exists_reducing (ht : grammar.tables = .ok t)
    (hrun : Run t (semantics config origin) { supply, memory := 0 } ms c)
    (hs : c.step t (semantics config origin) = .more c') (hmove : c.move? t = some (.reduce i)) :
    ∃ r line e, Reducing t config origin { supply, memory := 0 } ms c c' i r line e := by
  obtain ⟨ts, hts⟩ := Parsing.of_run grammar_numbered.built.wellFormed
    grammar_numbered.unreserved ht hrun
  obtain ⟨r, hrule, _⟩ := args_shaped ht hts (Configuration.reduces_of_move hmove)
  rcases Configuration.step_eq_more hs with ⟨_, _, hshift, _⟩ | ⟨j, hj, hred⟩
  · rw [hmove] at hshift
    cases hshift
  · rw [hmove] at hj
    obtain rfl := Move.reduce.inj (Option.some.inj hj)
    rcases hred with ⟨_, hred⟩ | ⟨_, hred⟩
    · obtain ⟨e, q, hvalue, _, rfl⟩ := Configuration.reduce_eq_more hred
      rw [valueOf_eq_reduction hrule] at hvalue
      exact ⟨r, _, e, hrun, hmove, hs, hrule, .inl rfl, hvalue,
        by rw [(Grammar.tables_spec ht).2.1], rfl⟩
    · obtain ⟨e, q, hvalue, _, rfl⟩ := Configuration.reduce_eq_more hred
      have hargs : c.look.args t i = c.args t i := by
        rw [Configuration.args, Configuration.args, Configuration.look_values]
      rw [valueOf_eq_reduction hrule, Configuration.look_memory, hargs] at hvalue
      exact ⟨r, _, e, hrun, hmove, hs, hrule, .inr rfl, hvalue,
        by rw [Configuration.look_values, (Grammar.tables_spec ht).2.1], rfl⟩

namespace Reducing

variable (ht : grammar.tables = .ok t)
  (h : Reducing t config origin { supply, memory := 0 } ms c c' i r line e)

include ht h

/-- The trees whose tokens the reduction covers stand for its rule, and its arguments are computed
from them. -/
theorem parts : ∃ children, covered ms i = children.flatMap Grammar.Tree.yield ∧
    (∀ child ∈ children, child.Valid grammar) ∧ List.Forall₂ Stands children r.rhs ∧
    List.Forall₂ (semantics config origin).Computes children (c.args t i) := by
  have hts := Parsing.built grammar_numbered.built.wellFormed grammar_numbered.unreserved ht h.run
  obtain ⟨r', children, hchildren, hrule, hvalid, hstands, hcomputes, _⟩ :=
    exists_forest ht hts (Configuration.reduces_of_move h.move)
  obtain rfl : r = r' := Option.some.inj (h.rule.symm.trans hrule)
  cases hvalid with
  | node _ _ _ _ hvalid => exact ⟨children, by rw [covered, hchildren], hvalid, hstands, hcomputes⟩

theorem shapes : (c.args t i).map Sigma.fst = r.rhs.map Sym.shape := by
  obtain ⟨children, _, hvalid, hstands, hcomputes⟩ := h.parts ht
  exact args_of_children hvalid hstands hcomputes

/-- The line of an anchored rule is that of a token that the reduction covers. -/
theorem exists_line_of_anchored {σ : Scene} {m : Places} {a b : Nat}
    (harranged : σ.Arranged m a ((c.args t i).flatMap Value.pieces) b)
    (ha : anchored r.rhs = true) :
    ∃ k u, a ≤ k ∧ k < b ∧ σ.tokens[k]? = some u ∧ u.line = line := by
  obtain ⟨children, _, hvalid, hstands, hcomputes⟩ := h.parts ht
  have hsolid : List.Forall₂ (fun x v => x = .phrase .blockBody → Value.solid v) r.rhs
      (c.args t i) :=
    forall₂_of_children hstands hcomputes fun child x v hchild hstands hcomputes hx => by
      subst hx
      exact solid_of_body (hvalid child hchild) (.inl rfl) hstands hcomputes
  obtain ⟨k, u, hk, hkb, hu, hline⟩ := exists_line (h.shapes ht) hsolid harranged ha
  have hline : (c.args t i).findSome? (semantics config origin).line? = some u.line := hline
  refine ⟨k, u, hk, hkb, hu, ?_⟩
  rcases h.found with hfound | hfound <;> rw [hfound, Configuration.lineOf, hline]

theorem covered_eq_nil (hr : r.rhs = []) : covered ms i = [] := by
  obtain ⟨children, hcovered, _, hstands, _⟩ := h.parts ht
  rw [hr] at hstands
  obtain rfl := List.forall₂_nil_right_iff.mp hstands
  exact hcovered

/-- A rule that finds nothing but a name covers a token. Its line is that of the last one, or that
of the next token. -/
theorem line_of_loose (hl : loose r.lhs r.rhs = true) : NameOnly i ∧ covered ms i ≠ [] ∧
    ((∃ u ∈ covered ms i, u.line = line) ∨ line = c.token.line) := by
  obtain ⟨children, hcovered, hvalid, hstands, hcomputes⟩ := h.parts ht
  simp only [loose, Bool.and_eq_true, Bool.or_eq_true, beq_iff_eq] at hl
  obtain ⟨hlhs, hrhs⟩ := hl
  rw [hrhs] at hstands
  obtain ⟨child, _, hchild, hnil, rfl⟩ := List.forall₂_cons_right_iff.mp hstands
  obtain rfl := List.forall₂_nil_right_iff.mp hnil
  have hne : covered ms i ≠ [] := by
    rw [hcovered, List.flatMap_singleton]
    exact yield_ne_nil (hvalid child List.mem_cons_self) hchild rfl
  refine ⟨hlhs.imp (fun hl => ⟨r, h.rule, hl, hrhs⟩) fun hl => ⟨r, h.rule, hl, hrhs⟩, hne, ?_⟩
  -- A name has no line.
  have hnone : (c.args t i).findSome? (semantics config origin).line? = none := by
    have hshapes := h.shapes ht
    rw [hrhs] at hshapes
    obtain ⟨⟨shape, v⟩, hargs⟩ := List.length_eq_one_iff.mp (by simpa using congrArg List.length hshapes)
    rw [hargs] at hshapes ⊢
    cases hshapes
    rfl
  have hlast : ∃ u ∈ covered ms i, u.line = c.lastLine := by
    obtain ⟨u, hu⟩ := Option.isSome_iff_exists.mp (List.getLast?_isSome.mpr hne)
    obtain ⟨front, hfront⟩ := covered_suffix ms i
    refine ⟨u, List.mem_of_getLast? hu, (lastLine_eq h.run ?_).symm⟩
    rw [← hfront, List.getLast?_append, hu]
    rfl
  rcases h.found with hfound | hfound
  · rw [Configuration.lineOf, hnone] at hfound
    dsimp only at hfound
    cases hahead : c.ahead with
    | some u =>
      rw [hahead] at hfound
      rw [hfound, Configuration.token_of_ahead (by rw [hahead]; rfl)]
      exact .inr rfl
    | none =>
      rw [hahead] at hfound
      rw [hfound]
      exact .inl hlast
  · rw [Configuration.lineOf, hnone, Configuration.look_ahead] at hfound
    exact .inr hfound

/-- A node that the rule may put has text, if it is not the empty statement. -/
theorem lt_of_admits {σ : Scene} {m : Places}
    (harranged : σ.Arranged m (start ms i) ((c.args t i).flatMap Value.pieces) (shifted ms).length)
    {n : Node} (ha : admits r.lhs r.rhs n = true) (hv : n.void = false) :
    start ms i < (shifted ms).length := by
  simp only [admits, Bool.and_eq_true, Bool.or_eq_true, hv, Bool.false_eq_true, and_false,
    or_false] at ha
  rcases ha.1 with hanchored | ⟨hloose, _⟩
  · obtain ⟨k, u, hk, hkb, _⟩ := h.exists_line_of_anchored ht harranged hanchored
    exact Nat.lt_of_le_of_lt hk hkb
  · have hpos := List.length_pos_of_ne_nil (h.line_of_loose ht hloose).2.1
    rw [length_shifted ms i]
    omega

/-- The scene of the reduction. -/
def scene {m : Places} (harranged : (Scene.between t (semantics config origin)
      { supply, memory := 0 } ms c.memory).Arranged m (start ms i)
      ((c.args t i).flatMap Value.pieces) (shifted ms).length) : Scene where
  tokens := shifted ms
  lo := start ms i
  hi := (shifted ms).length
  first := c.memory
  line := line
  admits := admits r.lhs r.rhs
  old := Recorded t (semantics config origin) { supply, memory := 0 } ms
  le := harranged.le
  full _ ha hv := h.lt_of_admits ht harranged ha hv
  lined n ha hs := by
    have hvoid : n.void = false := by
      by_contra hv
      rw [Node.slack_of_void (Bool.of_not_eq_false hv)] at hs
      cases hs
    simp only [Rule.admits, Bool.and_eq_true, Bool.or_eq_true, hs, hvoid, Bool.false_eq_true,
      and_false, or_false] at ha
    exact h.exists_line_of_anchored ht harranged ha.1
  owned owner _ _ hold := hold.owned owner

/-- What is put in the scene of a reduction comes from the reduction. -/
theorem origin_of_puts {m : Places} {harranged : (Scene.between t (semantics config origin)
      { supply, memory := 0 } ms c.memory).Arranged m (start ms i)
      ((c.args t i).flatMap Value.pieces) (shifted ms).length} {n : Node} {p : Nat}
    (hnew : c.memory < n.info.id) (hissued : n.info.id ≤ c'.memory)
    (hputs : (h.scene ht harranged).Puts n p) :
    Origin t (semantics config origin) { supply, memory := 0 } (ms ++ [.reduce i]) n p ms i c := by
  have hmem {k : Nat} {u : Token} (hk : start ms i ≤ k) (hu : (shifted ms)[k]? = some u) :
      (covered ms i)[k - start ms i]? = some u := by
    rw [getElem?_covered, Nat.add_sub_cancel' hk, hu]
  have hnumbers : Numbers t (semantics config origin) { supply, memory := 0 }
      (ms ++ [.reduce i]) n.info.id ms i c :=
    ⟨List.prefix_refl _, h.run, h.move, hnew, c', h.step, hissued⟩
  unfold Scene.Puts at hputs
  cases hw : wordOf n with
  | some w =>
    -- The word that the node is put at is among the tokens of the reduction.
    rw [hw] at hputs
    obtain ⟨hk, _, u, hu, hfits⟩ := hputs
    have hu := hmem hk hu
    refine ⟨hnumbers, ?_, .inr (.inl ⟨u, List.mem_of_getElem? hu, ?_⟩), fun hb => ?_⟩
    · rw [PutAt, hw]
      exact ⟨_, u, (Nat.add_sub_cancel' hk).symm, hu, hfits⟩
    · rw [hfits.1, line_of_wordOf hw]
    · rw [wordOf_of_bare hb] at hw
      cases hw
  | none =>
    rw [hw] at hputs
    obtain ⟨rfl, hline, ha⟩ := hputs
    have hplace : PutAt ms i n (start ms i) := by
      rw [PutAt, hw]
    replace ha : admits r.lhs r.rhs n = true := ha
    replace hline : n.info.line = line := hline
    simp only [admits, Bool.and_eq_true, Bool.or_eq_true, Bool.not_eq_true', beq_iff_eq] at ha
    obtain ⟨hcase, hbare⟩ := ha
    refine ⟨hnumbers, hplace, ?_, fun hb => ?_⟩
    · rcases hcase with (hanchored | ⟨⟨_, hempty⟩, _⟩) | ⟨hloose, _⟩
      · obtain ⟨k, u, hk, _, hu, hk'⟩ := h.exists_line_of_anchored ht harranged hanchored
        exact .inr (.inl ⟨u, List.mem_of_getElem? (hmem hk hu), hk'.trans hline.symm⟩)
      · exact .inl (h.covered_eq_nil ht hempty)
      · obtain ⟨hname, _, hu | hnext⟩ := h.line_of_loose ht hloose
        · rw [← hline] at hu
          exact .inr (.inl hu)
        · exact .inr (.inr ⟨hname, hline.trans hnext⟩)
    · obtain ⟨hlhs, hrhs⟩ := hbare.resolve_left (by rw [hb]; simp)
      exact ⟨r, h.rule, hlhs, hrhs⟩

end Reducing

/-- What holds of the stack of a parse: all nodes have places, which are those of their origins, and
the values are arranged where their tokens stand. -/
def Standing (t : Tables) (s : Grammar.Semantics Value Goal Nat)
    (c₀ : Configuration Value Goal Nat) (ms : List Move) (c : Configuration Value Goal Nat) : Prop :=
  ∃ m : Places, m.last = c.memory ∧
    Stacked (.between t s c₀ ms c.memory) m (grammar.built ms) c.values (shifted ms).length

/-- What is told of the nodes between two steps is still told between others. -/
theorem tells_between {s : Grammar.Semantics Value Goal Nat} {c₀ : Configuration Value Goal Nat}
    {ms' : List Move} {last last' : Nat} {n : Node} {p : Nat} (hms : ms <+: ms')
    (hn : n.info.id ≤ last) (h : (Scene.between t s c₀ ms last).Tells n p) :
    (Scene.between t s c₀ ms' last').Tells n p := by
  rcases h with hold | ⟨hnew, _⟩
  · exact .inl (hold.mono hms)
  · exact absurd hn (Nat.not_le.mpr hnew)

theorem Standing.initial (s : Grammar.Semantics Value Goal Nat) :
    Standing t s { supply, memory := 0 } [] { supply, memory := 0 } :=
  ⟨⟨fun _ => 0, 0⟩, rfl, .nil⟩

/-- A token stands for itself. -/
theorem Standing.shift {s : Grammar.Semantics Value Goal Nat}
    {c₀ : Configuration Value Goal Nat} (h : Standing t s c₀ ms c) {u : Token}
    (hvalues : c'.values = ⟨.token, u⟩ :: c.values) (hmemory : c'.memory = c.memory) :
    Standing t s c₀ (ms ++ [.shift u]) c' := by
  obtain ⟨m, hlast, hstack⟩ := h
  have htokens : shifted ms <+: shifted (ms ++ [.shift u]) := by
    rw [Grammar.shifted_append]
    exact List.prefix_append _ _
  have hbuilt : grammar.built (ms ++ [.shift u]) = .leaf u :: grammar.built ms := by
    rw [Grammar.built, List.foldl_append]
    rfl
  have hlength : (shifted (ms ++ [.shift u])).length =
      (shifted ms).length + (Grammar.Tree.leaf u).yield.length := by
    simp
  refine ⟨m, hlast.trans hmemory.symm, ?_⟩
  rw [hvalues, hbuilt, hlength]
  have hu : (shifted (ms ++ [.shift u]))[(shifted ms).length]? = some u := by
    simp
  refine .cons (hstack.carry htokens fun n hn p => ?_)
    (.word (Nat.le_refl _) hu ⟨rfl, by simp [nameWord]⟩ (.nil (by simp)))
  exact tells_between (List.prefix_append _ _) (hlast ▸ hn)

/-- A reduction puts its nodes where the tokens stand that it covers. -/
theorem Standing.reduce (ht : grammar.tables = .ok t)
    (h : Reducing t config origin { supply, memory := 0 } ms c c' i r line e)
    (hst : Standing t (semantics config origin) { supply, memory := 0 } ms c) :
    Standing t (semantics config origin) { supply, memory := 0 } (ms ++ [.reduce i]) c' := by
  obtain ⟨m, hlast, hstack⟩ := hst
  obtain ⟨a, hdrop, htake, hlength⟩ := hstack.split (grammar.production i).rhs.length
  obtain rfl : a = start ms i := Nat.add_right_cancel (hlength.symm.trans (length_shifted ms i))
  have hargs : c.args t i = (c.values.take (grammar.production i).rhs.length).reverse := by
    rw [Configuration.args, (Grammar.tables_spec ht).2.1]
  rw [← hargs] at htake
  have hms : ms <+: ms ++ [.reduce i] := List.prefix_append _ _
  have hshifted : shifted (ms ++ [.reduce i]) = shifted ms := by simp
  have hbuilt : grammar.built (ms ++ [.reduce i]) =
      .node i ((grammar.built ms).take (grammar.production i).rhs.length).reverse ::
        (grammar.built ms).drop (grammar.production i).rhs.length := by
    rw [Grammar.built, List.foldl_append]
    rfl
  -- The builder of the rule runs in the scene of the reduction.
  obtain ⟨b, hb, harranging⟩ := exists_arranging (ofProduction_mem h.rule) (h.shapes ht)
  have hvalue := h.value
  rw [reduction, hb] at hvalue
  obtain ⟨⟨v, last⟩, hrun, heq⟩ := bind_eq_ok.mp hvalue
  have hmemory := h.memory
  have hvalues := h.values
  cases heq
  dsimp only at hmemory hvalues
  rw [← hlast] at hrun
  have hold : (h.scene ht htake).Arranged m (start ms i) ((c.args t i).flatMap Value.pieces)
      (shifted ms).length := by
    refine Arranged.carry (σ := .between t _ _ ms c.memory) (List.prefix_refl _)
      (fun n hn p htells => .inl (htells.resolve_right fun hnew => ?_)) htake
    exact absurd (hlast ▸ hn) (Nat.not_le.mpr hnew.1)
  obtain ⟨m', hext, hlast', hv⟩ :=
    harranging (h.scene ht htake) rfl _ v last m hrun rfl (Nat.le_of_eq hlast.symm) hold
  have htokens : shifted ms <+: shifted (ms ++ [.reduce i]) := by
    rw [hshifted]
  have hnew : (Scene.between t (semantics config origin) { supply, memory := 0 }
      (ms ++ [.reduce i]) c'.memory).Arranged m' (start ms i) (Value.pieces ⟨r.lhs.shape, v⟩)
      (shifted ms).length := by
    refine hv.carry htokens fun n hn p htells => .inl ?_
    rcases htells with hold | ⟨hid, hputs⟩
    · exact hold.mono hms
    · exact ⟨ms, i, c, h.origin_of_puts ht hid (by omega) hputs⟩
  refine ⟨m', hlast'.trans hmemory.symm, ?_⟩
  rw [hvalues, hbuilt, hshifted, hlength]
  rw [hlength] at hnew
  rw [← Grammar.Tree.yield_node i] at hnew ⊢
  exact .cons ((hdrop.carry htokens fun n hn p => tells_between hms (hlast ▸ hn)).extend hext) hnew

/-- The values are arranged wherever a run leads. -/
theorem Standing.of_run (ht : grammar.tables = .ok t)
    (h : Run t (semantics config origin) { supply, memory := 0 } ms c) :
    Standing t (semantics config origin) { supply, memory := 0 } ms c := by
  induction h with
  | refl => exact .initial _
  | tail hrun hs ih =>
    rcases Configuration.step_eq_more hs with ⟨q, _, hmove, rfl⟩ | ⟨i, hmove, _⟩
    · rw [hmove]
      exact ih.shift rfl Configuration.look_memory
    · obtain ⟨r, line, e, hred⟩ := exists_reducing ht hrun hs hmove
      rw [hmove]
      exact ih.reduce ht hred

theorem Reducing.memory_le (ht : grammar.tables = .ok t)
    (h : Reducing t config origin { supply, memory := 0 } ms c c' i r line e) :
    c.memory ≤ c'.memory := by
  obtain ⟨b, hb, hlays⟩ := exists_applyTo_of (all_lay r (ofProduction_mem h.rule)) (h.shapes ht)
  have hvalue := h.value
  rw [reduction, hb] at hvalue
  obtain ⟨⟨v, last⟩, hrun, heq⟩ := bind_eq_ok.mp hvalue
  have hmemory := h.memory
  cases heq
  rw [hmemory]
  exact (hlays _ _ _ _ hrun).1

/-- Numbers are not taken back. -/
theorem memory_le_of_run (ht : grammar.tables = .ok t) {ns : List Move}
    (hrun : Run t (semantics config origin) { supply, memory := 0 } ms c)
    (h : Run t (semantics config origin) c ns c') : c.memory ≤ c'.memory := by
  induction h with
  | refl => exact Nat.le_refl _
  | tail hns hs ih =>
    refine Nat.le_trans ih ?_
    rcases Configuration.step_eq_more hs with ⟨q, _, _, rfl⟩ | ⟨i, hmove, _⟩
    · exact Nat.le_of_eq Configuration.look_memory.symm
    · obtain ⟨r, line, e, hred⟩ := exists_reducing ht (hrun.trans hns) hs hmove
      exact hred.memory_le ht

/-- A number is handed out in one reduction only. -/
theorem Numbers.unique (ht : grammar.tables = .ok t) {id j : Nat} {before before' : List Move}
    {d : Configuration Value Goal Nat}
    (h : Numbers t (semantics config origin) { supply, memory := 0 } ms id before i c)
    (k : Numbers t (semantics config origin) { supply, memory := 0 } ms id before' j d) :
    before = before' ∧ i = j ∧ c = d := by
  -- A reduction behind the other one only hands out later numbers.
  have hbehind {i j : Nat} {before before' : List Move} {c d : Configuration Value Goal Nat}
      (h : Numbers t (semantics config origin) { supply, memory := 0 } ms id before i c)
      (k : Numbers t (semantics config origin) { supply, memory := 0 } ms id before' j d)
      (hp : before <+: before') : before = before' := by
    obtain ⟨rest, rfl⟩ := hp
    cases rest with
    | nil => simp
    | cons m rest =>
      have hpart : before ++ [.reduce i] <+: before ++ m :: rest := by
        refine List.prefix_of_prefix_length_le h.part ((List.prefix_append _ _).trans k.part) ?_
        simp
      obtain ⟨tail, htail⟩ := hpart
      obtain ⟨c₁, hfirst, hrest⟩ := (htail ▸ k.run).part
      obtain ⟨c₂, hc₂, hlast⟩ := hfirst.part
      obtain rfl := hc₂.unique h.run
      obtain ⟨c', hstep, hid⟩ := h.issued
      obtain rfl : c₁ = c' := by
        have hmore := hstep.symm.trans hlast.step_of_singleton.1
        cases hmore
        rfl
      have hle := memory_le_of_run ht hfirst hrest
      have hnew := k.new
      omega
  obtain rfl : before = before' := by
    rcases List.prefix_or_prefix_of_prefix ((List.prefix_append _ _).trans h.part)
      ((List.prefix_append _ _).trans k.part) with hp | hp
    · exact hbehind h k hp
    · exact (hbehind k h hp).symm
  obtain rfl := h.run.unique k.run
  have hmove := h.move.symm.trans k.move
  cases hmove
  exact ⟨rfl, rfl, rfl⟩

/-- A run shifts the tokens of the source from the first one on. -/
theorem shifted_prefix_ofText (ht : grammar.tables = .ok t) {source : Text}
    (h : Run t (semantics config origin) { supply := .ofText source, memory := 0 } ms c) :
    shifted ms <+: ((Supply.ofText source).ahead.map (·.1)).takeWhile (·.kind != .eof) :=
  (List.prefix_append _ _).trans
    (h.shifted_prefix grammar_numbered.built.wellFormed grammar_numbered.unreserved ht grammar_endFree)

end Steps

section Goals

/-- In a run over the source the tree is built, and all its nodes have places. They come from
reductions of the run, and the direct parts of a node stand in their order and not in front of it. -/
structure Placed (config : Config) (source : Text) (origin : Nat) (goal : Goal) (t : Tables)
    (ms : List Move) (pos : Nat → Nat) : Prop where
  tables : grammar.tables = .ok t
  run : ∃ c, Run t (semantics config origin) { supply := .ofText source, memory := 0 } ms c ∧
    c.Accepting t ∧ c.goal = some goal
  recorded : ∀ x ∈ goal.nodes, Recorded t (semantics config origin)
    { supply := .ofText source, memory := 0 } ms x (pos x.info.id)
  behind : ∀ x ∈ goal.nodes, ∀ y ∈ x.children, pos x.info.id ≤ pos y.info.id
  order : ∀ x ∈ goal.nodes, x.InOrder pos

/-- Every source is rejected, or it is accepted with a tree whose nodes all have places. -/
theorem rejected_or_placed (config : Config) (source : Text) (origin : Nat) :
    (∃ place message,
      (parse config source origin).result = .error (.rejection place message)) ∨
    ∃ goal t ms pos, (parse config source origin).result = .ok goal ∧
      Placed config source origin goal t ms pos := by
  have hw := grammar_numbered.built.wellFormed
  have hr := grammar_numbered.unreserved
  obtain ⟨t, hlang⟩ := exists_languageTables
  have ht : grammar.tables = .ok t := by rwa [languageTables] at hlang
  obtain ⟨ms, c, hrun, _, hparse, hmore, _⟩ := Grammar.exists_end hw hr ht grammar_endFree
    grammar_ranked.acyclic grammar_ranked.unhidden (semantics config origin) (.ofText source) 0
  have hresult : parse config source origin =
      .ofProgress (c.step t (semantics config origin)) := by
    rw [parse, hlang, parseBy, hparse]
  cases hstep : c.step t (semantics config origin) with
  | more c' => exact absurd hstep (hmore c')
  | failed f c' =>
    obtain ⟨place, message, rfl⟩ := rejection_of_failed ht hrun hstep
    exact .inl ⟨place, message, by rw [hresult, hstep]; rfl⟩
  | accepted goal c' =>
    obtain ⟨hacc, hgoal⟩ := Configuration.step_eq_accepted hstep
    obtain ⟨g, rest, hg, htop⟩ := top_of_accepting ht hrun hacc
    obtain rfl : goal = g := Option.some.inj (hgoal.symm.trans hg)
    -- The tree is the value on top of the stack.
    obtain ⟨m, hlast, hstack⟩ := Standing.of_run ht hrun
    rw [htop] at hstack
    obtain ⟨a, hv⟩ := hstack.head
    have hheld := (hv.nodes.1 (.goal goal) List.mem_cons_self).2
    rw [← goal.nodes_eq] at hheld
    refine .inr ⟨goal, t, ms, m.pos, by rw [hresult, hstep]; rfl, ht, ⟨c, hrun, hacc, hgoal⟩,
      fun x hx => ?_, fun x hx y hy => ((hheld x hx).parts y hy).2, fun x hx => (hheld x hx).order⟩
    have hx := hheld x hx
    refine hx.tells.resolve_right fun hnew => ?_
    exact absurd (hlast ▸ hx.numbered) (Nat.not_le.mpr hnew.1)

end Goals

/-! The order of the parts of a node. Whoever walks a tree from a node to its parts meets the node
first and then its parts as they are written, with two exceptions: the name of an export is listed
before its number, and the specifiers of a property are listed in a fixed order. -/

/-- Every source is rejected, or it is accepted with a tree in which every node has a place among the
tokens of the source. A name of a group is placed at its token, a routine or property at the line of
the word that begins it, and every other node at the first token that its reduction covers. No part
of a node is placed in front of it. The direct parts of a node are listed in the order of their
places, and none but empty statements share the place of the next part. The only parts that need not
be in order are name and number of an export and the specifiers of a property, and these only among
themselves. -/
theorem children_in_source_order (config : Config) (source : Text) (origin : Nat) :
    (∃ place message,
      (parse config source origin).result = .error (.rejection place message)) ∨
    ∃ goal t ms c, (parse config source origin).result = .ok goal ∧ grammar.tables = .ok t ∧
      Run t (semantics config origin) { supply := .ofText source, memory := 0 } ms c ∧
      c.goal = some goal ∧
      shifted ms <+: ((Supply.ofText source).ahead.map (·.1)).takeWhile (·.kind != .eof) ∧
      ∃ pos : Nat → Nat, ∀ x ∈ goal.nodes,
        (∃ before i d, Numbers t (semantics config origin)
          { supply := .ofText source, memory := 0 } ms x.info.id before i d ∧
          PutAt before i x (pos x.info.id)) ∧
        (∀ y ∈ x.children, pos x.info.id ≤ pos y.info.id) ∧ x.InOrder pos := by
  refine (rejected_or_placed config source origin).imp_right ?_
  rintro ⟨goal, t, ms, pos, hresult, hplaced⟩
  obtain ⟨c, hrun, _, hgoal⟩ := hplaced.run
  refine ⟨goal, t, ms, c, hresult, hplaced.tables, hrun, hgoal,
    shifted_prefix_ofText hplaced.tables hrun, pos, fun x hx => ?_⟩
  obtain ⟨before, i, d, horigin⟩ := hplaced.recorded x hx
  exact ⟨⟨before, i, d, horigin.numbers, horigin.place⟩, hplaced.behind x hx, hplaced.order x hx⟩

/-- In `F index 1 name 'x'` the number is the third token and the name the fifth, but the name is the
first part of the export. -/
theorem export_lists_name_first : ∃ r ∈ all, ∃ e d,
    reduction {} 0 r 1 [⟨.token, ⟨.ident, 1, ⟨1, 1⟩, "F"⟩⟩, ⟨.token, ⟨.INDEX, 5, ⟨1, 3⟩, "index"⟩⟩,
      ⟨.expr, .int ⟨1, 1, 0⟩ 1 "1"⟩, ⟨.token, ⟨.NAME, 4, ⟨1, 11⟩, "name"⟩⟩,
      ⟨.expr, .char ⟨2, 1, 0⟩ 0x78⟩] 2 = .ok e ∧ e.value = ⟨.decl, .exported d⟩ ∧
    (Node.decl (.exported d)).children = [.expr (.char ⟨2, 1, 0⟩ 0x78), .expr (.int ⟨1, 1, 0⟩ 1 "1")] ∧
    ¬ (Node.decl (.exported d)).children.Pairwise (Node.Precedes fun id => 2 * id) := by
  have hmem : variableSections ⊆ all := fun r hr => by simp [all, sections, hr]
  refine ⟨_, hmem (List.mem_of_getElem? (i := 14) rfl), _, _, rfl, rfl, rfl, fun h => ?_⟩
  have hname := (List.pairwise_cons.mp h).1 _ List.mem_cons_self
  exact absurd hname.1 (by decide)

end ObjectPascal.Rule
