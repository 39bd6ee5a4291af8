import ObjectPascal.Proofs.Rule.Layout

/-!
Where the nodes of a value stand in the source. A value on the stack of a parse stands for a stretch
of tokens, and the nodes and names that it carries stand there one after the other. Every node gets
a place when it is numbered. Nodes are arranged if their places follow the order of the list, and if
the same holds of the direct parts of every node.
-/

namespace ObjectPascal

namespace Node

/-- A statement without text. -/
def void : Node → Bool
  | .stmt (.empty _) => true
  | _ => false

/-- The kinds of nodes that can be put on the line of the token behind their text. -/
def slack : Node → Bool
  | .stmt (.empty _) | .type (.named _) | .decl (.unit _) => true
  | _ => false

/-- An if statement without an else part. -/
def bare : Node → Bool
  | .stmt (.cond _ _ _ none) => true
  | _ => false

/-- The parts of a node that are not listed as they are written: the name and the number of an
export, and the specifiers of a property. -/
def free : Node → List Node
  | .decl (.exported d) => (Node.decl (.exported d)).children
  | .decl (.property d) => (Rule.specExprs d).map .expr
  | _ => []

theorem slack_of_void {n : Node} (h : n.void = true) : n.slack = true := by
  cases n with
  | stmt s => cases s <;> first | rfl | cases h
  | _ => cases h

/-- An export, whose parts are all free. -/
def isExport : Node → Bool
  | .decl (.exported _) => true
  | _ => false

/-- By its place `y` stands before `z`, and not at the same place unless it is without text. -/
def Precedes (pos : Nat → Nat) (y z : Node) : Prop :=
  pos y.info.id ≤ pos z.info.id ∧ (y.void = false → pos y.info.id < pos z.info.id)

/-- The parts of the node are listed in the order of their places, as long as not both are free. -/
def InOrder (pos : Nat → Nat) (n : Node) : Prop :=
  n.children.Pairwise fun y z => Precedes pos y z ∨ (y ∈ n.free ∧ z ∈ n.free)

/-- The node has its parts from a list of nodes, in the order of the list but for the free ones, which
come last. -/
def TakesFrom (n : Node) (ns : List Node) : Prop :=
  ∃ front back kept loose, ns = front ++ back ∧ n.children = kept ++ loose ∧ kept.Sublist front ∧
    ∀ y ∈ loose, y ∈ back ∧ y ∈ n.free

section Parts

variable {n : Node} {ns : List Node}

theorem TakesFrom.of_sublist (h : n.children.Sublist ns) : n.TakesFrom ns :=
  ⟨ns, [], n.children, [], by simp, by simp, h, nofun⟩

theorem TakesFrom.of_isExport (h : n.isExport = true) (hns : ∀ c ∈ n.children, c ∈ ns) :
    n.TakesFrom ns := by
  have hfree : n.free = n.children := by
    cases n with
    | decl d => cases d <;> first | rfl | cases h
    | _ => cases h
  exact ⟨[], ns, [], n.children, by simp, by simp, .slnil, fun y hy => ⟨hns y hy, hfree ▸ hy⟩⟩

theorem TakesFrom.subset (h : n.TakesFrom ns) : ∀ c ∈ n.children, c ∈ ns := by
  obtain ⟨front, back, kept, loose, rfl, hchildren, hkept, hloose⟩ := h
  rw [hchildren]
  intro c hc
  rcases List.mem_append.mp hc with hc | hc
  · exact List.mem_append_left _ (hkept.subset hc)
  · exact List.mem_append_right _ (hloose c hc).1

theorem TakesFrom.inOrder (h : n.TakesFrom ns) {pos : Nat → Nat}
    (hns : ns.Pairwise (Precedes pos)) : n.InOrder pos := by
  obtain ⟨front, back, kept, loose, rfl, hchildren, hkept, hloose⟩ := h
  obtain ⟨hfront, _, hcross⟩ := List.pairwise_append.mp hns
  rw [InOrder, hchildren, List.pairwise_append]
  refine ⟨(hfront.sublist hkept).imp .inl, ?_, fun y hy z hz => ?_⟩
  · exact List.pairwise_of_forall_mem_list fun y hy z hz =>
      .inr ⟨(hloose y hy).2, (hloose z hz).2⟩
  · exact .inl (hcross y (hkept.subset hy) z (hloose z hz).1)

end Parts

end Node

namespace Rule

/-- A word of the source that declares something: its line, and its text if that is kept. -/
structure Word where
  line : Nat
  text : Option Text

/-- The token is the word. -/
def Word.Fits (w : Word) (t : Token) : Prop := t.line = w.line ∧ ∀ s ∈ w.text, t.text = s

/-- The word that a node is put at. Every name of a group has its own node, and members are put at
the word that begins them; all other nodes are put where their text begins. -/
def wordOf : Node → Option Word
  | .decl (.var d) => some ⟨d.info.line, some d.name⟩
  | .decl (.param d) => some ⟨d.info.line, some d.name⟩
  | .decl (.label d) => some ⟨d.info.line, some d.name⟩
  | .decl (.type d) => some ⟨d.info.line, some d.name⟩
  | .decl (.composite d) => some ⟨d.info.line, some d.name⟩
  | .decl (.callable d) => some ⟨d.info.line, none⟩
  | .decl (.property d) => some ⟨d.info.line, none⟩
  | _ => none

/-- What a value puts side by side: nodes, and words for which nodes are made later. -/
inductive Piece where
  | node (n : Node)
  | word (w : Word)

/-- The word of a token. -/
def nameWord (t : Token) : Word := ⟨t.line, some t.text⟩

/-- The words that a value carries in front of its nodes. -/
def Shape.words : (s : Shape) → s.Val → List Word
  | token, t => [nameWord t]
  | varGroup, g => (VarGroup.names g).map nameWord
  | routineHead, h => [⟨RoutineHead.line h, none⟩]
  | member, m => memberWords m
  | _, _ => []
where
  memberWords : PendingMember → List Word
    | .visibility _ => []
    | .fields g => g.names.map nameWord
    | .method h _ => [⟨h.line, none⟩]
    | .property _ _ _ _ line => [⟨line, none⟩]

/-- Words and nodes of a value in the order of the source. -/
def Shape.pieces : (s : Shape) → s.Val → List Piece
  | list s, l => List.flatMap s.pieces l
  | opt s, o => List.flatMap s.pieces (Option.toList o)
  | s, v => (s.words v).map .word ++ (s.parts v).map .node

/-- The values of the shape carry no words. -/
def Shape.wordless : Shape → Bool
  | token | varGroup | routineHead | member => false
  | list s | opt s => s.wordless
  | _ => true

/-- Words and nodes of a value. -/
def Value.pieces (v : Value) : List Piece := v.1.pieces v.2

/-- The nodes among pieces. -/
def nodesOf (ps : List Piece) : List Node :=
  ps.filterMap fun
    | .node n => some n
    | .word _ => none

section Pieces

@[simp]
theorem nodesOf_append (ps qs : List Piece) : nodesOf (ps ++ qs) = nodesOf ps ++ nodesOf qs :=
  List.filterMap_append

@[simp]
theorem nodesOf_words (ws : List Word) : nodesOf (ws.map .word) = [] := by
  simp [nodesOf]

@[simp]
theorem nodesOf_nodes (ns : List Node) : nodesOf (ns.map .node) = ns := by
  simp [nodesOf]

theorem nodesOf_flatMap {α : Type} (l : List α) (f : α → List Piece) :
    nodesOf (l.flatMap f) = l.flatMap fun a => nodesOf (f a) := by
  induction l with
  | nil => rfl
  | cons a l ih => rw [List.flatMap_cons, nodesOf_append, ih, List.flatMap_cons]

/-- The nodes among the pieces of a value are those it carries. -/
theorem nodesOf_pieces (s : Shape) (v : s.Val) : nodesOf (s.pieces v) = s.parts v := by
  have hlist {s : Shape} (ih : ∀ v, nodesOf (s.pieces v) = s.parts v) (l : List s.Val) :
      nodesOf (l.flatMap s.pieces) = l.flatMap s.parts := by
    rw [nodesOf_flatMap]
    exact List.flatMap_congr fun a _ => ih a
  induction s with
  | list s ih => exact hlist ih v
  | opt s ih => exact hlist ih (Option.toList v)
  | _ =>
    simp only [Shape.pieces, nodesOf_append, nodesOf_words, nodesOf_nodes, List.nil_append]

theorem nodesOf_values (vs : List Value) :
    nodesOf (vs.flatMap Value.pieces) = vs.flatMap Value.parts := by
  rw [nodesOf_flatMap]
  exact List.flatMap_congr fun v _ => nodesOf_pieces v.1 v.2

/-- Without words there are only nodes. -/
theorem pieces_of_wordless (s : Shape) (h : s.wordless = true) (v : s.Val) :
    s.pieces v = (s.parts v).map .node := by
  have hlist {s : Shape} (ih : ∀ v, s.pieces v = (s.parts v).map .node) (l : List s.Val) :
      l.flatMap s.pieces = (l.flatMap s.parts).map .node := by
    rw [List.map_flatMap]
    exact List.flatMap_congr fun a _ => ih a
  induction s with
  | list s ih => exact hlist (ih h) v
  | opt s ih => exact hlist (ih h) (Option.toList v)
  | _ => first | rfl | cases h

end Pieces

/-- Places of the nodes numbered so far, by their numbers. -/
structure Places where
  pos : Nat → Nat
  last : Nat

/-- More nodes have places, and the others have kept theirs. -/
def Places.Extends (m m' : Places) : Prop :=
  m.last ≤ m'.last ∧ ∀ i ≤ m.last, m'.pos i = m.pos i

namespace Places.Extends

variable {m m' m'' : Places}

theorem refl (m : Places) : m.Extends m := ⟨Nat.le_refl _, fun _ _ => rfl⟩

theorem trans (h : m.Extends m') (k : m'.Extends m'') : m.Extends m'' :=
  ⟨Nat.le_trans h.1 k.1, fun i hi => (k.2 i (Nat.le_trans hi h.1)).trans (h.2 i hi)⟩

end Places.Extends

/-- Where a rule is reduced: the tokens read so far, the stretch of them that the reduction covers,
the number handed out last before, the line of the reduction, the nodes that the rule may put where
the stretch begins, and what is known of the places of older nodes. Such a node is on the line of a
token of the stretch, if it is not one of those that can be on the next line, and none but the empty
statement has an empty stretch. -/
structure Scene where
  tokens : List Token
  lo : Nat
  hi : Nat
  first : Nat
  line : Nat
  admits : Node → Bool
  old : Node → Nat → Prop
  le : lo ≤ hi
  full : ∀ n, admits n = true → n.void = false → lo < hi
  lined : ∀ n, admits n = true → n.slack = false →
    ∃ k t, lo ≤ k ∧ k < hi ∧ tokens[k]? = some t ∧ t.line = line
  owned : ∀ owner n p, old n p → old (owned owner n) p

namespace Scene

variable (σ : Scene) (m : Places)

/-- The place that a new node is given: that of its word, or where the stretch begins. -/
def Puts (n : Node) (p : Nat) : Prop :=
  match wordOf n with
  | some w => σ.lo ≤ p ∧ p < σ.hi ∧ ∃ t, σ.tokens[p]? = some t ∧ w.Fits t
  | none => p = σ.lo ∧ n.info.line = σ.line ∧ σ.admits n = true

/-- What is known of the place of a node, old or new. -/
def Tells (n : Node) (p : Nat) : Prop := σ.old n p ∨ (σ.first < n.info.id ∧ σ.Puts n p)

/-- The node has its place, and its direct parts stand behind it in their order. -/
structure Held (n : Node) : Prop where
  tells : σ.Tells n (m.pos n.info.id)
  numbered : n.info.id ≤ m.last
  parts : ∀ c ∈ n.children, c.info.id ≤ m.last ∧ m.pos n.info.id ≤ m.pos c.info.id
  order : n.InOrder m.pos

/-- The node is placed in a stretch of tokens, and on the line of one of them. -/
structure Spans (n : Node) (a b : Nat) : Prop where
  start : a ≤ m.pos n.info.id
  stop : m.pos n.info.id ≤ b
  full : n.void = false → m.pos n.info.id < b
  line : n.slack = false →
    ∃ k t, m.pos n.info.id ≤ k ∧ k < b ∧ σ.tokens[k]? = some t ∧ t.line = n.info.line

/-- The pieces stand one after the other in a stretch of tokens, and so do the parts of all
nodes. -/
inductive Arranged : Nat → List Piece → Nat → Prop
  | nil {a b : Nat} (h : a ≤ b) : Arranged a [] b
  | node {a b c : Nat} {n : Node} {ps : List Piece} (hs : σ.Spans m n a b)
      (hn : ∀ x ∈ n.nodes, σ.Held m x) (h : Arranged b ps c) : Arranged a (.node n :: ps) c
  | word {a p c : Nat} {w : Word} {t : Token} {ps : List Piece} (hp : a ≤ p)
      (ht : σ.tokens[p]? = some t) (hw : w.Fits t) (h : Arranged (p + 1) ps c) :
      Arranged a (.word w :: ps) c

variable {σ m} {m' : Places} {a b c : Nat} {ps qs : List Piece} {n : Node}

theorem Held.extend (h : σ.Held m n) (hm : m.Extends m') : σ.Held m' n := by
  have hpos {x : Node} (hx : x.info.id ≤ m.last) : m'.pos x.info.id = m.pos x.info.id := hm.2 _ hx
  refine ⟨?_, Nat.le_trans h.numbered hm.1, fun c hc => ?_, ?_⟩
  · rw [hpos h.numbered]
    exact h.tells
  · obtain ⟨hid, hle⟩ := h.parts c hc
    rw [hpos h.numbered, hpos hid]
    exact ⟨Nat.le_trans hid hm.1, hle⟩
  · refine h.order.imp_of_mem fun {y z} hy hz hyz => hyz.imp_left fun hyz => ?_
    unfold Node.Precedes
    rw [hpos (h.parts y hy).1, hpos (h.parts z hz).1]
    exact hyz

/-- A node is held with all nodes below it if its direct parts are and stand behind it in order. -/
theorem Held.nodes (hid : n.info.id ≤ m.last) (ht : σ.Tells n (m.pos n.info.id))
    (hparts : ∀ c ∈ n.children, m.pos n.info.id ≤ m.pos c.info.id ∧ ∀ x ∈ c.nodes, σ.Held m x)
    (horder : n.InOrder m.pos) :
    ∀ x ∈ n.nodes, σ.Held m x := by
  intro x hx
  rcases Node.mem_nodes_iff.mp hx with rfl | hx
  · refine ⟨ht, hid, fun c hc => ?_, horder⟩
    obtain ⟨hle, hc⟩ := hparts c hc
    exact ⟨(hc c c.self_mem).numbered, hle⟩
  · obtain ⟨c, hc, hx⟩ := Node.mem_below_iff.mp hx
    exact (hparts c hc).2 x hx

theorem Spans.mono (h : σ.Spans m n a b) {a' b' : Nat} (ha : a' ≤ a) (hb : b ≤ b') :
    σ.Spans m n a' b' := by
  refine ⟨Nat.le_trans ha h.start, Nat.le_trans h.stop hb, fun hv => ?_, fun hs => ?_⟩
  · exact Nat.lt_of_lt_of_le (h.full hv) hb
  · obtain ⟨k, t, hk, hkb, ht⟩ := h.line hs
    exact ⟨k, t, hk, Nat.lt_of_lt_of_le hkb hb, ht⟩

theorem Spans.extend (h : σ.Spans m n a b) (hm : m.Extends m') (hn : n.info.id ≤ m.last) :
    σ.Spans m' n a b := by
  have hpos : m'.pos n.info.id = m.pos n.info.id := hm.2 _ hn
  refine ⟨?_, ?_, ?_, ?_⟩
  all_goals rw [hpos]
  · exact h.start
  · exact h.stop
  · exact h.full
  · exact h.line

namespace Arranged

theorem le (h : σ.Arranged m a ps b) : a ≤ b := by
  induction h with
  | nil h => exact h
  | node hs _ _ ih => exact Nat.le_trans (Nat.le_trans hs.start hs.stop) ih
  | word hp _ _ _ ih => omega

theorem mono_left (h : σ.Arranged m a ps b) {a' : Nat} (ha : a' ≤ a) : σ.Arranged m a' ps b := by
  cases h with
  | nil h => exact .nil (Nat.le_trans ha h)
  | node hs hn h => exact .node (hs.mono ha (Nat.le_refl _)) hn h
  | word hp ht hw h => exact .word (Nat.le_trans ha hp) ht hw h

theorem mono_right (h : σ.Arranged m a ps b) {b' : Nat} (hb : b ≤ b') : σ.Arranged m a ps b' := by
  induction h with
  | nil h => exact .nil (Nat.le_trans h hb)
  | node hs hn _ ih => exact .node hs hn (ih hb)
  | word hp ht hw _ ih => exact .word hp ht hw (ih hb)

theorem append (h : σ.Arranged m a ps b) (k : σ.Arranged m b qs c) :
    σ.Arranged m a (ps ++ qs) c := by
  induction h with
  | nil h => exact k.mono_left h
  | node hs hn _ ih => exact .node hs hn (ih k)
  | word hp ht hw _ ih => exact .word hp ht hw (ih k)

theorem split (h : σ.Arranged m a (ps ++ qs) c) :
    ∃ b, σ.Arranged m a ps b ∧ σ.Arranged m b qs c := by
  induction ps generalizing a with
  | nil => exact ⟨a, .nil (Nat.le_refl a), h⟩
  | cons p ps ih =>
    cases h with
    | node hs hn h =>
      obtain ⟨b, hb, hc⟩ := ih h
      exact ⟨b, .node hs hn hb, hc⟩
    | word hp ht hw h =>
      obtain ⟨b, hb, hc⟩ := ih h
      exact ⟨b, .word hp ht hw hb, hc⟩

theorem sublist (h : σ.Arranged m a ps b) (hsub : qs.Sublist ps) : σ.Arranged m a qs b := by
  induction hsub generalizing a with
  | slnil => exact h
  | cons p _ ih =>
    cases h with
    | node hs _ h => exact (ih h).mono_left (Nat.le_trans hs.start hs.stop)
    | word hp _ _ h => exact (ih h).mono_left (by omega)
  | cons_cons p _ ih =>
    cases h with
    | node hs hn h => exact .node hs hn (ih h)
    | word hp ht hw h => exact .word hp ht hw (ih h)

theorem extend (h : σ.Arranged m a ps b) (hm : m.Extends m') : σ.Arranged m' a ps b := by
  induction h with
  | nil h => exact .nil h
  | node hs hn _ ih =>
    refine .node (hs.extend hm (hn _ (Node.self_mem _)).numbered) (fun x hx => ?_) ih
    exact (hn x hx).extend hm
  | word hp ht hw _ ih => exact .word hp ht hw ih

theorem of_wordless (h : σ.Arranged m a ps b) {ns : List Node} (hsub : ns.Sublist (nodesOf ps)) :
    σ.Arranged m a (ns.map .node) b := by
  have hnodes : ((nodesOf ps).map Piece.node).Sublist ps := by
    clear h hsub
    induction ps with
    | nil => exact .slnil
    | cons p ps ih =>
      cases p with
      | node n => exact ih.cons_cons _
      | word w => exact ih.cons _
  exact h.sublist ((hsub.map _).trans hnodes)

/-- What a word says need not be kept. -/
theorem anonymous {w : Word} (h : σ.Arranged m a (.word w :: ps) b) :
    σ.Arranged m a (.word ⟨w.line, none⟩ :: ps) b := by
  cases h with
  | word hp ht hw h => exact .word hp ht ⟨hw.1, by simp⟩ h

/-- The nodes among arranged pieces are in order, each with all nodes below it. -/
theorem nodes (h : σ.Arranged m a ps b) :
    (∀ n ∈ nodesOf ps, a ≤ m.pos n.info.id ∧ ∀ x ∈ n.nodes, σ.Held m x) ∧
      (nodesOf ps).Pairwise (Node.Precedes m.pos) := by
  induction h with
  | nil => exact ⟨by simp [nodesOf], .nil⟩
  | @node a b c n ps hs hn _ ih =>
    obtain ⟨hall, hpair⟩ := ih
    refine ⟨List.forall_mem_cons.mpr ⟨⟨hs.start, hn⟩, fun y hy => ?_⟩,
      List.pairwise_cons.mpr ⟨fun y hy => ?_, hpair⟩⟩
    · obtain ⟨hle, hy⟩ := hall y hy
      exact ⟨Nat.le_trans (Nat.le_trans hs.start hs.stop) hle, hy⟩
    · obtain ⟨hle, _⟩ := hall y hy
      exact ⟨Nat.le_trans hs.stop hle, fun hv => Nat.lt_of_lt_of_le (hs.full hv) hle⟩
  | @word a p c w t ps hp _ _ _ ih =>
    obtain ⟨hall, hpair⟩ := ih
    refine ⟨fun y hy => ?_, hpair⟩
    obtain ⟨hle, hy⟩ := hall y hy
    exact ⟨by omega, hy⟩

/-- A node over pieces that stand behind its place is held with all nodes below it. -/
theorem held (h : σ.Arranged m a ps b) (hid : n.info.id ≤ m.last) (hp : m.pos n.info.id ≤ a)
    (ht : σ.Tells n (m.pos n.info.id)) (hn : n.TakesFrom (nodesOf ps)) :
    ∀ x ∈ n.nodes, σ.Held m x := by
  obtain ⟨hall, hpair⟩ := h.nodes
  refine Held.nodes hid ht (fun c hc => ?_) (hn.inOrder hpair)
  obtain ⟨hle, hc⟩ := hall c (hn.subset c hc)
  exact ⟨Nat.le_trans hp hle, hc⟩

end Arranged

end Scene

end Rule

end ObjectPascal
