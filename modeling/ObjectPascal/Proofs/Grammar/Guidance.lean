import ObjectPascal.Proofs.Grammar.Propagation
import ObjectPascal.Proofs.Grammar.Stack

/-!
Runs as the tables see them. What the machine does next depends on its states and on the kinds of
the tokens that come, never on values or memory. A track lists the moves that the tables choose
while given tokens come; two tracks over the same tokens agree as far as both go, and every run is
one. The moves of a run and the parse trees that they build determine each other.
-/

namespace ObjectPascal.Grammar

variable {V G M : Type} {g : Grammar} {t : Tables} {s : Semantics V G M}

/-- The kind of the next token where the end of the input follows the given ones. -/
def following : List Token → Kind
  | [] => .eof
  | token :: _ => token.kind

namespace Tables

theorem Chooses.unique {q i j : Nat} {k : Kind} (h : t.Chooses q k i) (h' : t.Chooses q k j) :
    i = j := by
  rcases h with h | ⟨h, hk⟩ <;> rcases h' with h' | ⟨h', hk'⟩
  · exact Option.some.inj (h.symm.trans h')
  · rw [h] at h'
    cases h'
  · rw [h] at h'
    cases h'
  · exact Action.reduce.inj (hk.symm.trans hk')

theorem Chooses.action_eq {q i : Nat} {k : Kind} (h : t.Chooses q k i)
    (hd : t.defaultAt q = none) : t.action q k = .reduce i := by
  rcases h with h | ⟨_, h⟩
  · rw [hd] at h
    cases h
  · exact h

/-- The moves that the tables choose from one stack of states to another, where the tokens `ts` come
behind those that are shifted. -/
inductive Track (t : Tables) (ts : List Token) : List Nat → List Move → List Nat → Prop
  | refl (a : List Nat) : Track t ts a [] a
  | shift {a b : List Nat} {ms : List Move} {token : Token} {q : Nat}
      (hd : t.defaultAt (a.headD 0) = none) (hq : t.action (a.headD 0) token.kind = .shift q)
      (h : Track t ts (q :: a) ms b) : Track t ts a (.shift token :: ms) b
  | reduce {a b : List Nat} {ms : List Move} {i q : Nat}
      (hi : t.Chooses (a.headD 0) (following (shifted ms ++ ts)) i)
      (hq : t.goto ((a.drop (t.grammar.production i).rhs.length).headD 0)
        (t.grammar.production i).lhs = some q)
      (h : Track t ts (q :: a.drop (t.grammar.production i).rhs.length) ms b) :
      Track t ts a (.reduce i :: ms) b

namespace Track

variable {a b c : List Nat} {ms ns : List Move} {ts us : List Token}

theorem append (h : t.Track (shifted ns ++ ts) a ms b) (k : t.Track ts b ns c) :
    t.Track ts a (ms ++ ns) c := by
  induction h with
  | refl => exact k
  | shift hd hq _ ih => exact .shift hd hq (ih k)
  | reduce hi hq _ ih =>
    refine .reduce ?_ hq (ih k)
    rwa [List.append_eq, shifted_append, List.append_assoc]

theorem split (h : t.Track ts a (ms ++ ns) c) :
    ∃ b, t.Track (shifted ns ++ ts) a ms b ∧ t.Track ts b ns c := by
  induction ms generalizing a with
  | nil => exact ⟨a, .refl a, h⟩
  | cons m ms ih =>
    cases h with
    | shift hd hq h =>
      obtain ⟨b, hb, hc⟩ := ih h
      exact ⟨b, .shift hd hq hb, hc⟩
    | reduce hi hq h =>
      obtain ⟨b, hb, hc⟩ := ih h
      refine ⟨b, .reduce ?_ hq hb, hc⟩
      rwa [List.append_eq, shifted_append, List.append_assoc] at hi

/-- Of two tracks from one stack over the same tokens one goes on where the other ends. -/
theorem compare (h : t.Track ts a ms b) (k : t.Track us a ns c)
    (hs : shifted ms ++ ts = shifted ns ++ us) :
    (∃ rest, ns = ms ++ rest ∧ t.Track us b rest c) ∨
      ∃ rest, ms = ns ++ rest ∧ t.Track ts c rest b := by
  induction h generalizing ns with
  | refl a => exact Or.inl ⟨ns, rfl, k⟩
  | @shift a b ms token q hd hq h ih =>
    cases k with
    | refl => exact Or.inr ⟨_, rfl, .shift hd hq h⟩
    | @shift _ _ ns token' q' hd' hq' k =>
      obtain ⟨rfl, hrest⟩ : token = token' ∧ shifted ms ++ ts = shifted ns ++ us := by
        simpa [shifted] using hs
      obtain rfl : q = q' := Action.shift.inj (hq.symm.trans hq')
      rcases ih k hrest with ⟨rest, rfl, htrack⟩ | ⟨rest, rfl, htrack⟩
      · exact Or.inl ⟨rest, rfl, htrack⟩
      · exact Or.inr ⟨rest, rfl, htrack⟩
    | @reduce _ _ ns i q' hi _ k =>
      have hkind : following (shifted ns ++ us) = token.kind := by
        rw [← show shifted (.reduce i :: ns) = shifted ns from rfl, ← hs]
        rfl
      rw [hkind] at hi
      rw [hi.action_eq hd] at hq
      cases hq
  | @reduce a b ms i q hi hq h ih =>
    cases k with
    | refl => exact Or.inr ⟨_, rfl, .reduce hi hq h⟩
    | @shift _ _ ns token q' hd' hq' k =>
      have hkind : following (shifted ms ++ ts) = token.kind := by
        rw [← show shifted (.reduce i :: ms) = shifted ms from rfl, hs]
        rfl
      rw [hkind] at hi
      rw [hi.action_eq hd'] at hq'
      cases hq'
    | @reduce _ _ ns j q' hj hq' k =>
      have hrest : shifted ms ++ ts = shifted ns ++ us := hs
      obtain rfl : i = j := hi.unique (hrest ▸ hj)
      obtain rfl : q = q' := Option.some.inj (hq.symm.trans hq')
      rcases ih k hrest with ⟨rest, rfl, htrack⟩ | ⟨rest, rfl, htrack⟩
      · exact Or.inl ⟨rest, rfl, htrack⟩
      · exact Or.inr ⟨rest, rfl, htrack⟩

end Track

end Tables

theorem Configuration.token_of_ahead {c : Configuration V G M} {token : Token}
    (h : token ∈ c.ahead) : c.token = token := by
  rw [Configuration.token, Option.mem_def.mp h]

/-- A run is a track. Only a token that has been looked at decides a reduction, and it stays the
next one until it is shifted, even where a reduction stops the supply of tokens. -/
theorem Run.track_of_ahead {c c' : Configuration V G M} {ms : List Move} (h : Run t s c ms c')
    {ts : List Token} (hts : ∀ token ∈ c'.ahead, following ts = token.kind) :
    t.Track ts c.states ms c'.states := by
  induction h generalizing ts with
  | refl => exact .refl _
  | @tail ms c₁ c₂ _ hs ih =>
    have htoken : ∀ token ∈ c₁.ahead, c₁.token.kind = token.kind := fun token hmem =>
      congrArg Token.kind (Configuration.token_of_ahead hmem)
    rcases Configuration.step_eq_more hs with ⟨q, hq, hmove, rfl⟩ | ⟨i, hmove, hred⟩
    · have hd : t.defaultAt c₁.top = none := by
        cases hd : t.defaultAt c₁.top with
        | none => rfl
        | some i => simp [Configuration.move?, hd] at hmove
      rw [hmove]
      have hprefix : t.Track (c₁.token :: ts) c.states ms c₁.states := ih htoken
      exact hprefix.append (.shift hd hq (.refl _))
    · rw [hmove]
      rcases hred with ⟨hd, hred⟩ | ⟨⟨hd, hact⟩, hred⟩
      · obtain ⟨r, q, _, hgoto, rfl⟩ := Configuration.reduce_eq_more hred
        exact (ih hts).append (.reduce (Or.inl hd) hgoto (.refl _))
      · obtain ⟨r, q, _, hgoto, rfl⟩ := Configuration.reduce_eq_more hred
        have hnext : following ts = c₁.token.kind := hts c₁.token Configuration.look_ahead
        simp only [Configuration.look_states] at hgoto ⊢
        exact (ih fun token hmem => hnext.trans (htoken token hmem)).append
          (.reduce (Or.inr ⟨hd, hnext ▸ hact⟩) hgoto (.refl _))

theorem Run.track {c c' : Configuration V G M} {ms : List Move} (h : Run t s c ms c')
    (ts : List Token) (hts : following ts = c'.token.kind) : t.Track ts c.states ms c'.states :=
  h.track_of_ahead fun _ hmem => hts.trans (congrArg _ (Configuration.token_of_ahead hmem))

section Build

/-- The moves that build a tree: its leaves are shifted from left to right, and each node is reduced
to behind its children. -/
def Tree.moves : Tree → List Move
  | .leaf token => [.shift token]
  | .node i children => children.flatMap Tree.moves ++ [.reduce i]

@[simp]
theorem Tree.moves_leaf (token : Token) : (Tree.leaf token).moves = [.shift token] := by
  rw [Tree.moves]

@[simp]
theorem Tree.moves_node (i : Nat) (children : List Tree) :
    (Tree.node i children).moves = children.flatMap Tree.moves ++ [.reduce i] := by
  rw [Tree.moves]

/-- What a move does to a stack of trees. -/
def grow (g : Grammar) (ts : List Tree) : Move → List Tree
  | .shift token => .leaf token :: ts
  | .reduce i => .node i (ts.take (g.production i).rhs.length).reverse ::
      ts.drop (g.production i).rhs.length

/-- The stack of trees that moves build. -/
def built (g : Grammar) (ms : List Move) : List Tree := ms.foldl g.grow []

/-- The moves that build a stack of trees can be read off it. -/
theorem moves_built (ms : List Move) : (g.built ms).reverse.flatMap Tree.moves = ms := by
  induction ms using List.reverseRecOn with
  | nil => rfl
  | append_singleton ms m ih =>
    rw [built, List.foldl_append, List.foldl_cons, List.foldl_nil]
    rw [built] at ih
    generalize ms.foldl g.grow [] = ts at ih
    cases m with
    | shift token => simp [grow, ih]
    | reduce i =>
      have hsplit := List.take_append_drop (g.production i).rhs.length ts
      rw [← hsplit, List.reverse_append, List.flatMap_append] at ih
      simp [grow, ← ih]

theorem shifted_flatMap {α : Type} (l : List α) (f : α → List Move) :
    shifted (l.flatMap f) = l.flatMap fun x => shifted (f x) := by
  induction l with
  | nil => rfl
  | cons x l ih => simp [ih]

theorem Tree.shifted_moves : (tree : Tree) → shifted tree.moves = tree.yield
  | .leaf token => by simp
  | .node i children => by
    simp only [Tree.moves_node, Tree.yield_node, shifted_append, shifted_reduce, List.append_nil,
      shifted_flatMap]
    exact List.flatMap_congr fun child _ => child.shifted_moves

theorem shifted_forest (forest : List Tree) :
    shifted (forest.flatMap Tree.moves) = forest.flatMap Tree.yield := by
  rw [shifted_flatMap]
  exact List.flatMap_congr fun tree _ => tree.shifted_moves

/-- The moves of a tree put it on the stack. -/
theorem Tree.Valid.foldl_moves {tree : Tree} (h : tree.Valid g) (ts : List Tree) :
    tree.moves.foldl g.grow ts = tree :: ts := by
  induction h generalizing ts with
  | leaf token => simp [grow]
  | node i children _ hroots _ ih =>
    have hforest (forest : List Tree) (hsub : ∀ tree ∈ forest, tree ∈ children) (ts : List Tree) :
        (forest.flatMap Tree.moves).foldl g.grow ts = forest.reverse ++ ts := by
      induction forest generalizing ts with
      | nil => rfl
      | cons tree forest ihf =>
        rw [List.flatMap_cons, List.foldl_append, ih tree (hsub tree List.mem_cons_self),
          ihf fun tree' h => hsub tree' (List.mem_cons_of_mem _ h)]
        simp
    have hlen : (g.production i).rhs.length = children.reverse.length := by
      rw [← hroots, List.length_map, List.length_reverse]
    rw [Tree.moves_node, List.foldl_append, hforest children fun _ h => h]
    simp only [List.foldl_cons, List.foldl_nil, grow, hlen, List.take_left, List.drop_left,
      List.reverse_reverse]

theorem Tree.Valid.built_moves {tree : Tree} (h : tree.Valid g) : g.built tree.moves = [tree] :=
  h.foldl_moves []

/-- The trees that the moves of a run build are those that its stacks stand for. -/
theorem Parsing.built (hw : g.WellFormed) (hr : g.Unreserved) (ht : g.tables = .ok t)
    {supply : Supply} {memory : M} {ms : List Move} {c : Configuration V G M}
    (h : Run t s { supply, memory } ms c) : Parsing g s ms c (g.built ms) := by
  induction h with
  | refl => exact initial supply memory
  | @tail ms c₁ c₂ _ hs ih =>
    rcases Configuration.step_eq_more hs with ⟨q, hq, hmove, rfl⟩ | ⟨i, hmove, _⟩
    · rw [hmove, Option.toList_some, Grammar.built, List.foldl_append]
      exact ih.shift hw hr ht hq rfl rfl
    · obtain ⟨_, hstates, hvalues, _, hred⟩ := Configuration.reduce_of_step hs hmove
      rw [hmove, Option.toList_some, Grammar.built, List.foldl_append]
      exact ih.reduce hw hr ht (Configuration.reduces_of_move hmove) hstates hvalues hred

end Build

end ObjectPascal.Grammar

/-!
Parse trees and the items of the states. Where the tables come to a tree, an item of the top state
has its root behind the dot and expects what follows the tree; then the items of its production
expect its children one after the other. The moves of a tree put one state on the stack, over which
the root is a step.
-/

namespace ObjectPascal.Grammar

variable {g : Grammar} {t : Tables}

/-- The start item expects the end of the input. -/
theorem expects_start (hw : g.WellFormed) (hr : g.Unreserved) :
    g.Expects 0 ⟨0, 0⟩ Kind.eof.index := by
  have hget : (g.kernelAt 0)[0]? = some ⟨0, 0⟩ := by rw [kernelAt_zero hw hr]; rfl
  have hplace : g.offset 0 + 0 = 0 := by simp [offset]
  have hsize : 0 < g.slots.size := hplace ▸ place_lt hget
  refine .kernel (mem_kernelSets.mpr ⟨0, hget, rfl⟩) ?_
  rw [hplace]
  refine lookaheads_spec.1.2 _ _ (((flow_sets g.passes g.slots.initial).2 _ _).mpr (Or.inl ?_))
  exact mem_initial.mpr ⟨rfl, hsize, rfl⟩

/-- Behind a tree the remaining trees and tokens begin with what follows in the item. -/
theorem follows_forest (hw : g.WellFormed) {i : Item} {rest : List Tree}
    (hrest : g.rest i = rest.map (Tree.root g)) (hv : ∀ tree ∈ rest, tree.Valid g)
    (ts : List Token) :
    g.Follows i (following ts).index (following (rest.flatMap Tree.yield ++ ts)).index := by
  have hbegins := Begins.forest fun tree htree => (hv tree htree).begins hw
  rw [← hrest] at hbegins
  cases hy : rest.flatMap Tree.yield with
  | nil => exact Or.inr ⟨hbegins.1 hy, rfl⟩
  | cons token w => exact Or.inl (hbegins.2 token w hy)

/-- An item of the top state has the root of a tree behind its dot, and what the tokens `ts` begin
with may follow there. -/
def Awaits (g : Grammar) (a : List Nat) (tree : Tree) (ts : List Token) : Prop :=
  ∃ i j, g.Expects (a.headD 0) i j ∧ g.next i = some (tree.root g) ∧
    g.Follows i j (following ts).index

/-- An item of the top state has the roots of a forest behind its dot, up to its end, and expects
what the tokens `ts` begin with. -/
structure AwaitsRest (g : Grammar) (a : List Nat) (p d : Nat) (forest : List Tree)
    (ts : List Token) : Prop where
  expects : g.Expects (a.headD 0) ⟨p, d⟩ (following ts).index
  roots : (g.production p).rhs.drop d = forest.map (Tree.root g)
  valid : ∀ tree ∈ forest, tree.Valid g

theorem awaits_start (hw : g.WellFormed) (hr : g.Unreserved) (forest : List Tree)
    (hroots : forest.map (Tree.root g) = (g.production 0).rhs)
    (hv : ∀ tree ∈ forest, tree.Valid g) : g.AwaitsRest [0] 0 0 forest [] :=
  ⟨expects_start hw hr, hroots.symm, hv⟩

section Awaits

variable {a : List Nat} {tree : Tree} {p d : Nat} {forest : List Tree} {ts : List Token}

theorem AwaitsRest.next (h : g.AwaitsRest a p d (tree :: forest) ts) :
    g.next ⟨p, d⟩ = some (tree.root g) := by
  have hhead := congrArg List.head? h.roots
  rwa [List.head?_drop, List.map_cons, List.head?_cons] at hhead

theorem AwaitsRest.head (hw : g.WellFormed) (h : g.AwaitsRest a p d (tree :: forest) ts) :
    g.Awaits a tree (forest.flatMap Tree.yield ++ ts) := by
  have hrest : g.rest ⟨p, d⟩ = forest.map (Tree.root g) := by
    have htail := congrArg List.tail h.roots
    rwa [List.tail_drop, List.map_cons, List.tail_cons] at htail
  have hv : ∀ tree' ∈ forest, tree'.Valid g := fun tree' h' => h.valid tree' (.tail _ h')
  exact ⟨⟨p, d⟩, _, h.expects, h.next, follows_forest hw hrest hv ts⟩

theorem AwaitsRest.tail (hw : g.WellFormed) (hr : g.Unreserved)
    (h : g.AwaitsRest a p d (tree :: forest) ts) {q : Nat}
    (hq : (tree.root g, q) ∈ g.stepsAt (a.headD 0)) :
    g.AwaitsRest (q :: a) p (d + 1) forest ts := by
  refine ⟨h.expects.step hw hr h.next hq, ?_, fun tree' h' => h.valid tree' (.tail _ h')⟩
  have htail := congrArg List.tail h.roots
  rwa [List.tail_drop, List.map_cons, List.tail_cons] at htail

/-- A tree that is awaited is a leaf or the parse of a rule, whose children are awaited. -/
theorem Awaits.children (hw : g.WellFormed) (hr : g.Unreserved) {children : List Tree}
    (hv : (Tree.node p children).Valid g) (h : g.Awaits a (.node p children) ts) :
    p ≠ 0 ∧ g.AwaitsRest a p 0 children ts := by
  obtain ⟨i, j, hexp, hnext, hfollows⟩ := h
  cases hv with
  | node _ _ hp hroots hc =>
    refine ⟨?_, .closure hexp hp hnext hfollows, hroots.symm, hc⟩
    rintro rfl
    have hmem := mem_rhs_of_next hnext
    rw [Tree.root, hw.goal_lhs] at hmem
    exact hr.notMem_rhs i.prod (prod_lt_of_next hnext) hmem

end Awaits

/-- Steps of the automaton over given symbols, each putting its state on the stack. -/
inductive Climbs (g : Grammar) : List Nat → List Symbol → List Nat → Prop
  | refl (a : List Nat) : Climbs g a [] a
  | step {a b : List Nat} {x : Symbol} {xs : List Symbol} {q : Nat}
      (hq : (x, q) ∈ g.stepsAt (a.headD 0)) (h : Climbs g (q :: a) xs b) : Climbs g a (x :: xs) b

namespace Climbs

variable {a b : List Nat} {xs : List Symbol}

theorem drop (h : g.Climbs a xs b) : b.drop xs.length = a := by
  induction h with
  | refl => rfl
  | step _ _ ih => rw [List.length_cons, List.drop_add_one_eq_tail_drop, ih, List.tail_cons]

/-- What an item expects it still expects where the climb over its symbols ends. -/
theorem expects (hw : g.WellFormed) (hr : g.Unreserved) (h : g.Climbs a xs b) {p d j : Nat}
    (hexp : g.Expects (a.headD 0) ⟨p, d⟩ j) (hxs : xs <+: (g.production p).rhs.drop d) :
    g.Expects (b.headD 0) ⟨p, d + xs.length⟩ j := by
  induction h generalizing d with
  | refl => exact hexp
  | @step a b x xs q hq _ ih =>
    obtain ⟨rest, hrest⟩ := hxs
    have hnext : g.next ⟨p, d⟩ = some x := by
      have hhead := congrArg List.head? hrest
      rw [List.head?_drop] at hhead
      exact hhead.symm
    have htail : xs <+: (g.production p).rhs.drop (d + 1) := by
      refine ⟨rest, ?_⟩
      have h := congrArg List.tail hrest
      rwa [List.tail_drop] at h
    have hend := ih (hexp.step hw hr hnext hq) htail
    rwa [Nat.add_right_comm, Nat.add_assoc] at hend

end Climbs

/-- The moves of trees put one state for each of them on the stack. -/
theorem Tables.Track.climbs {forest : List Tree}
    (htree : ∀ tree ∈ forest, ∀ ts a b, t.Track ts a tree.moves b →
      ∃ q, (tree.root g, q) ∈ g.stepsAt (a.headD 0) ∧ b = q :: a)
    {ts : List Token} {a b : List Nat} (h : t.Track ts a (forest.flatMap Tree.moves) b) :
    g.Climbs a (forest.map (Tree.root g)) b := by
  induction forest generalizing a with
  | nil =>
    cases h with
    | refl => exact .refl _
  | cons tree forest ih =>
    rw [List.flatMap_cons] at h
    obtain ⟨c, hc, hb⟩ := h.split
    obtain ⟨q, hq, rfl⟩ := htree tree List.mem_cons_self _ _ _ hc
    exact .step hq (ih (fun tree' h' => htree tree' (.tail _ h')) hb)

section Tracks

variable (hw : g.WellFormed) (hr : g.Unreserved) (ht : g.tables = .ok t)

include hw hr ht

theorem step_of_shift {q q' : Nat} {k : Kind} (h : t.action q k = .shift q') :
    (.terminal k, q') ∈ g.stepsAt q := by
  have happ := action_applies hw hr ht q k
  rw [h] at happ
  cases happ with
  | shift hmem => exact hmem

/-- The moves of a tree make a step over its root. -/
theorem Tree.Valid.step_of_track {tree : Tree} (hv : tree.Valid g) (ts : List Token)
    (a b : List Nat) (h : t.Track ts a tree.moves b) :
    ∃ q, (tree.root g, q) ∈ g.stepsAt (a.headD 0) ∧ b = q :: a := by
  induction hv generalizing ts a b with
  | leaf token =>
    rw [Tree.moves_leaf] at h
    cases h with
    | shift _ hq h =>
      cases h
      exact ⟨_, step_of_shift hw hr ht hq, rfl⟩
  | node i children _ hroots _ ih =>
    rw [Tree.moves_node] at h
    obtain ⟨c, hc, hb⟩ := h.split
    have hclimb := hc.climbs ih
    cases hb with
    | reduce _ hq h =>
      cases h
      rw [(tables_spec ht).2.1, ← hroots, hclimb.drop] at hq ⊢
      exact ⟨_, (goto_eq_some_iff hw hr ht).mp hq, rfl⟩

end Tracks

/-- The tables come to a tree that is awaited: from the stack `a`, where `ts` follows, they choose
its moves. -/
structure Tables.Meets (t : Tables) (g : Grammar) (ts : List Token) (a : List Nat) (tree : Tree) :
    Prop where
  valid : tree.Valid g
  awaits : g.Awaits a tree ts
  track : ∃ b, t.Track ts a tree.moves b

/-- The tables come to a forest that is awaited, and then to the stack `b`. -/
structure Tables.MeetsRest (t : Tables) (g : Grammar) (p d : Nat) (ts : List Token) (a : List Nat)
    (forest : List Tree) (b : List Nat) : Prop where
  awaits : g.AwaitsRest a p d forest ts
  track : t.Track ts a (forest.flatMap Tree.moves) b

theorem Tables.Meets.leaf {ts : List Token} {a : List Nat} {token : Token}
    (h : t.Meets g ts a (.leaf token)) :
    ∃ q, t.action (a.headD 0) token.kind = .shift q := by
  obtain ⟨b, hb⟩ := h.track
  rw [Tree.moves_leaf] at hb
  cases hb with
  | shift _ hq _ => exact ⟨_, hq⟩

namespace Tables

variable (hw : g.WellFormed) (hr : g.Unreserved) (ht : g.tables = .ok t)
  {ts : List Token} {a b : List Nat} {p d : Nat} {tree : Tree} {forest : List Tree}

include hw hr ht

theorem MeetsRest.cons (h : t.MeetsRest g p d ts a (tree :: forest) b) :
    t.Meets g (forest.flatMap Tree.yield ++ ts) a tree ∧
      ∃ q, (tree.root g, q) ∈ g.stepsAt (a.headD 0) ∧
        t.Track (forest.flatMap Tree.yield ++ ts) a tree.moves (q :: a) ∧
        t.MeetsRest g p (d + 1) ts (q :: a) forest b := by
  have hv := h.awaits.valid tree List.mem_cons_self
  have htrack := h.track
  rw [List.flatMap_cons] at htrack
  obtain ⟨c, hc, hb⟩ := htrack.split
  rw [shifted_forest] at hc
  obtain ⟨q, hq, rfl⟩ := hv.step_of_track hw hr ht _ _ _ hc
  exact ⟨⟨hv, h.awaits.head hw, _, hc⟩, q, hq, hc, h.awaits.tail hw hr hq, hb⟩

theorem MeetsRest.climbs (h : t.MeetsRest g p d ts a forest b) :
    g.Climbs a (forest.map (Tree.root g)) b :=
  h.track.climbs fun tree htree => (h.awaits.valid tree htree).step_of_track hw hr ht

/-- Behind all trees the item is complete and still expects what follows. -/
theorem MeetsRest.expects_end (h : t.MeetsRest g p d ts a forest b)
    (hd : d ≤ (g.production p).rhs.length) :
    g.Expects (b.headD 0) ⟨p, (g.production p).rhs.length⟩ (following ts).index := by
  have hexp := (h.climbs hw hr ht).expects hw hr h.awaits.expects
    (h.awaits.roots ▸ List.prefix_refl _)
  have hlen := congrArg List.length h.awaits.roots
  rw [List.length_drop] at hlen
  rwa [← hlen, Nat.add_sub_cancel' hd] at hexp

omit ht in
/-- A node is met with its children, behind which it is reduced to. -/
theorem Meets.node {children : List Tree}
    (h : t.Meets g ts a (.node p children)) :
    p ≠ 0 ∧ ∃ b, t.MeetsRest g p 0 ts a children b ∧
      t.Chooses (b.headD 0) (following ts) p ∧
      ∃ q, t.goto ((b.drop (t.grammar.production p).rhs.length).headD 0)
        (t.grammar.production p).lhs = some q := by
  obtain ⟨hp, hrest⟩ := h.awaits.children hw hr h.valid
  obtain ⟨c, hc⟩ := h.track
  rw [Tree.moves_node] at hc
  obtain ⟨b, hb, hlast⟩ := hc.split
  cases hlast with
  | reduce hi hq _ => exact ⟨hp, b, ⟨hrest, hb⟩, hi, _, hq⟩

/-- A child of a node is met behind the climb over the children before it. -/
theorem Meets.child {before after : List Tree}
    (h : t.Meets g ts a (.node p (before ++ tree :: after))) :
    ∃ b, g.Climbs a (before.map (Tree.root g)) b ∧
      t.Meets g (after.flatMap Tree.yield ++ ts) b tree := by
  obtain ⟨_, c, hrest, _⟩ := h.node hw hr
  generalize 0 = d at hrest
  clear h
  induction before generalizing a d with
  | nil => exact ⟨a, .refl a, (hrest.cons hw hr ht).1⟩
  | cons first before ih =>
    obtain ⟨_, q, hq, _, hrest'⟩ := MeetsRest.cons hw hr ht hrest
    obtain ⟨b, hclimb, hmeets⟩ := ih _ hrest'
    exact ⟨b, .step hq hclimb, hmeets⟩

end Tables

end ObjectPascal.Grammar
