import ObjectPascal.Closure
import ObjectPascal.Proofs.Binding.Owners

/-!
Which routines stand around a nested routine. The search for closures goes down from routine to
routine; what it passes on its way are exactly the routines around, as far as every routine is one
node of the source.
-/

namespace ObjectPascal

namespace Node

variable {n x y z : Node}

theorem mem_nodes_trans (hz : z ∈ x.nodes) (hx : x ∈ n.nodes) : z ∈ n.nodes := by
  induction n using Node.induct with
  | step n ih =>
    obtain rfl | hx := mem_nodes_iff.mp hx
    · exact hz
    · obtain ⟨c, hc, hx⟩ := mem_below_iff.mp hx
      exact mem_nodes_iff.mpr (.inr (mem_below_iff.mpr ⟨c, hc, ih c hc hx⟩))

theorem mem_below_trans (hz : z ∈ x.below) (hx : x ∈ n.nodes) : z ∈ n.below := by
  obtain rfl | hx := mem_nodes_iff.mp hx
  · exact hz
  · obtain ⟨c, hc, hx⟩ := mem_below_iff.mp hx
    exact mem_below_iff.mpr ⟨c, hc, mem_nodes_trans (mem_nodes_iff.mpr (.inr hz)) hx⟩

theorem notMem_below (n : Node) : n ∉ n.below := by
  suffices h : ∀ x : Node, n ∈ x.below → n.nodes.length < x.nodes.length from
    fun hn => Nat.lt_irrefl _ (h n hn)
  intro x hx
  induction x using Node.induct with
  | step x ih =>
    obtain ⟨c, hc, hn⟩ := mem_below_iff.mp hx
    have hlt := length_nodes_of_mem hc
    obtain rfl | hn := mem_nodes_iff.mp hn
    · exact hlt
    · exact Nat.lt_trans (ih c hc hn) hlt

end Node

namespace Binding

variable {n x y z : Node} {k : Nat}

/-- Two nodes with a number that only one node has are one. -/
theorem Once.eq_of_mem {ns : List Node} (h : Once k ns) (hx : x ∈ ns) (hy : y ∈ ns)
    (hxk : x.info.id = k) (hyk : y.info.id = k) : x = y := by
  obtain ⟨before, after, rfl⟩ := List.append_of_mem hx
  have hother : y ∈ x :: (before ++ after) := by simpa [or_left_comm] using hy
  have hperm : (x :: (before ++ after)).Perm (before ++ x :: after) := List.perm_middle.symm
  have hone : Once k ([x] ++ (before ++ after)) := h.subperm hperm.subperm
  refine ((List.mem_cons.mp hother).resolve_right fun hy => ?_).symm
  exact hone.not_held ⟨x, List.mem_singleton_self x, hxk⟩ ⟨y, hy, hyk⟩

/-- A number that only one node has is met below one of several nodes at most. -/
theorem Once.eq_of_held {c d : Node} {cs : List Node} (h : Once k (cs.flatMap Node.nodes))
    (hc : c ∈ cs) (hd : d ∈ cs) (hck : Held k c.nodes) (hdk : Held k d.nodes) : c = d := by
  have hrest {e : Node} {es : List Node} (he : e ∈ es) (hk : Held k e.nodes) :
      Held k (es.flatMap Node.nodes) := by
    obtain ⟨u, hu, huk⟩ := hk
    exact ⟨u, List.mem_flatMap.mpr ⟨e, he, hu⟩, huk⟩
  induction cs with
  | nil => cases hc
  | cons e es ih =>
    rw [List.flatMap_cons] at h
    cases hc with
    | head =>
      cases hd with
      | head => rfl
      | tail _ hd => exact absurd (hrest hd hdk) (h.not_held hck)
    | tail _ hc =>
      cases hd with
      | head => exact absurd (hrest hc hck) (h.not_held hdk)
      | tail _ hd => exact ih h.right hc hd

theorem Once.below (h : Once k n.nodes) : Once k (n.children.flatMap Node.nodes) := by
  rw [Node.nodes_eq] at h
  exact h.subperm (List.sublist_cons_self _ _).subperm

theorem Once.child {c : Node} (h : Once k n.nodes) (hc : c ∈ n.children) : Once k c.nodes := by
  have hsub := (List.singleton_sublist.mpr hc).flatMap Node.nodes
  rw [List.flatMap_singleton] at hsub
  exact h.below.subperm hsub.subperm

theorem Once.of_mem (h : Once k n.nodes) (hx : x ∈ n.nodes) : Once k x.nodes := by
  induction n using Node.induct with
  | step n ih =>
    obtain rfl | hx := Node.mem_nodes_iff.mp hx
    · exact h
    · obtain ⟨c, hc, hx⟩ := Node.mem_below_iff.mp hx
      exact ih c hc (h.child hc) hx

theorem held_of_mem (h : z ∈ n.nodes) : Held z.info.id n.nodes := ⟨z, h, rfl⟩

/-- Of two nodes above a node that is met once, one stands above the other. -/
theorem Once.comparable (h : Once z.info.id n.nodes) (hx : x ∈ n.nodes) (hy : y ∈ n.nodes)
    (hzx : z ∈ x.below) (hzy : z ∈ y.below) : x = y ∨ x ∈ y.below ∨ y ∈ x.below := by
  induction n using Node.induct with
  | step n ih =>
    obtain rfl | hx := Node.mem_nodes_iff.mp hx
    · exact (Node.mem_nodes_iff.mp hy).imp Eq.symm .inr
    · obtain rfl | hy := Node.mem_nodes_iff.mp hy
      · exact .inr (.inl hx)
      · obtain ⟨c, hc, hx⟩ := Node.mem_below_iff.mp hx
        obtain ⟨d, hd, hy⟩ := Node.mem_below_iff.mp hy
        have hmet {e u : Node} (hu : z ∈ u.below) (he : u ∈ e.nodes) : Held z.info.id e.nodes :=
          held_of_mem (Node.mem_nodes_trans (Node.mem_nodes_iff.mpr (.inr hu)) he)
        obtain rfl := h.below.eq_of_held hc hd (hmet hzx hx) (hmet hzy hy)
        exact ih c hc (h.child hc) hx hy

/-- Between a node that is met once and its part there is no other node. -/
theorem Once.not_between (h : Once z.info.id x.nodes) (hz : z ∈ x.children) (hy : y ∈ x.below) :
    z ∉ y.below := by
  intro hzy
  obtain ⟨c, hc, hy⟩ := Node.mem_below_iff.mp hy
  have hzc := Node.mem_below_trans hzy hy
  obtain rfl := h.below.eq_of_held hc hz (held_of_mem (Node.mem_nodes_iff.mpr (.inr hzc)))
    (held_of_mem z.self_mem)
  exact Node.notMem_below c hzc

end Binding

namespace Closure

open Binding

/-- A routine stands directly in a source or in another routine: among its declarations, or among
those of its block. -/
inductive Holds (x : Node) (d : CallableDecl) : Prop
  | direct (h : .decl (.callable d) ∈ x.children)
  | block (b : Block) (hb : .block b ∈ x.children) (h : .callable d ∈ b.decls)

theorem mem_children_block {b : Block} {d : Decl} (h : d ∈ b.decls) :
    .decl d ∈ (Node.block b).children :=
  List.mem_append_left _ (List.mem_map.mpr ⟨d, h, rfl⟩)

theorem Holds.mem_below {x : Node} {d : CallableDecl} (h : Holds x d) :
    .decl (.callable d) ∈ x.below := by
  obtain h | ⟨b, hb, h⟩ := h
  · exact Node.mem_below_iff.mpr ⟨_, h, Node.self_mem _⟩
  · exact Node.mem_below_iff.mpr ⟨_, hb, Node.mem_nodes_iff.mpr (.inr
      (Node.mem_below_iff.mpr ⟨_, mem_children_block h, Node.self_mem _⟩))⟩

/-- No routine stands between a routine and what it stands in directly. -/
theorem Holds.not_between {x : Node} {d q : CallableDecl} (h : Holds x d)
    (honce : Once d.info.id x.nodes) (hq : .decl (.callable q) ∈ x.below) :
    .decl (.callable d) ∉ (Node.decl (.callable q)).below := by
  obtain h | ⟨b, hb, h⟩ := h
  · exact Once.not_between (z := .decl (.callable d)) honce h hq
  · intro hd
    obtain ⟨c, hc, hq⟩ := Node.mem_below_iff.mp hq
    have hdc := held_of_mem (Node.mem_nodes_iff.mpr (.inr (Node.mem_below_trans hd hq)))
    have hpart := mem_children_block h
    have hdb := held_of_mem (Node.mem_nodes_of_child (Node.self_mem _) hpart)
    obtain rfl := honce.below.eq_of_held hc hb hdc hdb
    have hq := (Node.mem_nodes_iff.mp hq).resolve_left nofun
    exact Once.not_between (z := .decl (.callable d)) (honce.child hb) hpart hq hd

/-- `d` is a routine of `g` that is analysed, and `outer` are the routines on the way to it, from
the outermost. -/
inductive Nests (g : Goal) : List CallableDecl → CallableDecl → Prop
  | top {d : CallableDecl} (h : .callable d ∈ declsOf g) : Nests g [] d
  | inner {outer : List CallableDecl} {f d : CallableDecl} {b : Block} (hf : Nests g outer f)
      (hb : f.body = some b) (h : .callable d ∈ b.decls) : Nests g (outer ++ [f]) d

theorem holds_of_mem_declsOf {g : Goal} {d : CallableDecl} (h : .callable d ∈ declsOf g) :
    Holds (.goal g) d := by
  cases g with
  | program g => exact .block g.block (List.mem_append_right _ (List.mem_singleton_self _)) h
  | library g => exact .block g.block (List.mem_append_right _ (List.mem_singleton_self _)) h
  | unit g =>
    refine .direct (List.mem_append_left _ (List.mem_append_left _ (List.mem_append_right _ ?_)))
    exact List.mem_map.mpr ⟨_, h, rfl⟩
  | package g => cases h

theorem holds_of_mem_body {f d : CallableDecl} {b : Block} (hb : f.body = some b)
    (h : .callable d ∈ b.decls) : Holds (.decl (.callable f)) d := by
  refine .block b (List.mem_append_right _ (List.mem_map.mpr ⟨b, ?_, rfl⟩)) h
  rw [hb]
  exact List.mem_singleton_self b

/-! Lists of routines. -/

theorem subset_declsRoutines {d : CallableDecl} {ds : List Decl} (h : .callable d ∈ ds) :
    d.routines ⊆ declsRoutines ds := by
  induction ds with
  | nil => cases h
  | cons e ds ih =>
    obtain rfl | h := List.mem_cons.mp h
    · exact fun _ hx => List.mem_append_left _ hx
    · have hrest : declsRoutines ds ⊆ declsRoutines (e :: ds) := by
        cases e with
        | callable e => exact List.subset_append_right _ _
        | composite e => cases e; exact List.subset_append_right _ _
        | _ => exact List.Subset.refl _
      exact fun _ hx => hrest (ih h hx)

theorem subset_blockRoutines {d : CallableDecl} {b : Block} (h : .callable d ∈ b.decls) :
    d.routines ⊆ blockRoutines (some b) := by
  cases b
  exact subset_declsRoutines h

theorem subset_routines {f d : CallableDecl} {b : Block} (hb : f.body = some b)
    (h : .callable d ∈ b.decls) : d.routines ⊆ f.routines := by
  cases f
  cases hb
  exact fun _ hx => List.mem_cons_of_mem _ (subset_blockRoutines h hx)

section Met

variable {f : CallableDecl}

mutual

/-- A walk meets all routines. -/
theorem mem_nodes_of_mem_routines : (d : CallableDecl) → f ∈ d.routines →
    .decl (.callable f) ∈ d.nodes
  | ⟨_, _, _, _, _, _, _, _, body, _, _, _, _⟩, h => by
    obtain rfl | h := List.mem_cons.mp h
    · exact List.mem_cons_self
    · exact List.mem_append_right _ (mem_nodes_of_mem_block body h)

theorem mem_nodes_of_mem_block : (b : Option Block) → f ∈ blockRoutines b →
    .decl (.callable f) ∈ optBlockNodes b
  | some ⟨_, decls, _⟩, h =>
    List.mem_cons_of_mem _ (List.mem_append_left _ (mem_nodes_of_mem_decls decls h))

theorem mem_nodes_of_mem_decls : (ds : List Decl) → f ∈ declsRoutines ds →
    .decl (.callable f) ∈ declsNodes ds
  | .callable d :: ds, h => by
    obtain h | h := List.mem_append.mp h
    · exact List.mem_append_left _ (mem_nodes_of_mem_routines d h)
    · exact List.mem_append_right _ (mem_nodes_of_mem_decls ds h)
  | .composite ⟨_, _, _, _, members, _⟩ :: ds, h => by
    obtain h | h := List.mem_append.mp h
    · exact List.mem_append_left _ (List.mem_cons_of_mem _ (mem_nodes_of_mem_members members h))
    · exact List.mem_append_right _ (mem_nodes_of_mem_decls ds h)
  | .type d :: ds, h | .var d :: ds, h | .const d :: ds, h | .param d :: ds, h
  | .property d :: ds, h | .label d :: ds, h | .unit d :: ds, h | .exported d :: ds, h
  | .enumMember d :: ds, h => by
    have hrest := mem_nodes_of_mem_decls ds h
    rw [declsNodes_eq] at hrest ⊢
    exact List.mem_append_right _ hrest

theorem mem_nodes_of_mem_members : (members : List Member) → f ∈ membersRoutines members →
    .decl (.callable f) ∈ membersNodes members
  | .callable d :: members, h => by
    obtain h | h := List.mem_append.mp h
    · exact List.mem_append_left _ (mem_nodes_of_mem_routines d h)
    · exact List.mem_append_right _ (mem_nodes_of_mem_members members h)
  | .var _ :: members, h | .property _ :: members, h =>
    List.mem_append_right _ (mem_nodes_of_mem_members members h)

end

theorem mem_nodes_of_mem_goal {g : Goal} (h : f ∈ g.routines) :
    .decl (.callable f) ∈ g.nodes := by
  have hdecls {ds : List Decl} (hf : f ∈ declsRoutines ds) :
      .decl (.callable f) ∈ (ds.map Node.decl).flatMap Node.nodes := by
    rw [← declsNodes_eq]
    exact mem_nodes_of_mem_decls ds hf
  rw [Node.goal_nodes]
  refine List.mem_cons_of_mem _ ?_
  cases g with
  | program g =>
    have hblock := mem_nodes_of_mem_block (some g.block) h
    rw [optBlockNodes_eq] at hblock
    exact List.mem_flatMap.mpr ⟨.block g.block, by simp [Goal.children], by simpa using hblock⟩
  | library g =>
    have hblock := mem_nodes_of_mem_block (some g.block) h
    rw [optBlockNodes_eq] at hblock
    exact List.mem_flatMap.mpr ⟨.block g.block, by simp [Goal.children], by simpa using hblock⟩
  | unit g =>
    obtain h | h := List.mem_append.mp h <;>
      simp only [Goal.children, List.flatMap_append, List.mem_append, hdecls h, or_true, true_or]
  | package g => cases h

end Met

/-- A routine that stands in the block of another one is met below it. -/
theorem mem_below_of_mem_block {f q : CallableDecl} (h : f ∈ blockRoutines q.body) :
    .decl (.callable f) ∈ (Node.decl (.callable q)).below := by
  have hmet := mem_nodes_of_mem_block q.body h
  rw [optBlockNodes_eq] at hmet
  obtain ⟨x, hx, hmet⟩ := List.mem_flatMap.mp hmet
  refine Node.mem_below_iff.mpr ⟨x, List.mem_append_right _ ?_, hmet⟩
  simpa using hx

namespace Nests

variable {g : Goal} {outer outer' : List CallableDecl} {d q : CallableDecl}

theorem mem_nodes (h : Nests g outer d) : .decl (.callable d) ∈ (Node.goal g).nodes := by
  induction h with
  | top h => exact Node.mem_nodes_iff.mpr (.inr (holds_of_mem_declsOf h).mem_below)
  | inner _ hb h ih =>
    exact Node.mem_nodes_trans (Node.mem_nodes_iff.mpr (.inr (holds_of_mem_body hb h).mem_below)) ih

theorem routines_subset (h : Nests g outer d) : d.routines ⊆ g.routines := by
  induction h with
  | top h =>
    cases g with
    | program g => exact subset_blockRoutines h
    | library g => exact subset_blockRoutines h
    | unit g => exact fun _ hx => List.mem_append_right _ (subset_declsRoutines h hx)
    | package g => cases h
  | inner _ hb h ih => exact fun _ hx => ih (subset_routines hb h hx)

theorem mem_routines (h : Nests g outer d) : d ∈ g.routines := h.routines_subset d.mem_routines

theorem outer_subset (h : Nests g outer d) : outer ⊆ g.routines := by
  induction h with
  | top h => exact List.nil_subset _
  | inner hf hb h ih =>
    exact List.append_subset.mpr ⟨ih, List.cons_subset.mpr ⟨hf.mem_routines, List.nil_subset _⟩⟩

/-- The routines on the way stand around a routine. -/
theorem mem_blockRoutines (h : Nests g outer d) (hq : q ∈ outer) :
    d.routines ⊆ blockRoutines q.body := by
  induction h with
  | top h => cases hq
  | @inner outer f d b hf hb h ih =>
    obtain hq | hq := List.mem_append.mp hq
    · exact fun _ hx => ih hq (subset_routines hb h hx)
    · cases List.mem_singleton.mp hq
      rw [hb]
      exact subset_blockRoutines h

theorem mem_below (h : Nests g outer d) (hq : q ∈ outer) :
    .decl (.callable d) ∈ (Node.decl (.callable q)).below := by
  induction h with
  | top h => cases hq
  | @inner outer f d b hf hb h ih =>
    have hd := (holds_of_mem_body hb h).mem_below
    obtain hq | hq := List.mem_append.mp hq
    · exact Node.mem_below_trans hd (Node.mem_nodes_iff.mpr (.inr (ih hq)))
    · cases List.mem_singleton.mp hq
      exact hd

variable (honce : ∀ f ∈ g.routines, Once f.info.id (Node.goal g).nodes)
include honce

/-- All routines around a routine are passed on the way to it. -/
theorem mem_of_below (h : Nests g outer d) (hq : .decl (.callable q) ∈ (Node.goal g).nodes)
    (hd : .decl (.callable d) ∈ (Node.decl (.callable q)).below) : q ∈ outer := by
  induction h with
  | top h =>
    have hbelow := (Node.mem_nodes_iff.mp hq).resolve_left nofun
    exact absurd hd ((holds_of_mem_declsOf h).not_between (honce _ (top h).mem_routines) hbelow)
  | @inner outer f d b hf hb h ih =>
    have hholds := holds_of_mem_body hb h
    have hd' := honce d (inner hf hb h).mem_routines
    obtain heq | hqf | hfq := Once.comparable (z := .decl (.callable d)) hd' hq hf.mem_nodes hd
      hholds.mem_below
    · cases heq
      exact List.mem_append_right _ (List.mem_singleton_self _)
    · exact absurd hd (hholds.not_between (hd'.of_mem hf.mem_nodes) hqf)
    · exact List.mem_append_left _ (ih hfq)

/-- There is one way to a routine. -/
theorem outer_unique (h : Nests g outer d) (h' : Nests g outer' d) : outer = outer' := by
  induction h generalizing outer' with
  | top h =>
    cases h' with
    | top h' => rfl
    | inner hf hb h' =>
      have hnil := mem_of_below honce (Nests.top h) hf.mem_nodes (holds_of_mem_body hb h').mem_below
      cases hnil
  | @inner outer f d b hf hb h ih =>
    cases h' with
    | top h' =>
      have hnil := mem_of_below honce (Nests.top h') hf.mem_nodes (holds_of_mem_body hb h).mem_below
      cases hnil
    | @inner outer' f' _ b' hf' hb' h' =>
      have hin := mem_of_below honce (hf.inner hb h) hf'.mem_nodes
        (holds_of_mem_body hb' h').mem_below
      have hin' := mem_of_below honce (hf'.inner hb' h') hf.mem_nodes
        (holds_of_mem_body hb h).mem_below
      have heq : f' = f := by
        by_contra hne
        -- each of the two would stand around the other
        have hff' : f' ∈ outer := by simpa [hne] using hin
        have hf'f : f ∈ outer' := by simpa [Ne.symm hne] using hin'
        exact Node.notMem_below _ (Node.mem_below_trans (hf.mem_below hff')
          (Node.mem_nodes_iff.mpr (.inr (hf'.mem_below hf'f))))
      subst heq
      rw [ih hf']

end Nests

end Closure
end ObjectPascal
