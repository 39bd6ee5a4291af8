import Mathlib.Data.List.Duplicate
import Mathlib.Data.List.Pairwise
import Mathlib.Data.List.Perm.Subperm
import ObjectPascal.Syntax.Walk

/-!
The walk over a tree and the direct parts of its nodes are two case analyses over the forms of
nodes. They agree: the walk meets a node and then, in order, everything that it meets below the
direct parts of the node. What holds of the direct parts is therefore carried to all nodes by one
induction.
-/

namespace ObjectPascal

/-- A node with all nodes below it. -/
def Node.nodes : Node → List Node
  | goal g => g.nodes
  | block b => b.nodes
  | decl d => declsNodes [d]
  | type t => t.nodes
  | variantPart p => optVariantNodes (some p)
  | variantCase c => variantCasesNodes [c]
  | stmt s => s.nodes
  | caseArm a => armsNodes [a]
  | handler h => handlersNodes [h]
  | expr e => e.nodes
  | fieldInit f => fieldInitsNodes [f]

section Lists

-- each list is taken apart with the walk over it
attribute [local simp] exprsNodes argsNodes fieldInitsNodes stmtsNodes optStmtNodes armsNodes
  handlersNodes typesNodes optTypeNodes paramsNodes optParamsNodes varsNodes declsNodes
  variantCasesNodes optVariantNodes enumMembersNodes membersNodes optBlockNodes Node.nodes

theorem exprsNodes_eq (es : List Expr) : exprsNodes es = (es.map Node.expr).flatMap Node.nodes := by
  induction es with
  | nil => simp
  | cons e es ih => simp [ih]

theorem exprsNodes_eq_flatMap (es : List Expr) : exprsNodes es = es.flatMap Expr.nodes := by
  rw [exprsNodes_eq, List.flatMap_map]
  rfl

theorem argsNodes_eq (args : Option (List Expr)) :
    argsNodes args = ((args.getD []).map Node.expr).flatMap Node.nodes := by
  cases args with
  | none => simp
  | some es => simp [exprsNodes_eq]

theorem optExprNodes_eq (e : Option Expr) :
    optExprNodes e = (e.toList.map Node.expr).flatMap Node.nodes :=
  exprsNodes_eq e.toList

theorem fieldInitsNodes_eq (fs : List FieldInit) :
    fieldInitsNodes fs = (fs.map Node.fieldInit).flatMap Node.nodes := by
  induction fs with
  | nil => simp
  | cons f fs ih =>
    obtain ⟨i, name, e⟩ := f
    simp [ih]

theorem stmtsNodes_eq (ss : List Stmt) : stmtsNodes ss = (ss.map Node.stmt).flatMap Node.nodes := by
  induction ss with
  | nil => simp
  | cons s ss ih => simp [ih]

theorem optStmtNodes_eq (s : Option Stmt) :
    optStmtNodes s = (s.toList.map Node.stmt).flatMap Node.nodes := by
  cases s <;> simp

theorem armsNodes_eq (as : List CaseArm) :
    armsNodes as = (as.map Node.caseArm).flatMap Node.nodes := by
  induction as with
  | nil => simp
  | cons a as ih =>
    obtain ⟨i, labels, body⟩ := a
    simp [ih]

theorem handlersNodes_eq (hs : List Handler) :
    handlersNodes hs = (hs.map Node.handler).flatMap Node.nodes := by
  induction hs with
  | nil => simp
  | cons h hs ih =>
    obtain ⟨i, var, type, body⟩ := h
    simp [ih]

theorem typesNodes_eq (ts : List TypeExpr) :
    typesNodes ts = (ts.map Node.type).flatMap Node.nodes := by
  induction ts with
  | nil => simp
  | cons t ts ih => simp [ih]

theorem optTypeNodes_eq (t : Option TypeExpr) :
    optTypeNodes t = (t.toList.map Node.type).flatMap Node.nodes := by
  cases t <;> simp

theorem paramsNodes_eq (ps : List ParamDecl) :
    paramsNodes ps = (ps.map fun p => Node.decl (.param p)).flatMap Node.nodes := by
  induction ps with
  | nil => simp
  | cons p ps ih => simp [ih]

theorem optParamsNodes_eq (ps : Option (List ParamDecl)) :
    optParamsNodes ps = ((ps.getD []).map fun p => Node.decl (.param p)).flatMap Node.nodes := by
  cases ps with
  | none => simp
  | some ps => simp [paramsNodes_eq]

theorem varsNodes_eq (ds : List VarDecl) :
    varsNodes ds = (ds.map fun d => Node.decl (.var d)).flatMap Node.nodes := by
  induction ds with
  | nil => simp
  | cons d ds ih => simp [ih]

theorem variantCasesNodes_eq (cs : List VariantCase) :
    variantCasesNodes cs = (cs.map Node.variantCase).flatMap Node.nodes := by
  induction cs with
  | nil => simp
  | cons c cs ih =>
    obtain ⟨i, labels, fields⟩ := c
    simp [ih]

theorem optVariantNodes_eq (p : Option VariantPart) :
    optVariantNodes p = (p.toList.map Node.variantPart).flatMap Node.nodes := by
  cases p with
  | none => simp
  | some p =>
    obtain ⟨i, tag, tagType, cases⟩ := p
    simp

theorem enumMembersNodes_eq (ms : List EnumMember) :
    enumMembersNodes ms = (ms.map fun m => Node.decl (.enumMember m)).flatMap Node.nodes := by
  simp [List.flatMap_map]

theorem membersNodes_eq (ms : List Member) :
    membersNodes ms = (ms.map fun m => Node.decl m.decl).flatMap Node.nodes := by
  induction ms with
  | nil => simp
  | cons m ms ih => cases m <;> simp [ih, Member.decl]

theorem declsNodes_eq (ds : List Decl) : declsNodes ds = (ds.map Node.decl).flatMap Node.nodes := by
  induction ds with
  | nil => simp
  | cons d ds ih =>
    cases d with
    | type d => cases d; simp [ih]
    | composite d => cases d; simp [ih]
    | const d => cases d; simp [ih]
    | _ => simp [ih]

theorem optBlockNodes_eq (b : Option Block) :
    optBlockNodes b = (b.toList.map Node.block).flatMap Node.nodes := by
  cases b with
  | none => simp
  | some b =>
    obtain ⟨i, decls, body⟩ := b
    simp [Block.nodes]

theorem unitsNodes_eq (us : List UnitRef) :
    (us.map fun u => Node.decl (.unit u)).flatMap Node.nodes =
      us.map fun u => Node.decl (.unit u) := by
  induction us with
  | nil => rfl
  | cons u us ih => simp [ih]

end Lists

namespace Node

section Forms

/-- The lists of nodes below the parts of a node, each as a walk over nodes. -/
theorem expr_nodes (e : Expr) : e.nodes = .expr e :: e.children.flatMap nodes := by
  cases e <;> simp [Expr.nodes, Expr.children, nodes, exprsNodes_eq, argsNodes_eq,
    fieldInitsNodes_eq]

theorem stmt_nodes (s : Stmt) : s.nodes = .stmt s :: s.children.flatMap nodes := by
  cases s <;> simp [Stmt.nodes, Stmt.children, nodes, exprsNodes_eq, stmtsNodes_eq,
    optStmtNodes_eq, armsNodes_eq, handlersNodes_eq, optExprNodes_eq]

theorem type_nodes (t : TypeExpr) : t.nodes = .type t :: t.children.flatMap nodes := by
  cases t <;> simp [TypeExpr.nodes, TypeExpr.children, nodes, optExprNodes_eq, typesNodes_eq,
    optTypeNodes_eq, enumMembersNodes_eq, membersNodes_eq, optVariantNodes_eq, optParamsNodes_eq]

theorem decl_nodes (d : Decl) : declsNodes [d] = .decl d :: d.children.flatMap nodes := by
  cases d with
  | type d => cases d; simp [declsNodes, Decl.children, nodes]
  | composite d => cases d; simp [declsNodes, Decl.children, membersNodes_eq]
  | var d =>
    cases d; simp [declsNodes, Decl.children, VarDecl.nodes, optTypeNodes_eq, optExprNodes_eq]
  | const d => cases d; simp [declsNodes, Decl.children, optTypeNodes_eq, optExprNodes_eq]
  | param d =>
    cases d; simp [declsNodes, Decl.children, ParamDecl.nodes, optTypeNodes_eq, optExprNodes_eq]
  | callable d =>
    cases d
    simp [declsNodes, Decl.children, CallableDecl.nodes, CallableDecl.paramList, optParamsNodes_eq,
      optTypeNodes_eq, exprsNodes_eq, optBlockNodes_eq]
  | property d =>
    cases d
    simp [declsNodes, Decl.children, PropertyDecl.nodes, paramsNodes_eq, optTypeNodes_eq,
      optExprNodes_eq]
  | exported d => simp [declsNodes, Decl.children, optExprNodes_eq]
  | enumMember d => simp [declsNodes, Decl.children, optExprNodes_eq]
  | label d => simp [declsNodes, Decl.children]
  | unit d => simp [declsNodes, Decl.children]

theorem goal_nodes (g : Goal) : g.nodes = .goal g :: g.children.flatMap nodes := by
  cases g with
  | program g => simp [Goal.nodes, Goal.children, unitsNodes_eq, nodes]
  | library g => simp [Goal.nodes, Goal.children, unitsNodes_eq, nodes]
  | unit g => simp [Goal.nodes, Goal.children, unitsNodes_eq, declsNodes_eq, stmtsNodes_eq]
  | package g => simp [Goal.nodes, Goal.children, unitsNodes_eq]

end Forms

/-- The walk meets a node first, and then all nodes below its direct parts in their order. -/
theorem nodes_eq (n : Node) : n.nodes = n :: n.children.flatMap nodes := by
  cases n with
  | goal g => exact goal_nodes g
  | block b =>
    obtain ⟨i, decls, body⟩ := b
    simp [nodes, Block.nodes, optBlockNodes, children, declsNodes_eq]
  | decl d => exact decl_nodes d
  | type t => exact type_nodes t
  | variantPart p =>
    obtain ⟨i, tag, tagType, cases⟩ := p
    simp [nodes, optVariantNodes, children, variantCasesNodes_eq]
  | variantCase c =>
    obtain ⟨i, labels, fields⟩ := c
    simp [nodes, variantCasesNodes, children, exprsNodes_eq, varsNodes_eq]
  | stmt s => exact stmt_nodes s
  | caseArm a =>
    obtain ⟨i, labels, body⟩ := a
    simp [nodes, armsNodes, children, exprsNodes_eq]
  | handler h =>
    obtain ⟨i, var, type, body⟩ := h
    simp [nodes, handlersNodes, children, TypeExpr.nodes]
  | expr e => exact expr_nodes e
  | fieldInit f =>
    obtain ⟨i, name, e⟩ := f
    simp [nodes, fieldInitsNodes, children]

theorem self_mem (n : Node) : n ∈ n.nodes := by
  rw [nodes_eq]
  exact List.mem_cons_self

/-- The nodes below a node, without itself. -/
def below (n : Node) : List Node := n.children.flatMap nodes

theorem nodes_eq_cons (n : Node) : n.nodes = n :: n.below := n.nodes_eq

theorem mem_nodes_iff {x n : Node} : x ∈ n.nodes ↔ x = n ∨ x ∈ n.below := by
  rw [nodes_eq_cons, List.mem_cons]

theorem mem_below_iff {x n : Node} : x ∈ n.below ↔ ∃ c ∈ n.children, x ∈ c.nodes :=
  List.mem_flatMap

theorem length_nodes_of_mem {c n : Node} (h : c ∈ n.children) :
    c.nodes.length < n.nodes.length := by
  obtain ⟨before, after, hchildren⟩ := List.append_of_mem h
  rw [nodes_eq_cons n, below, hchildren]
  simp only [List.length_cons, List.flatMap_append, List.flatMap_cons, List.length_append]
  omega

/-- What holds of a node whenever it holds of its direct parts holds of every node. -/
theorem induct {P : Node → Prop} (step : ∀ n, (∀ c ∈ n.children, P c) → P n) (n : Node) : P n := by
  -- A part has fewer nodes below it than the whole.
  generalize hk : n.nodes.length = k
  induction k using Nat.strongRecOn generalizing n with
  | ind k ih =>
    refine step n fun c hc => ?_
    have hlt := length_nodes_of_mem hc
    exact ih _ (hk ▸ hlt) c rfl

end Node

theorem Goal.nodes_eq (g : Goal) : g.nodes = (Node.goal g).nodes := rfl

end ObjectPascal

/-!
Which nodes of a tree share a number. The names of one declaration group have the same type and the
same value, so the walk meets what stands below them once for each name. Nothing else is met twice:
this is a property of every single node and its direct parts, and it makes a number tell which node
it belongs to.
-/

namespace ObjectPascal
namespace Node

/-- Two names of one group: they have the same type and the same value. -/
inductive Grouped : Node → Node → Prop
  | var {a b : VarDecl} (ht : a.type = b.type) (hv : a.init = b.init) :
      Grouped (.decl (.var a)) (.decl (.var b))
  | param {a b : ParamDecl} (ht : a.type = b.type) (hv : a.default = b.default) :
      Grouped (.decl (.param a)) (.decl (.param b))

/-- What may be a name of a group. -/
def groups : Node → Bool
  | decl (.var _) | decl (.param _) => true
  | _ => false

namespace Grouped

variable {c d : Node}

theorem symm (h : Grouped c d) : Grouped d c := by
  cases h with
  | var ht hv => exact .var ht.symm hv.symm
  | param ht hv => exact .param ht.symm hv.symm

theorem children_eq (h : Grouped c d) : c.children = d.children := by
  cases h with
  | var ht hv => simp only [children, Decl.children, ht, hv]
  | param ht hv => simp only [children, Decl.children, ht, hv]

theorem below_eq (h : Grouped c d) : c.below = d.below := by
  rw [below, below, h.children_eq]

theorem groups_left (h : Grouped c d) : c.groups = true := by cases h <;> rfl

theorem groups_right (h : Grouped c d) : d.groups = true := h.symm.groups_left

end Grouped

/-- A number that the walk meets at or below a node. -/
def Has (n : Node) (i : Nat) : Prop := ∃ x ∈ n.nodes, x.info.id = i

theorem has_self (n : Node) : n.Has n.info.id := ⟨n, n.self_mem, rfl⟩

theorem has_iff {n : Node} {i : Nat} : n.Has i ↔ n.info.id = i ∨ ∃ c ∈ n.children, c.Has i := by
  constructor
  · rintro ⟨x, hx, hi⟩
    rcases mem_nodes_iff.mp hx with rfl | hx
    · exact .inl hi
    · obtain ⟨c, hc, hx⟩ := mem_below_iff.mp hx
      exact .inr ⟨c, hc, x, hx, hi⟩
  · rintro (hi | ⟨c, hc, x, hx, hi⟩)
    · exact ⟨n, n.self_mem, hi⟩
    · exact ⟨x, mem_nodes_iff.mpr (.inr (mem_below_iff.mpr ⟨c, hc, hx⟩)), hi⟩

/-- Two nodes side by side: they have no number in common, or they are names of one group with
numbers of their own. -/
def Apart (c d : Node) : Prop :=
  (∀ i, c.Has i → ¬d.Has i) ∨ (Grouped c d ∧ c.info.id ≠ d.info.id)

theorem Apart.symm {c d : Node} (h : Apart c d) : Apart d c := by
  rcases h with h | ⟨hg, hne⟩
  · exact .inl fun i hd hc => h i hc hd
  · exact .inr ⟨hg.symm, hne.symm⟩

instance : Std.Symm Apart := ⟨fun _ _ h => h.symm⟩

/-- Apart from the names of groups, nodes side by side have no number in common. -/
theorem Apart.disjoint {c d : Node} (h : Apart c d) (hg : c.groups = false ∨ d.groups = false) :
    ∀ i, c.Has i → ¬d.Has i := by
  rcases h with h | ⟨hgroup, _⟩
  · exact h
  · have hleft := hgroup.groups_left
    have hright := hgroup.groups_right
    rcases hg with hg | hg <;> simp_all

theorem Apart.id_ne {c d : Node} (h : Apart c d) : c.info.id ≠ d.info.id := by
  rcases h with h | ⟨_, hne⟩
  · exact fun heq => h _ c.has_self (heq ▸ d.has_self)
  · exact hne

/-- A node keeps its number to itself, and its direct parts stand apart. -/
structure Neat (n : Node) : Prop where
  own : ∀ c ∈ n.children, ¬c.Has n.info.id
  parts : n.children.Pairwise Apart

/-- A tree of neat nodes. -/
def Tidy (n : Node) : Prop := ∀ x ∈ n.nodes, x.Neat

theorem tidy_iff {n : Node} : n.Tidy ↔ n.Neat ∧ ∀ c ∈ n.children, c.Tidy := by
  constructor
  · intro h
    refine ⟨h n n.self_mem, fun c hc x hx => h x ?_⟩
    exact mem_nodes_iff.mpr (.inr (mem_below_iff.mpr ⟨c, hc, hx⟩))
  · rintro ⟨hn, hc⟩ x hx
    rcases mem_nodes_iff.mp hx with rfl | hx
    · exact hn
    · obtain ⟨c, hmem, hx⟩ := mem_below_iff.mp hx
      exact hc c hmem x hx

theorem Neat.notMem_below {n x : Node} (h : n.Neat) (hx : x ∈ n.below) :
    x.info.id ≠ n.info.id := by
  obtain ⟨c, hc, hx⟩ := mem_below_iff.mp hx
  exact fun heq => h.own c hc ⟨x, hx, heq⟩

/-- In a tidy tree a number belongs to one node. -/
theorem Tidy.eq_of_id {n x y : Node} (h : n.Tidy) (hx : x ∈ n.nodes) (hy : y ∈ n.nodes)
    (hid : x.info.id = y.info.id) : x = y := by
  induction n using induct with
  | step n ih =>
    obtain ⟨hneat, hparts⟩ := tidy_iff.mp h
    rcases mem_nodes_iff.mp hx with rfl | hxb <;> rcases mem_nodes_iff.mp hy with rfl | hyb
    · rfl
    · exact absurd hid.symm (hneat.notMem_below hyb)
    · exact absurd hid (hneat.notMem_below hxb)
    · obtain ⟨c, hc, hxc⟩ := mem_below_iff.mp hxb
      obtain ⟨d, hd, hyd⟩ := mem_below_iff.mp hyb
      by_cases hcd : c = d
      · subst hcd
        exact ih c hc (hparts c hc) hxc hyd
      · rcases hneat.parts.forall hc hd hcd with hdisjoint | ⟨hgroup, hne⟩
        · exact absurd ⟨y, hyd, hid.symm⟩ (hdisjoint x.info.id ⟨x, hxc, rfl⟩)
        -- Of two names of a group only what stands below them can have one number, and it stands
        -- below both.
        · have hcneat := (tidy_iff.mp (hparts c hc)).1
          have hdneat := (tidy_iff.mp (hparts d hd)).1
          have hbelow := hgroup.below_eq
          rcases mem_nodes_iff.mp hxc with rfl | hxc' <;>
            rcases mem_nodes_iff.mp hyd with rfl | hyd'
          · exact absurd hid hne
          · exact absurd hid.symm (hcneat.notMem_below (hbelow ▸ hyd'))
          · exact absurd hid (hdneat.notMem_below (hbelow ▸ hxc'))
          · exact ih c hc (hparts c hc) hxc (mem_nodes_iff.mpr (.inr (hbelow ▸ hyd')))

section Twice

variable {α β : Type}

/-- What is a duplicate in two lists together is one in either, or is in both. -/
theorem duplicate_append {x : α} {l k : List α} (h : (l ++ k).Duplicate x) :
    l.Duplicate x ∨ k.Duplicate x ∨ (x ∈ l ∧ x ∈ k) := by
  induction l with
  | nil => exact .inr (.inl h)
  | cons a l ih =>
    rcases List.duplicate_cons_iff.mp h with ⟨rfl, hmem⟩ | h
    · rcases List.mem_append.mp hmem with hl | hk
      · exact .inl (List.duplicate_cons_iff.mpr (.inl ⟨rfl, hl⟩))
      · exact .inr (.inr ⟨List.mem_cons_self, hk⟩)
    · rcases ih h with hl | hk | ⟨hl, hk⟩
      · exact .inl (List.duplicate_cons_iff.mpr (.inr hl))
      · exact .inr (.inl hk)
      · exact .inr (.inr ⟨List.mem_cons_of_mem _ hl, hk⟩)

/-- What is a duplicate in several lists together is one in some of them, or is in two of them that
are related as all of them are. -/
theorem duplicate_flatMap {R : β → β → Prop} {f : β → List α} {l : List β} (hl : l.Pairwise R)
    {x : α} (h : (l.flatMap f).Duplicate x) :
    (∃ b ∈ l, (f b).Duplicate x) ∨ ∃ b ∈ l, ∃ c ∈ l, R b c ∧ x ∈ f b ∧ x ∈ f c := by
  induction l with
  | nil => exact absurd h (List.not_duplicate_nil x)
  | cons b l ih =>
    obtain ⟨hb, hl⟩ := List.pairwise_cons.mp hl
    rcases duplicate_append h with hdup | hdup | ⟨hx, hmem⟩
    · exact .inl ⟨b, List.mem_cons_self, hdup⟩
    · rcases ih hl hdup with ⟨c, hc, hdup⟩ | ⟨c, hc, d, hd, hR, hxc, hxd⟩
      · exact .inl ⟨c, List.mem_cons_of_mem _ hc, hdup⟩
      · exact .inr ⟨c, List.mem_cons_of_mem _ hc, d, List.mem_cons_of_mem _ hd, hR, hxc, hxd⟩
    · obtain ⟨c, hc, hxc⟩ := List.mem_flatMap.mp hmem
      exact .inr ⟨b, List.mem_cons_self, c, List.mem_cons_of_mem _ hc, hb c hc, hx, hxc⟩

end Twice

/-- A node that the walk over a tidy tree meets twice stands below two names of one group. -/
theorem Tidy.grouped_of_duplicate {n x : Node} (h : n.Tidy) (hx : n.nodes.Duplicate x) :
    ∃ c ∈ n.nodes, ∃ d ∈ n.nodes, Grouped c d ∧ c.info.id ≠ d.info.id ∧ x ∈ c.below := by
  induction n using induct with
  | step n ih =>
    obtain ⟨hneat, hparts⟩ := tidy_iff.mp h
    rw [nodes_eq_cons] at hx
    have hmem : ∀ c ∈ n.children, c.nodes ⊆ n.nodes := fun c hc y hy =>
      mem_nodes_iff.mpr (.inr (mem_below_iff.mpr ⟨c, hc, hy⟩))
    rcases List.duplicate_cons_iff.mp hx with ⟨rfl, hbelow⟩ | hbelow
    · exact absurd rfl (hneat.notMem_below hbelow)
    · rcases duplicate_flatMap hneat.parts hbelow with
        ⟨c, hc, hdup⟩ | ⟨c, hc, d, hd, hapart, hxc, hxd⟩
      · obtain ⟨e, he, f, hf, hrest⟩ := ih c hc (hparts c hc) hdup
        exact ⟨e, hmem c hc he, f, hmem c hc hf, hrest⟩
      · rcases hapart with hdisjoint | ⟨hgroup, hne⟩
        · exact absurd ⟨x, hxd, rfl⟩ (hdisjoint x.info.id ⟨x, hxc, rfl⟩)
        · refine ⟨c, hmem c hc c.self_mem, d, hmem d hd d.self_mem, hgroup, hne, ?_⟩
          rcases mem_nodes_iff.mp hxc with rfl | hxb
          · -- The name itself does not stand below the other.
            rcases mem_nodes_iff.mp hxd with rfl | hxd
            · exact absurd rfl hne
            · exact hgroup.below_eq ▸ hxd
          · exact hxb

/-- Trees side by side: their numbers are handed out, each tree is tidy, and they stand apart. -/
structure Laid (ps : List Node) (last : Nat) : Prop where
  numbered : ∀ p ∈ ps, ∀ i, p.Has i → 1 ≤ i ∧ i ≤ last
  tidy : ∀ p ∈ ps, p.Tidy
  apart : ps.Pairwise Apart

/-- A number met in some tree of a list. -/
def Carries (ps : List Node) (i : Nat) : Prop := ∃ p ∈ ps, p.Has i

namespace Laid

variable {ps qs : List Node} {last : Nat}

theorem nil : Laid [] last := ⟨by simp, by simp, .nil⟩

theorem mono (h : Laid ps last) {last' : Nat} (hle : last ≤ last') : Laid ps last' :=
  ⟨fun p hp i hi => (h.numbered p hp i hi).imp id fun hi => Nat.le_trans hi hle, h.tidy, h.apart⟩

theorem subperm (h : Laid ps last) (hsub : qs.Subperm ps) : Laid qs last := by
  obtain ⟨rs, hperm, hrs⟩ := hsub
  have hmem : ∀ q ∈ qs, q ∈ ps := fun q hq => hrs.subset (hperm.mem_iff.mpr hq)
  have hapart : rs.Pairwise Apart := h.apart.sublist hrs
  exact ⟨fun q hq => h.numbered q (hmem q hq), fun q hq => h.tidy q (hmem q hq),
    hperm.pairwise hapart fun hcd => hcd.symm⟩

theorem append (hp : Laid ps last) (hq : Laid qs last)
    (h : ∀ i, Carries ps i → ¬Carries qs i) : Laid (ps ++ qs) last := by
  refine ⟨?_, ?_, ?_⟩
  · intro p hmem
    exact (List.mem_append.mp hmem).elim (hp.numbered p) (hq.numbered p)
  · intro p hmem
    exact (List.mem_append.mp hmem).elim (hp.tidy p) (hq.tidy p)
  · rw [List.pairwise_append]
    exact ⟨hp.apart, hq.apart, fun p hpm q hqm =>
      .inl fun i hpi hqi => h i ⟨p, hpm, hpi⟩ ⟨q, hqm, hqi⟩⟩

end Laid

/-- A place held for a node that is numbered and not yet built. -/
def seed (i : NodeInfo) : Node := .stmt (.empty i)

@[simp]
theorem seed_info (i : NodeInfo) : (seed i).info = i := rfl

@[simp]
theorem seed_children (i : NodeInfo) : (seed i).children = [] := rfl

theorem seed_has {i : NodeInfo} {k : Nat} : (seed i).Has k ↔ i.id = k := by
  rw [has_iff]
  simp

/-- Wherever the first trees stand side by side the second can do so in their stead, without any
other number. -/
structure Yields (ps qs : List Node) : Prop where
  laid : ∀ last, Laid ps last → Laid qs last
  carries : ∀ i, Carries qs i → Carries ps i

namespace Yields

variable {ps qs rs fs : List Node}

theorem refl (ps : List Node) : Yields ps ps := ⟨fun _ h => h, fun _ h => h⟩

theorem trans (h : Yields ps qs) (k : Yields qs rs) : Yields ps rs :=
  ⟨fun last hp => k.laid last (h.laid last hp), fun i hi => h.carries i (k.carries i hi)⟩

theorem of_subperm (h : qs.Subperm ps) : Yields ps qs :=
  ⟨fun _ hp => hp.subperm h, fun _ ⟨q, hq, hi⟩ => ⟨q, h.subset hq, hi⟩⟩

/-- Names of a group are built over the parts that they share. Nothing beside them may belong to
the same group. -/
theorem group {ds cs : List Node} (hchildren : ∀ d ∈ ds, d.children = cs)
    (hgroup : ds.Pairwise Grouped) (hfree : ∀ c ∈ cs, ∀ f ∈ fs, ¬Grouped c f) :
    Yields (ds.map (fun d => seed d.info) ++ cs ++ fs) (ds ++ fs) := by
  have hhas : ∀ d ∈ ds, ∀ i, d.Has i → d.info.id = i ∨ ∃ c ∈ cs, c.Has i := fun d hd i hi => by
    rw [← hchildren d hd]
    exact has_iff.mp hi
  have hseed : ∀ d ∈ ds, seed d.info ∈ ds.map fun d => seed d.info := fun d hd =>
    List.mem_map_of_mem hd
  refine ⟨fun last h => ?_, fun i ⟨p, hp, hi⟩ => ?_⟩
  · obtain ⟨hseedsParts, hfs, hfrom⟩ := List.pairwise_append.mp h.apart
    obtain ⟨hseeds, hcs, hover⟩ := List.pairwise_append.mp hseedsParts
    have hown : ∀ d ∈ ds, ∀ c ∈ cs, ¬c.Has d.info.id := fun d hd c hc =>
      (hover _ (hseed d hd) c hc).disjoint (.inl rfl) _ (has_self _)
    refine ⟨?_, ?_, ?_⟩
    · intro p hp i hi
      rcases List.mem_append.mp hp with hd | hf
      · rcases hhas p hd i hi with rfl | ⟨c, hc, hci⟩
        · exact h.numbered (seed p.info) (by simp [hseed p hd]) _ (has_self _)
        · exact h.numbered c (by simp [hc]) i hci
      · exact h.numbered p (by simp [hf]) i hi
    · intro p hp
      rcases List.mem_append.mp hp with hd | hf
      · rw [tidy_iff]
        refine ⟨⟨?_, ?_⟩, ?_⟩
        · rw [hchildren p hd]
          exact hown p hd
        · rw [hchildren p hd]
          exact hcs
        · rw [hchildren p hd]
          exact fun c hc => h.tidy c (by simp [hc])
      · exact h.tidy p (by simp [hf])
    · rw [List.pairwise_append]
      refine ⟨?_, hfs, fun d hd f hf => .inl fun i hdi => ?_⟩
      · -- The places held for the names have numbers of their own.
        exact (hgroup.and (List.pairwise_map.mp hseeds)).imp fun ⟨hg, ha⟩ => .inr ⟨hg, ha.id_ne⟩
      · rcases hhas d hd i hdi with rfl | ⟨c, hc, hci⟩
        · have hside := hfrom (seed d.info) (by simp [hseed d hd]) f hf
          exact hside.disjoint (.inl rfl) _ (has_self _)
        · rcases hfrom c (by simp [hc]) f hf with hdisjoint | ⟨hcf, _⟩
          · exact hdisjoint i hci
          · exact absurd hcf (hfree c hc f hf)
  · rcases List.mem_append.mp hp with hd | hf
    · rcases hhas p hd i hi with rfl | ⟨c, hc, hci⟩
      · exact ⟨seed p.info, by simp [hseed p hd], has_self _⟩
      · exact ⟨c, by simp [hc], hci⟩
    · exact ⟨p, by simp [hf], hi⟩

/-- A node is built over some of the parts. -/
theorem wrap {n : Node} {i : NodeInfo} (hi : n.info = i) (hsub : n.children.Subperm ps)
    (hfree : ∀ c ∈ n.children, ∀ f ∈ fs, ¬Grouped c f) :
    Yields (seed i :: (ps ++ fs)) (n :: fs) := by
  subst hi
  have hdrop : (seed n.info :: (n.children ++ fs)).Subperm (seed n.info :: (ps ++ fs)) :=
    (List.subperm_cons _).mpr ((List.subperm_append_right fs).mpr hsub)
  have hchildren : ∀ d ∈ [n], d.children = n.children := by simp
  exact (of_subperm hdrop).trans (group hchildren (List.pairwise_singleton _ n) hfree)

/-- A node is built over some of the parts, and nothing else is left. -/
theorem node {n : Node} {i : NodeInfo} (hi : n.info = i) (hsub : n.children.Subperm ps) :
    Yields (seed i :: ps) [n] := by
  have hwrap := wrap hi hsub (fun _ _ f hf => (List.not_mem_nil hf).elim)
  rwa [List.append_nil] at hwrap

/-- A node without parts is built beside others. -/
theorem leaf {n : Node} {i : NodeInfo} (hi : n.info = i) (hn : n.children = []) :
    Yields (seed i :: fs) (n :: fs) := by
  have hsub : n.children.Subperm [] := by rw [hn]
  exact wrap hi hsub (by simp [hn])

/-- A tree gives way to its direct parts. -/
theorem unwrap {t : Node} (ht : t.groups = false) : Yields (t :: fs) (t.children ++ fs) := by
  have hhas : ∀ c ∈ t.children, ∀ i, c.Has i → t.Has i := fun c hc i hi =>
    has_iff.mpr (.inr ⟨c, hc, hi⟩)
  refine ⟨fun last h => ?_, fun i ⟨p, hp, hi⟩ => ?_⟩
  · obtain ⟨hapart, hfs⟩ := List.pairwise_cons.mp h.apart
    obtain ⟨hneat, hparts⟩ := tidy_iff.mp (h.tidy t List.mem_cons_self)
    refine ⟨?_, ?_, ?_⟩
    · intro p hp i hi
      rcases List.mem_append.mp hp with hc | hf
      · exact h.numbered t List.mem_cons_self i (hhas p hc i hi)
      · exact h.numbered p (List.mem_cons_of_mem _ hf) i hi
    · intro p hp
      rcases List.mem_append.mp hp with hc | hf
      · exact hparts p hc
      · exact h.tidy p (List.mem_cons_of_mem _ hf)
    · rw [List.pairwise_append]
      refine ⟨hneat.parts, hfs, fun c hc f hf => .inl fun i hi => ?_⟩
      exact (hapart f hf).disjoint (.inl ht) i (hhas c hc i hi)
  · rcases List.mem_append.mp hp with hc | hf
    · exact ⟨t, List.mem_cons_self, hhas p hc i hi⟩
    · exact ⟨p, List.mem_cons_of_mem _ hf, hi⟩

/-- Nodes are replaced by others with the same numbers and parts. -/
theorem replace {g : Node → Node} (hinfo : ∀ p ∈ ps, (g p).info = p.info)
    (hchildren : ∀ p ∈ ps, (g p).children = p.children)
    (hgroup : ∀ p q, Grouped p q → Grouped (g p) (g q)) : Yields ps (ps.map g) := by
  have hhas : ∀ p ∈ ps, ∀ i, (g p).Has i ↔ p.Has i := fun p hp i => by
    rw [has_iff, has_iff (n := p), hinfo p hp, hchildren p hp]
  refine ⟨fun last h => ⟨?_, ?_, ?_⟩, ?_⟩
  · rw [List.forall_mem_map]
    exact fun p hp i hi => h.numbered p hp i ((hhas p hp i).mp hi)
  · rw [List.forall_mem_map]
    intro p hp
    obtain ⟨hneat, hparts⟩ := tidy_iff.mp (h.tidy p hp)
    rw [tidy_iff]
    refine ⟨⟨?_, ?_⟩, ?_⟩
    · rw [hinfo p hp, hchildren p hp]
      exact hneat.own
    · rw [hchildren p hp]
      exact hneat.parts
    · rw [hchildren p hp]
      exact hparts
  · rw [List.pairwise_map]
    refine h.apart.imp_of_mem fun {p q} hp hq hapart => ?_
    rcases hapart with hdisjoint | ⟨hpq, hne⟩
    · exact .inl fun i hpi hqi => hdisjoint i ((hhas p hp i).mp hpi) ((hhas q hq i).mp hqi)
    · exact .inr ⟨hgroup p q hpq, by rwa [hinfo p hp, hinfo q hq]⟩
  · rintro i ⟨_, hmem, hi⟩
    obtain ⟨p, hp, rfl⟩ := List.mem_map.mp hmem
    exact ⟨p, hp, (hhas p hp i).mp hi⟩

end Yields

end Node
end ObjectPascal
