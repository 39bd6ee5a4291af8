import ObjectPascal.Proofs.Annotations
import ObjectPascal.Proofs.Rule.Ending
import ObjectPascal.Proofs.Rule.Layout

/-!
Numbers tell the nodes of a parsed source apart. On the stack of a parse the values carry nodes with
numbers that are handed out already, and no two values have a number in common. Every step keeps
this, and a whole source is the node made last. So whatever is recorded under the number of a node
belongs to that node alone, and numbers handed out behind the parse are new.
-/

namespace ObjectPascal.Rule

open Grammar (Tables Move Run Parsing Configuration)
open Node (Laid Carries Grouped)

/-- What holds of the stack of a parse: the nodes that a value carries stand side by side, no two
values have a number in common, and a whole source on top is the newest node. -/
structure Ordered (c : Configuration Value Goal Nat) : Prop where
  laid : ∀ v ∈ c.values, Laid v.parts c.memory
  apart : c.values.Pairwise fun v w => ∀ i, Carries v.parts i → ¬Carries w.parts i
  newest : ∀ g rest, c.values = ⟨.goal, g⟩ :: rest → (Goal.info g).id = c.memory

section Flat

variable {vs : List Value} {last i : Nat}

theorem carries_flatMap : Carries (vs.flatMap Value.parts) i ↔ ∃ v ∈ vs, Carries v.parts i := by
  constructor
  · rintro ⟨p, hp, hi⟩
    obtain ⟨v, hv, hp⟩ := List.mem_flatMap.mp hp
    exact ⟨v, hv, p, hp, hi⟩
  · rintro ⟨v, hv, p, hp, hi⟩
    exact ⟨p, List.mem_flatMap.mpr ⟨v, hv, hp⟩, hi⟩

theorem laid_flatMap (hl : ∀ v ∈ vs, Laid v.parts last)
    (ha : vs.Pairwise fun v w => ∀ i, Carries v.parts i → ¬Carries w.parts i) :
    Laid (vs.flatMap Value.parts) last := by
  induction vs with
  | nil => exact Laid.nil
  | cons v vs ih =>
    obtain ⟨hv, ha⟩ := List.pairwise_cons.mp ha
    obtain ⟨hl, hls⟩ := List.forall_mem_cons.mp hl
    rw [List.flatMap_cons]
    refine hl.append (ih hls ha) fun i hvi hrest => ?_
    obtain ⟨w, hw, hwi⟩ := carries_flatMap.mp hrest
    exact hv w hw i hvi hwi

end Flat

section Newest

/-- What is built for a whole source is the newest node, or it is the argument itself. -/
def Crowns (r : Rule) : Prop :=
  AlwaysOf (fun vs b => ∀ site last a last', b site last = .ok (a, last') →
    (∀ n ∈ Value.parts ⟨r.lhs.shape, a⟩, n.info.id = last') ∨
      (vs = [⟨r.lhs.shape, a⟩] ∧ last' = last)) r.rhs [] r.builder

set_option maxRecDepth 20000 in
theorem mem_goals {r : Rule} (hr : r ∈ all) (hs : r.lhs.shape = .goal) : r ∈ goals := by
  have hall : ((names ++ sections ++ routines ++ types ++ members ++ statements ++
      expressions).all fun r => r.lhs.shape != .goal) = true := by
    decide
  simp only [all, List.append_assoc] at hr
  rcases List.mem_append.mp hr with hr | hr
  · exact hr
  · simp only [List.append_assoc] at hall
    have hne := List.all_eq_true.mp hall r hr
    simp [hs] at hne

theorem goal_newest {f : NodeInfo → Goal} (hf : ∀ i, (f i).info = i) {site : Site} {last : Nat}
    {g : Goal} {last' : Nat} (h : (do return f (← node) : Build Goal) site last = .ok (g, last')) :
    g.info.id = last' := by
  cases h
  rw [hf]

/-- A goal is the value of its phrase. -/
example : Phrase.goal.shape = .goal := by decide +kernel

theorem goals_crown : ∀ r ∈ goals, r.lhs.shape = .goal → r.Crowns := by
  simp only [goals, List.forall_mem_cons]
  dsimp only [rule, Phrase.shape]
  simp only [reduceCtorEq, IsEmpty.forall_iff, true_and, and_true, List.not_mem_nil, implies_true,
    forall_const]
  -- Four rules pass a whole source on, and four build one.
  have hgive (g : Goal) (site : Site) (last : Nat) (a : Goal) (last' : Nat)
      (h : (give g : Build Goal) site last = .ok (a, last')) : g = a ∧ last' = last := by
    cases h
    exact ⟨rfl, rfl⟩
  refine ⟨?_, ?_, ?_, ?_, ?_, ?_, ?_, ?_⟩
  iterate 4
    intro g site last a last' h
    obtain ⟨rfl, hlast⟩ := hgive g site last a last' h
    exact .inr ⟨rfl, hlast⟩
  · intro _ name params _ uses block _ site last a last' h
    exact .inl (List.forall_mem_singleton.mpr (goal_newest (fun _ => rfl) h))
  · intro _ name _ _ publicUses publicDecls _ ownUses ownDecls ending _ site last a last' h
    exact .inl (List.forall_mem_singleton.mpr (goal_newest (fun _ => rfl) h))
  · intro _ name _ uses block _ site last a last' h
    exact .inl (List.forall_mem_singleton.mpr (goal_newest (fun _ => rfl) h))
  · intro _ name _ requires contains _ _ site last a last' h
    exact .inl (List.forall_mem_singleton.mpr (goal_newest (fun _ => rfl) h))

end Newest

section Steps

variable {config : Config} {origin : Nat} {t : Tables} {ms : List Move}
  {c c' : Configuration Value Goal Nat}

theorem memory_of_accepted {s : Grammar.Semantics Value Goal Nat} {g : Goal}
    (ha : c.Accepting t) (h : c.step t s = .accepted g c') : c'.memory = c.memory := by
  rcases Configuration.step_of_default_none (s := s) ha.1 with ⟨_, hstep⟩ | ⟨_, _, hstep⟩
  · rw [hstep, Configuration.act, Configuration.look_top, ha.2] at h
    dsimp only at h
    split at h
    · cases h
      exact Configuration.look_memory
    · cases h
  · rw [hstep] at h
    cases h

theorem Ordered.initial (supply : Supply) : Ordered { supply, memory := 0 } :=
  ⟨by simp, .nil, nofun⟩

/-- A token carries no node. -/
theorem Ordered.shift (h : Ordered c) {token : Token}
    (hvalues : c'.values = ⟨.token, token⟩ :: c.values) (hmemory : c'.memory = c.memory) :
    Ordered c' := by
  refine ⟨?_, ?_, ?_⟩
  · rw [hvalues, hmemory, List.forall_mem_cons]
    exact ⟨Laid.nil, h.laid⟩
  · rw [hvalues, List.pairwise_cons]
    exact ⟨fun w _ i ⟨p, hp, _⟩ => (List.not_mem_nil hp).elim, h.apart⟩
  · rw [hvalues]
    intro g rest heq
    cases heq

/-- A reduction puts new nodes over those of its arguments. -/
theorem Ordered.reduce (h : Ordered c) {r : Rule} {n line : Nat}
    (hr : r ∈ all) (hargs : ((c.values.take n).reverse).map Sigma.fst = r.rhs.map Sym.shape)
    {e : Grammar.Reduced Value Goal Nat}
    (hvalue : reduction config origin r line (c.values.take n).reverse c.memory = .ok e)
    (hvalues : c'.values = e.value :: c.values.drop n) (hmemory : c'.memory = e.memory) :
    Ordered c' := by
  obtain ⟨b, hb, hlays⟩ := exists_applyTo_of (all_lay r hr) hargs
  rw [List.nil_append] at hlays
  rw [reduction, hb] at hvalue
  obtain ⟨⟨v, last⟩, hrun, heq⟩ := bind_eq_ok.mp hvalue
  cases heq
  obtain ⟨hle, hlaid, hcarries⟩ := hlays _ _ _ _ hrun
  have hsplit : c.values = c.values.take n ++ c.values.drop n := (List.take_append_drop n _).symm
  have hpair := h.apart
  rw [hsplit, List.pairwise_append] at hpair
  obtain ⟨htake, hdrop, hcross⟩ := hpair
  have hnew : Laid (Value.parts ⟨r.lhs.shape, v⟩) last := by
    refine hlaid (laid_flatMap (fun w hw => ?_) ?_)
    · exact h.laid w (List.mem_of_mem_take (List.mem_reverse.mp hw))
    · rw [List.pairwise_reverse]
      exact htake.imp fun hvw i hw hv => hvw i hv hw
  refine ⟨?_, ?_, ?_⟩
  · rw [hvalues, hmemory, List.forall_mem_cons]
    exact ⟨hnew, fun w hw => (h.laid w (List.mem_of_mem_drop hw)).mono hle⟩
  · rw [hvalues, List.pairwise_cons]
    refine ⟨fun w hw i hi hwi => ?_, hdrop⟩
    -- The number is that of an argument, or it is new.
    rcases hcarries i hi with hold | hfresh
    · obtain ⟨u, hu, hui⟩ := carries_flatMap.mp hold
      exact hcross u (List.mem_reverse.mp hu) w hw i hui hwi
    · obtain ⟨p, hp, hpi⟩ := hwi
      have hold := ((h.laid w (List.mem_of_mem_drop hw)).numbered p hp i hpi).2
      exact absurd hold (Nat.not_le.mpr hfresh.1)
  · rw [hvalues, hmemory]
    intro g rest heq
    obtain ⟨hv, _⟩ := List.cons.inj heq
    replace hv : (⟨r.lhs.shape, v⟩ : Value) = ⟨.goal, g⟩ := hv
    have hshape : r.lhs.shape = .goal := congrArg Sigma.fst hv
    obtain ⟨b', hb', hcrowns⟩ :=
      exists_applyTo_of (goals_crown r (mem_goals hr hshape) hshape) hargs
    obtain rfl : b = b' := Option.some.inj (hb.symm.trans hb')
    rw [List.nil_append] at hcrowns
    rcases hcrowns _ _ _ _ hrun with hnew | ⟨hsame, hlast⟩
    · rw [hv] at hnew
      exact hnew (.goal g) List.mem_cons_self
    · -- A whole source that is passed on was on top already.
      rw [hv] at hsame
      have htop : c.values = ⟨.goal, g⟩ :: c.values.drop n := by
        rw [← List.singleton_append, ← List.reverse_singleton, ← hsame, List.reverse_reverse,
          List.take_append_drop]
      exact (h.newest g _ htop).trans hlast.symm

/-- One step keeps the stack in order. -/
theorem Ordered.step (ht : grammar.tables = .ok t) {ts : List Grammar.Tree}
    (hts : Parsing grammar (semantics config origin) ms c ts) (h : Ordered c)
    (hs : c.step t (semantics config origin) = .more c') : Ordered c' := by
  rcases Configuration.step_eq_more hs with ⟨q, _, _, rfl⟩ | ⟨i, hmove, hred⟩
  · exact h.shift rfl Configuration.look_memory
  · obtain ⟨r, hrule, hargs⟩ := args_shaped ht hts (Configuration.reduces_of_move hmove)
    -- A look at the next token changes neither the stack nor the number of the last node.
    have hreduce {c₁ : Configuration Value Goal Nat} (hvalues : c₁.values = c.values)
        (hmemory : c₁.memory = c.memory)
        (hred : c₁.reduce t (semantics config origin) i = .more c') : Ordered c' := by
      obtain ⟨e, q, hvalue, _, rfl⟩ := Configuration.reduce_eq_more hred
      rw [valueOf_eq_reduction hrule, Configuration.args, hvalues, hmemory] at hvalue
      exact h.reduce (ofProduction_mem hrule) hargs hvalue (by rw [hvalues]) rfl
    rcases hred with ⟨_, hred⟩ | ⟨_, hred⟩
    · exact hreduce rfl rfl hred
    · exact hreduce Configuration.look_values Configuration.look_memory hred

/-- The stack is in order wherever a run leads. -/
theorem Ordered.of_run (ht : grammar.tables = .ok t) {supply : Supply}
    (h : Run t (semantics config origin) { supply, memory := 0 } ms c) : Ordered c := by
  induction h with
  | refl => exact Ordered.initial supply
  | tail hrun hs ih =>
    obtain ⟨ts, hts⟩ := Parsing.of_run grammar_numbered.built.wellFormed
      grammar_numbered.unreserved ht hrun
    exact ih.step ht hts hs

theorem exists_goalOf {p : Phrase} (h : p = .goal) (v : p.shape.Val) :
    ∃ g : Goal, goalOf p v = some g ∧ (⟨p.shape, v⟩ : Value) = ⟨.goal, g⟩ := by
  subst h
  exact ⟨v, rfl, rfl⟩

/-- Where the tables accept, the goal is the value on top of the stack. -/
theorem top_of_accepting (ht : grammar.tables = .ok t) {supply : Supply} {memory : Nat}
    (h : Run t (semantics config origin) { supply, memory } ms c) (ha : c.Accepting t) :
    ∃ g rest, c.goal = some g ∧ c.values = ⟨.goal, g⟩ :: rest := by
  obtain ⟨tree, i, j, forest, dot, hends, hmoves⟩ := ends_of_accepting ht h ha
  obtain ⟨r, hi, hlhs⟩ := hends.goal
  -- The last move of the run is the reduction to the goal.
  have hms : ms = (Grammar.Tree.node j (forest ++ [.leaf dot])).moves ++ [.reduce i] := by
    rw [← hmoves, hends.eq]
    simp
  obtain ⟨c₁, _, hlast⟩ := Run.part (hms ▸ h)
  obtain ⟨hs, hmove⟩ := hlast.step_of_singleton
  obtain ⟨c₂, _, _, _, hred⟩ := Configuration.reduce_of_step hs hmove
  obtain ⟨e, q, hvalue, _, rfl⟩ := Configuration.reduce_eq_more hred
  rw [valueOf_eq_reduction hi] at hvalue
  obtain ⟨v, hv, hgoal⟩ := reduction_eq_ok hvalue
  obtain ⟨g, hg, htop⟩ := exists_goalOf hlhs v
  refine ⟨g, c₂.values.drop (t.grammar.production i).rhs.length, ?_, ?_⟩
  · rw [hgoal, hg]
    rfl
  · rw [hv, htop]

end Steps

/-- What holds of the numbers in a parsed source, the last of which is given. -/
structure Identified (g : Goal) (last : Nat) : Prop where
  /-- Every node has a number that was handed out. -/
  range : ∀ x ∈ g.nodes, 1 ≤ x.info.id ∧ x.info.id ≤ last
  /-- The goal has the last one, and no other node has it. -/
  newest : g.info.id = last ∧ ∀ x ∈ g.nodes.tail, x.info.id ≠ last
  /-- Nodes with one number are one node. -/
  unique : ∀ x ∈ g.nodes, ∀ y ∈ g.nodes, x.info.id = y.info.id → x = y
  /-- What is met twice stands below two names of one group. -/
  shared : ∀ x, g.nodes.Duplicate x →
    ∃ c ∈ g.nodes, ∃ d ∈ g.nodes, Grouped c d ∧ c.info.id ≠ d.info.id ∧ x ∈ c.below ∧ x ∈ d.below

/-- The goal of an accepting run is identified by the numbers in it. -/
theorem Ordered.identified (h : Ordered c) {g : Goal} {rest : List Value}
    (htop : c.values = ⟨.goal, g⟩ :: rest) : Identified g c.memory := by
  have hlaid : Laid [.goal g] c.memory := h.laid ⟨.goal, g⟩ (htop ▸ List.mem_cons_self)
  have hlast := h.newest g rest htop
  have htidy : (Node.goal g).Tidy := hlaid.tidy _ List.mem_cons_self
  refine ⟨fun x hx => ?_, ⟨hlast, fun x hx => ?_⟩, fun x hx y hy => htidy.eq_of_id hx hy,
    fun x hx => ?_⟩
  · exact hlaid.numbered _ List.mem_cons_self _ ⟨x, hx, rfl⟩
  · have hbelow : x ∈ (Node.goal g).below := by
      rwa [g.nodes_eq, Node.nodes_eq_cons] at hx
    rw [← hlast]
    exact (Node.tidy_iff.mp htidy).1.notMem_below hbelow
  · obtain ⟨e, he, d, hd, hgroup, hne, hbelow⟩ := htidy.grouped_of_duplicate hx
    exact ⟨e, he, d, hd, hgroup, hne, hbelow, hgroup.below_eq ▸ hbelow⟩

end ObjectPascal.Rule
