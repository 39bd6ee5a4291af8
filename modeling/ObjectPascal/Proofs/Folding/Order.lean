import ObjectPascal.Proofs.Binding.Upkeep
import ObjectPascal.Proofs.Folding.Independence

/-!
Folding the expressions of a bound source. What they depend on are other expressions of the source,
what stands in for them since binding, and the literals of the language. All these have numbers of
their own if those of the source do. So the expressions can be folded in any order, and again.
-/

namespace ObjectPascal

/-- The parts of an expression that its value can depend on are parts of it. -/
theorem Expr.mem_children_of_mem_operands {e x : Expr} (h : x ∈ e.operands) :
    .expr x ∈ e.children := by
  unfold operands at h
  split at h
  · exact List.mem_singleton.mpr (congrArg _ (List.mem_singleton.mp h))
  · rw [children, List.mem_cons, List.mem_singleton]
    simpa using h
  · exact List.mem_cons_of_mem _ (List.mem_map_of_mem h)
  · cases h

theorem Expr.operands_of_isBare {e : Expr} (h : e.isBare = true) : e.operands = [] := by
  cases e with
  | call i callee args =>
    cases args with
    | none => rfl
    | some _ => cases h
  | _ => first | rfl | cases h

theorem Expr.operands_of_isLiteral {e : Expr} (h : e.isLiteral = true) : e.operands = [] := by
  cases e <;> first | rfl | cases h

namespace Binding

open Folding

variable {config : Config} {path : Text} {g : Goal} {last : Nat} {c : Binding} {e : Expr}

/-- Binding a source meets the parts of what it meets. -/
theorem mem_visits_of_child {x y : Node} (hx : x ∈ g.nodes.flatMap visits)
    (hy : y ∈ x.children) : y ∈ g.nodes.flatMap visits := by
  obtain ⟨z, hz, hx⟩ := List.mem_flatMap.mp hx
  have hself (hzx : z = x) : y ∈ g.nodes.flatMap visits :=
    (sublist_visits g.nodes).subset (Node.mem_nodes_of_child (n := .goal g) (hzx ▸ hz) hy)
  unfold visits at hx
  split at hx
  · obtain rfl | hx := List.mem_cons.mp hx
    · exact hself rfl
    · obtain ⟨r, hr, hx⟩ := List.mem_flatMap.mp hx
      refine List.mem_flatMap.mpr ⟨_, hz, List.mem_cons_of_mem _ (List.mem_flatMap.mpr ⟨r, hr, ?_⟩)⟩
      exact Node.mem_nodes_of_child hx hy
  · exact hself (List.mem_singleton.mp hx).symm

/-- The numbers in a source tell the nodes apart that binding meets. They go up to `last`, and the
nodes that are made have numbers below those of the language. -/
structure Distinct (g : Goal) (last : Nat) : Prop where
  range : ∀ x ∈ g.nodes.flatMap visits, x.info.id ≤ last
  unique : ∀ x ∈ g.nodes.flatMap visits, ∀ y ∈ g.nodes.flatMap visits,
    x.info.id = y.info.id → x = y
  room : last + 1 + 3 * (g.nodes.flatMap visits).length ≤ Builtin.base

/-- What nodes can refer to: declarations without a value, those of the source and those of the
language. -/
def Referable (config : Config) (g : Goal) (d : Decl) : Prop :=
  d.isValued = false ∨ .decl d ∈ g.nodes.flatMap visits ∨
    ∃ name, (Frame.runtime config).find? name = some d

/-- What folding can come to: expressions of the source, what stands in for them, and the values of
the constants of the language. -/
inductive Foldable (config : Config) (g : Goal) (c : Binding) : Expr → Prop
  | source {e : Expr} (h : .expr e ∈ g.nodes.flatMap visits) : Foldable config g c e
  | standIn {k : Nat} {e : Expr} (h : c.notes.substitutes[k]? = some e) : Foldable config g c e
  | native {name : Text} {d : ConstDecl} {e : Expr}
      (h : (Frame.runtime config).find? name = some (.const d)) (hvalue : d.value = some e) :
      Foldable config g c e

/-- What is in order once a source is bound to its end. -/
structure Bound (config : Config) (g : Goal) (last : Nat) (c : Binding) : Prop where
  distinct : Distinct g last
  inOrder : InOrder last (Referable config g) c
  next : c.notes.next ≤ Builtin.base

theorem bound_of_ofGoal (hg : Distinct g last) (h : ofGoal config path g last = (.ok (), c)) :
    Bound config g last c := by
  have hroom : last + 1 + 3 * (g.nodes.flatMap visits).length < Annotations.numberCount :=
    Nat.lt_of_le_of_lt hg.room (by decide)
  obtain ⟨horder, hnext⟩ := inOrder_of_ofGoal h hroom
    (A := Referable config g) (fun name d hd => .inr (.inr ⟨name, hd⟩))
    fun d hd => hd.imp id .inl
  exact ⟨hg, horder, Nat.le_trans hnext hg.room⟩

namespace Bound

theorem last_lt (h : Bound config g last c) : last < Builtin.base :=
  Nat.lt_of_lt_of_le (Nat.lt_succ_self last) (Nat.le_of_add_right_le h.distinct.room)

/-- Where the number of a stand-in comes from. -/
theorem standIn_between (h : Bound config g last c) {k : Nat}
    (he : c.notes.substitutes[k]? = some e) : last < e.info.id ∧ e.info.id < Builtin.base :=
  (h.inOrder.standIns k e he).imp_right fun hnext => Nat.lt_of_lt_of_le hnext h.next

/-- Different expressions that folding can come to have different numbers. -/
theorem apart (h : Bound config g last c) {f : Expr} (he : Foldable config g c e)
    (hf : Foldable config g c f) (hid : e.info.id = f.info.id) : e = f := by
  have hlast := h.last_lt
  obtain ⟨l, hl, hnumbered⟩ := Builtin.exists_numbered_runtime config
  have hnative {name : Text} {d : ConstDecl} {e : Expr}
      (hd : (Frame.runtime config).find? name = some (.const d)) (hvalue : d.value = some e) :
      Builtin.base < e.info.id := (hnumbered.range _ _ _ (hl ▸ hd) hvalue).2.1
  cases he with
  | source he =>
    have hrange : e.info.id ≤ last := h.distinct.range _ he
    cases hf with
    | source hf =>
      cases h.distinct.unique _ he _ hf hid
      rfl
    | standIn hf =>
      have hbetween := h.standIn_between hf
      omega
    | native hd hvalue =>
      have hbase := hnative hd hvalue
      omega
  | standIn he =>
    have hbetween := h.standIn_between he
    cases hf with
    | source hf =>
      have hrange : f.info.id ≤ last := h.distinct.range _ hf
      omega
    | standIn hf =>
      obtain rfl := h.inOrder.apart _ _ _ _ he hf hid
      exact Option.some.inj (he.symm.trans hf)
    | native hd hvalue =>
      have hbase := hnative hd hvalue
      omega
  | native hd hvalue =>
    have hbase := hnative hd hvalue
    cases hf with
    | source hf =>
      have hrange : f.info.id ≤ last := h.distinct.range _ hf
      omega
    | standIn hf =>
      have hbetween := h.standIn_between hf
      omega
    | native hd' hvalue' =>
      obtain rfl := hnumbered.apart _ _ _ _ _ _ (hl ▸ hd) (hl ▸ hd') hvalue hvalue' (.inr hid)
      exact Option.some.inj (hvalue.symm.trans hvalue')

/-- A constant that is meant is one of the source or of the language. -/
theorem const (h : Bound config g last c) {i : NodeInfo} {d : ConstDecl}
    (hd : c.notes.declOf i = some (.const d)) : .decl (.const d) ∈ g.nodes.flatMap visits ∨
      ∃ name, (Frame.runtime config).find? name = some (.const d) :=
  (h.inOrder.meant i _ hd).resolve_left nofun

/-- A member of an enumeration that is meant is one of the source. -/
theorem member (h : Bound config g last c) {i : NodeInfo} {m : EnumMember}
    (hm : c.notes.declOf i = some (.enumMember m)) :
    .decl (.enumMember m) ∈ g.nodes.flatMap visits := by
  obtain hplain | hsource | ⟨name, hname⟩ := h.inOrder.meant i _ hm
  · cases hplain
  · exact hsource
  · obtain ⟨l, hl, hnumbered⟩ := Builtin.exists_numbered_runtime config
    obtain ⟨c, v, heq, -⟩ := hnumbered.valued name _ (hl ▸ hname) rfl
    cases heq

/-- Constants that are meant can be told apart. -/
theorem eq_of_info_eq (h : Bound config g last c) {i j : NodeInfo} {d d' : ConstDecl}
    (hd : c.notes.declOf i = some (.const d)) (hd' : c.notes.declOf j = some (.const d'))
    (hinfo : d.info = d'.info) : d = d' := by
  have hlast := h.last_lt
  obtain ⟨l, hl, hnumbered⟩ := Builtin.exists_numbered_runtime config
  have hid : d.info.id = d'.info.id := congrArg NodeInfo.id hinfo
  have hnative {name : Text} {d : ConstDecl}
      (hd : (Frame.runtime config).find? name = some (.const d)) :
      ∃ v, d.value = some v ∧ Builtin.base < d.info.id := by
    obtain ⟨_, v, heq, hvalue, -⟩ := hnumbered.valued name _ (hl ▸ hd) rfl
    cases heq
    exact ⟨v, hvalue, (hnumbered.range _ _ _ (hl ▸ hd) hvalue).1.1⟩
  obtain hsource | ⟨name, hname⟩ := h.const hd <;>
    obtain hsource' | ⟨name', hname'⟩ := h.const hd'
  · cases h.distinct.unique _ hsource _ hsource' hid
    rfl
  · have hrange : d.info.id ≤ last := h.distinct.range _ hsource
    obtain ⟨_, _, hbase⟩ := hnative hname'
    omega
  · have hrange : d'.info.id ≤ last := h.distinct.range _ hsource'
    obtain ⟨_, _, hbase⟩ := hnative hname
    omega
  · obtain ⟨v, hv, -⟩ := hnative hname
    obtain ⟨w, hw, -⟩ := hnative hname'
    exact hnumbered.apart _ _ _ _ _ _ (hl ▸ hname) (hl ▸ hname') hv hw (.inl hid)

/-- Folding does not leave the source, what stands in for its expressions, and the literals of the
language. -/
theorem enclosed (h : Bound config g last c) : Folding.Enclosed c.notes (Foldable config g c) where
  bare := h.inOrder.bare
  operands e he x hx := by
    cases he with
    | source he => exact .source (mem_visits_of_child he (Expr.mem_children_of_mem_operands hx))
    | standIn he =>
      rw [Expr.operands_of_isBare (h.inOrder.bare _ _ he)] at hx
      cases hx
    | native hd hvalue =>
      obtain ⟨l, hl, hnumbered⟩ := Builtin.exists_numbered_runtime config
      obtain ⟨_, v, heq, hv, hliteral⟩ := hnumbered.valued _ _ (hl ▸ hd) rfl
      cases heq
      rw [hvalue] at hv
      cases hv
      rw [Expr.operands_of_isLiteral hliteral] at hx
      cases hx
  standIns _ _ he := .standIn he
  values i d v hd hv := by
    obtain hsource | ⟨name, hname⟩ := h.const hd
    · refine .source (mem_visits_of_child hsource (List.mem_append_right _ ?_))
      exact List.mem_map_of_mem (Option.mem_toList.mpr hv)
    · exact .native hname hv
  apart _ _ he hf := h.apart he hf
  members i m e hm he hid := by
    have hmember := h.member hm
    have hrange : m.info.id ≤ last := h.distinct.range _ hmember
    have hlast := h.last_lt
    cases he with
    | source he => cases h.distinct.unique _ he _ hmember hid
    | standIn he =>
      have hbetween := h.standIn_between he
      omega
    | native hd hvalue =>
      obtain ⟨l, hl, hnumbered⟩ := Builtin.exists_numbered_runtime config
      have hbase := (hnumbered.range _ _ _ (hl ▸ hd) hvalue).2.1
      omega
  consts _ _ _ _ hc hd hinfo := h.eq_of_info_eq hc hd hinfo

end Bound

/-- The expressions of a source that is bound to its end can be folded in any order and as often as
one likes. Each is found to have the same value, or none, as right after binding, or folding ends
early for the same reason; and what was folded before leaves everything as it is. -/
theorem folds_in_any_order (hg : Distinct g last) (h : ofGoal config path g last = (.ok (), c))
    {es : List Expr} (hes : ∀ f ∈ es, .expr f ∈ g.nodes.flatMap visits)
    (he : .expr e ∈ g.nodes.flatMap visits) :
    ((fold c.scopes e).run.run (foldAll c.scopes es c.notes)).1 =
        ((fold c.scopes e).run.run c.notes).1 ∧
      (e ∈ es → (foldAll c.scopes es c.notes).Alike
        ((fold c.scopes e).run.run (foldAll c.scopes es c.notes)).2) := by
  have henclosed := (bound_of_ofGoal hg h).enclosed
  have hsources : ∀ f ∈ es, Foldable config g c f := fun f hf => .source (hes f hf)
  exact ⟨fold_foldAll henclosed hsources (.source he), alike_foldAll henclosed hsources⟩

/-- Numbers that occur once each tell nodes apart. -/
theorem Distinct.of_nodup (hrange : ∀ x ∈ g.nodes.flatMap visits, x.info.id ≤ last)
    (hnodup : ((g.nodes.flatMap visits).map fun x => x.info.id).Nodup)
    (hroom : last + 1 + 3 * (g.nodes.flatMap visits).length ≤ Builtin.base) :
    Distinct g last :=
  ⟨hrange, fun _ hx _ hy => List.inj_on_of_nodup_map hnodup hx hy, hroom⟩

/-- The value of a constant that is declared with the help of another one. -/
def laterValue : Expr :=
  let node (id : Nat) : NodeInfo := { id, line := 1 }
  .binary (node 5) .lt (.ident (node 3) "A") (.int (node 4) 2 "2")

/-- The values of two constants, the later one first. -/
def constantValues : List Expr := [laterValue, .int { id := 1, line := 1 } 1 "1"]

/-- A program with the constants `A = 1` and `B = A < 2`. -/
def constantProgram : Goal :=
  let node (id : Nat) : NodeInfo := { id, line := 1 }
  let a : ConstDecl := { info := node 2, name := "A", value := some (.int (node 1) 1 "1") }
  let b : ConstDecl := { info := node 6, name := "B", value := some laterValue }
  .program
    { info := node 10, name := "P",
      block := ⟨node 9, [.const a, .const b], .compound (node 8) [.empty (node 7)]⟩ }

/-- Two constants with their values, and the body. -/
example : constantProgram.nodes.length = 10 := by decide +kernel

/-- The values of both constants are folded, and then that of the later one again. -/
theorem folds_in_any_order_later : Distinct constantProgram 10 ∧
    ∃ c, ofGoal {} ∅ constantProgram 10 = (.ok (), c) ∧
      (∀ f ∈ constantValues, .expr f ∈ constantProgram.nodes.flatMap visits) ∧
      .expr laterValue ∈ constantProgram.nodes.flatMap visits ∧
      ((fold c.scopes laterValue).run.run (foldAll c.scopes constantValues c.notes)).1 =
          ((fold c.scopes laterValue).run.run c.notes).1 ∧
      (laterValue ∈ constantValues → (foldAll c.scopes constantValues c.notes).Alike
        ((fold c.scopes laterValue).run.run (foldAll c.scopes constantValues c.notes)).2) := by
  have hdistinct : Distinct constantProgram 10 :=
    .of_nodup (by decide +kernel) (by decide +kernel) (by decide +kernel)
  have hlater : .expr laterValue ∈ constantProgram.nodes.flatMap visits :=
    List.mem_of_getElem? (i := 5) rfl
  have hfirst : .expr (.int { id := 1, line := 1 } 1 "1") ∈
      constantProgram.nodes.flatMap visits := List.mem_of_getElem? (i := 3) rfl
  have hes : ∀ f ∈ constantValues, .expr f ∈ constantProgram.nodes.flatMap visits :=
    List.forall_mem_cons.mpr ⟨hlater, List.forall_mem_singleton.mpr hfirst⟩
  have hends : (ofGoal {} ∅ constantProgram 10).1.isOk = true := by decide +kernel
  generalize hrun : ofGoal {} ∅ constantProgram 10 = r at hends
  obtain ⟨_ | _, c⟩ := r
  · cases hends
  · exact ⟨hdistinct, c, rfl, hes, hlater, folds_in_any_order hdistinct hrun hes hlater⟩

end Binding
end ObjectPascal
