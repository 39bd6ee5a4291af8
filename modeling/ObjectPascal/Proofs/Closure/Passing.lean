import ObjectPascal.Proofs.Closure.Captures

/-!
What a routine must be handed to pass it on. A nested routine is reported with what its own
statements mention; that it calls a routine which needs more does not add to this.
-/

namespace ObjectPascal
namespace Closure

open Binding

variable {c : Binding} {g : Goal} {outer : List CallableDecl} {d e : CallableDecl} {n : Nested}
  {v : Decl}

/-- What a nested routine is reported to need. -/
theorem Settled.mem_accessed_iff {last : Nat} (h : Settled g last c)
    (hnames : ∀ x ∈ g.nodes, x.isIdent = false) (hd : Nests g outer d)
    (houter : outer ≠ []) : (∃ n ∈ analyze c g, n.routine = d ∧ v ∈ n.accessed) ↔
      (∃ f ∈ outer, f.Owns c.implicit v) ∧ Mentions c d v := by
  rw [← (h.captured hnames hd).mem v]
  constructor
  · rintro ⟨n, hn, hnd, hv⟩
    rwa [(h.mem_analyze hd hn hnd).2.1] at hv
  · intro hv
    obtain ⟨n, hn, hnd⟩ := h.exists_mem_analyze hnames hd houter (List.ne_nil_of_mem hv)
    exact ⟨n, hn, hnd, by rwa [(h.mem_analyze hd hn hnd).2.1]⟩

/-- A procedure that only calls a procedure of its own, which sets a variable `V`. -/
def callingRoutine : CallableDecl :=
  let node (id : Nat) : NodeInfo := { id, line := 1 }
  { info := node 16, name := "Middle", kind := .procedure,
    body := some ⟨node 15, [.callable settingRoutine],
      .compound (node 14) [.call (node 13) (.name (node 12) "Inner")]⟩ }

/-- A procedure around it with the parameter `V`. -/
def passingRoutine : CallableDecl :=
  let node (id : Nat) : NodeInfo := { id, line := 1 }
  let param : ParamDecl :=
    { info := node 5, name := "V", type := some (.named { info := node 4, name := "Integer" }) }
  { info := node 19, name := "Outer", kind := .procedure, params := some [param],
    body := some ⟨node 18, [.callable callingRoutine],
      .compound (node 17) [.call (node 3) (.name (node 2) "Middle")]⟩ }

/-- A program with these procedures. -/
def passingProgram : Goal :=
  let node (id : Nat) : NodeInfo := { id, line := 1 }
  .program { info := node 22, name := "P",
             block := ⟨node 21, [.callable passingRoutine], .compound (node 20) []⟩ }

/-- What the program holds. -/
example : passingProgram.nodes.length = 21 := by decide +kernel

theorem separate_passingProgram : Separate passingProgram 22 :=
  .of_watched (by decide +kernel) (by decide +kernel) (by decide +kernel) (by decide +kernel)
    (by decide +kernel)

theorem nests_calling : Nests passingProgram [passingRoutine] callingRoutine :=
  .inner (.top (List.mem_singleton_self _)) rfl (List.mem_singleton_self _)

theorem nests_setting : Nests passingProgram [passingRoutine, callingRoutine] settingRoutine :=
  .inner nests_calling rfl (List.mem_singleton_self _)

theorem named_passingProgram : ∀ x ∈ passingProgram.nodes, x.isIdent = false := by decide +kernel

theorem callingRoutine_owns_nothing : ¬callingRoutine.Owns [] v := by
  intro h
  cases v with
  | var v =>
    obtain ⟨b, hb, hv⟩ | hv := h
    · cases hb
      cases List.mem_singleton.mp hv
    · cases hv
  | param p => cases h
  | _ => cases h

/-- Only the innermost procedure is reported. -/
theorem ofGoal_passingProgram : ∃ c, ofGoal {} ∅ passingProgram 22 = (.ok (), c) ∧
    c.isClean = true ∧ c.implicit = [] ∧
    needs c [passingRoutine, callingRoutine] settingRoutine ≠ [] ∧
    ∀ m ∈ analyze c passingProgram, m.routine ≠ callingRoutine := by
  have hends : endsWith (ofGoal {} ∅ passingProgram 22) (fun c =>
      c.isClean && c.implicit.isEmpty &&
        !(needs c [passingRoutine, callingRoutine] settingRoutine).isEmpty &&
        (analyze c passingProgram).all (·.routine.name != "Middle")) = true := by decide +kernel
  obtain ⟨c, hrun, hends⟩ := exists_of_endsWith hends
  obtain ⟨hends, hall⟩ := Bool.and_eq_true_iff.mp hends
  obtain ⟨hends, hneeds⟩ := Bool.and_eq_true_iff.mp hends
  obtain ⟨hclean, himplicit⟩ := Bool.and_eq_true_iff.mp hends
  refine ⟨c, hrun, hclean, List.isEmpty_iff.mp himplicit, fun hnil => ?_, fun m hm hroutine => ?_⟩
  · rw [hnil] at hneeds
    cases hneeds
  · have hname := List.all_eq_true.mp hall m hm
    rw [hroutine] at hname
    cases hname

end Closure
end ObjectPascal
