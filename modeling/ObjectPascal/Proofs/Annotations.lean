import Mathlib.Logic.Function.Iterate
import ObjectPascal.Annotations

/-!
What is recorded about nodes. A record is kept under the number of its node, so a change is seen
under that number and under no other. Numbers for new nodes are handed out one after the other.
-/

namespace ObjectPascal.Annotations

variable {a b : Annotations} {n : Node} {f : Annotation → Annotation}

/-- A change is made to every node that has a number. -/
theorem exists_update (a : Annotations) (hn : n.info.id ≠ 0) (f : Annotation → Annotation) :
    ∃ b, a.update n f = .ok b := by
  rw [update, if_neg hn]
  exact ⟨_, rfl⟩

/-- The change is seen under the number of the node, and under no other. -/
theorem get?_of_update (h : a.update n f = .ok b) :
    b.substitutes = a.substitutes ∧ ∀ m : NodeInfo, b.get? m =
      if n.info.id = m.id then some (f ((a.get? m).getD {})) else a.get? m := by
  unfold update at h
  split at h
  · cases h
  · cases h
    refine ⟨rfl, fun m => ?_⟩
    rw [get?, Std.TreeMap.getElem?_insert]
    by_cases hm : n.info.id = m.id
    · simp [hm, get?]
    · have hne : compare n.info.id m.id ≠ .eq := fun heq => hm (Std.LawfulEqCmp.eq_of_compare heq)
      simp [hm, hne, get?]

theorem next_of_update (h : a.update n f = .ok b) : b.next = a.next := by
  unfold update at h
  split at h
  · cases h
  · cases h
    rfl

/-- The declaration that a node refers to changes with what is known about this node only. -/
theorem declOf_of_update (h : a.update n f = .ok b) {m : NodeInfo} (hm : n.info.id ≠ m.id) :
    b.declOf m = a.declOf m := by
  rw [declOf, declOf, (get?_of_update h).2, if_neg hm]

/-- A change that is not about declarations leaves them as they are. -/
theorem declOf_of_update_same (h : a.update n f = .ok b) (hf : ∀ an, (f an).decl = an.decl)
    (m : NodeInfo) : b.declOf m = a.declOf m := by
  rw [declOf, declOf, (get?_of_update h).2]
  split
  · rw [Option.bind_some, hf]
    cases a.get? m <;> rfl
  · rfl

/-- A change that is not about marks leaves them as they are. -/
theorem isNonLocal_of_update_same (h : a.update n f = .ok b)
    (hf : ∀ an, (f an).nonLocal = an.nonLocal) (m : NodeInfo) :
    b.isNonLocal m = a.isNonLocal m := by
  rw [isNonLocal, isNonLocal, (get?_of_update h).2]
  split
  · rw [Option.map_some, hf]
    cases a.get? m <;> rfl
  · rfl

theorem declOf_of_bind {d : Decl} (h : a.bind n d = .ok b) : b.declOf n.info = some d := by
  rw [declOf, (get?_of_update h).2, if_pos rfl]
  rfl

theorem isNonLocal_of_mark (h : a.markNonLocal n = .ok b) : b.isNonLocal n.info = true := by
  rw [isNonLocal, (get?_of_update h).2, if_pos rfl]
  rfl

/-- A value is recorded with its type as any other change. -/
theorem update_of_setConst {type : Option TypeExpr} {v : Constant}
    (h : a.setConst n type v = .ok b) :
    a.update n (fun an => { an with type, const := some v }) = .ok b := by
  unfold setConst at h
  split at h
  · exact h
  · cases h

/-- What is known about a node stays: the declaration it refers to, its mark, and its value with its
type if it has one. -/
structure SameAt (a b : Annotations) (i : NodeInfo) : Prop where
  declOf : b.declOf i = a.declOf i
  nonLocal : b.isNonLocal i = a.isNonLocal i
  kept : ∀ v, a.valueOf i = some v → b.valueOf i = some v ∧ b.typeOf i = a.typeOf i

namespace SameAt

variable {c : Annotations} {i : NodeInfo}

theorem of_get? (h : b.get? i = a.get? i) : a.SameAt b i := by
  refine ⟨?_, ?_, fun v hv => ⟨?_, ?_⟩⟩
  · rw [Annotations.declOf, Annotations.declOf, h]
  · rw [isNonLocal, isNonLocal, h]
  · rwa [valueOf, h]
  · rw [typeOf, typeOf, h]

theorem refl (a : Annotations) (i : NodeInfo) : a.SameAt a i := of_get? rfl

theorem trans (h : a.SameAt b i) (k : b.SameAt c i) : a.SameAt c i := by
  refine ⟨k.declOf.trans h.declOf, k.nonLocal.trans h.nonLocal, fun v hv => ?_⟩
  obtain ⟨hb, htype⟩ := h.kept v hv
  obtain ⟨hc, htype'⟩ := k.kept v hb
  exact ⟨hc, htype'.trans htype⟩

/-- A change of what is known about one node is none of what is known about another. -/
theorem of_update (h : a.update n f = .ok b) (hi : n.info.id ≠ i.id) : a.SameAt b i :=
  of_get? (by rw [(get?_of_update h).2, if_neg hi])

end SameAt

/-- A new stand-in is seen under the number of its expression. -/
theorem getElem?_substitute (a : Annotations) (e r : Expr) (k : Nat) :
    (a.substitute e r).substitutes[k]? = if e.info.id = k then some r else a.substitutes[k]? := by
  rw [substitute, Std.TreeMap.getElem?_insert]
  by_cases hk : e.info.id = k
  · simp [hk]
  · have hne : compare e.info.id k ≠ .eq := fun heq => hk (Std.LawfulEqCmp.eq_of_compare heq)
    simp [hk, hne]

/-- The numbers handed out behind the last one of a tree follow it one by one. -/
theorem newId_iterate {last : Nat} (origin : Nat) (k : Nat) (h : last + 1 + k < numberCount) :
    ((fun a => a.newId.2)^[k] (forTree last origin)).newId.1 = last + 1 + k := by
  change ((fun a => a.newId.2)^[k] (forTree last origin)).next = last + 1 + k
  induction k with
  | zero => exact Nat.mod_eq_of_lt h
  | succ k ih =>
    rw [Function.iterate_succ_apply']
    have hk := ih (by omega)
    change (_ + 1) % numberCount = _
    rw [hk]
    exact Nat.mod_eq_of_lt h

end ObjectPascal.Annotations
