import ObjectPascal.Grammar.Basic

/-!
The order of the kinds. The number of a kind is its place in the list of all of them, so numbers and
kinds determine each other; and with the nonterminals counted behind the terminals the same holds
for symbols.
-/

namespace ObjectPascal

theorem Kind.all_getElem? (k : Kind) : Kind.all[k.index]? = some k := by cases k <;> rfl

theorem Kind.mem_all (k : Kind) : k ∈ Kind.all := List.mem_of_getElem? k.all_getElem?

theorem Kind.index_lt (k : Kind) : k.index < Kind.count :=
  (List.getElem?_eq_some_iff.mp k.all_getElem?).1

theorem Kind.index_inj {k l : Kind} (h : k.index = l.index) : k = l := by
  have hk := k.all_getElem?
  rw [h, l.all_getElem?] at hk
  exact (Option.some.inj hk).symm

set_option maxRecDepth 20000 in
theorem Kind.map_index_all : Kind.all.map Kind.index = List.range Kind.count := by cbv

theorem Kind.all_nodup : Kind.all.Nodup := by
  have hrange : (Kind.all.map Kind.index).Nodup := by
    rw [map_index_all]
    exact List.nodup_range
  exact List.Pairwise.of_map Kind.index (fun k l hne h => hne (congrArg Kind.index h)) hrange

theorem Kind.exists_index {j : Nat} (hj : j < Kind.count) : ∃ k : Kind, k.index = j := by
  have hmem : j ∈ Kind.all.map Kind.index := by
    rw [map_index_all]
    exact List.mem_range.mpr hj
  obtain ⟨k, _, hk⟩ := List.mem_map.mp hmem
  exact ⟨k, hk⟩

theorem Symbol.index_inj {x y : Symbol} (h : x.index = y.index) : x = y := by
  cases x with
  | terminal k =>
    cases y with
    | terminal l => exact congrArg _ (Kind.index_inj h)
    | nonterminal n =>
      have := k.index_lt
      simp only [Symbol.index] at h
      omega
  | nonterminal m =>
    cases y with
    | terminal l =>
      have := l.index_lt
      simp only [Symbol.index] at h
      omega
    | nonterminal n =>
      simp only [Symbol.index] at h
      exact congrArg _ (by omega)

end ObjectPascal
