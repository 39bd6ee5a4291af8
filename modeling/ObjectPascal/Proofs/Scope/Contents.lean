import ObjectPascal.Proofs.Binding.Homes

/-!
What the frames on a stack declare. A property of all declarations on the stack is kept by every
operation, as long as it holds of what is declared and of the members of types.
-/

namespace ObjectPascal

theorem Member.isValued_decl (m : Member) : m.decl.isValued = false := by
  cases m <;> rfl

namespace Frame

variable {A : Decl → Prop} {f g : Frame}

/-- All that a frame declares is of one kind. -/
def Holds (A : Decl → Prop) (f : Frame) : Prop := ∀ name d, f.find? name = some d → A d

theorem holds_empty (name : Text) (owner : Option Decl) : Holds A { name, owner } :=
  fun _ _ => nofun

theorem Holds.takes (h : f.Holds A) (hfg : f.Takes A g) : g.Holds A :=
  fun name d hd => (hfg name d hd).elim (h name d) id

theorem Holds.replace (h : f.Holds A) {d : Decl} (hd : A d) (name : Text) :
    (f.replace name d).Holds A := by
  cases hf : f.find? name with
  | some e => exact h.takes (takes_replace hf hd)
  | none =>
    have hadd : f.add? name d = some { f with entries := f.entries ++ [{ name, decl := d }] } := by
      rw [add?, hf]
    rw [Frame.replace, hadd]
    exact h.takes (takes_of_add? hadd hd)

end Frame

theorem CompositeDecl.holds_frame {A : Decl → Prop} (hA : ∀ d : Decl, d.isValued = false → A d)
    (c : CompositeDecl) (inherited : Bool) : (c.frame inherited).Holds A := by
  intro name d hd
  rw [find?_frame] at hd
  obtain ⟨m, -, rfl⟩ := Option.map_eq_some_iff.mp hd
  exact hA _ m.isValued_decl

namespace Scopes

variable {A : Decl → Prop} {s t : Scopes} {name : Text} {d : Decl}

/-- All that the frames on the stack declare is of one kind. -/
def Holds (A : Decl → Prop) (s : Scopes) : Prop := ∀ f ∈ s.frames, f.Holds A

theorem Holds.find? (h : s.Holds A) (hd : s.find? name = some d) : A d := by
  rw [find?_eq_findSome?] at hd
  obtain ⟨f, hf, hd⟩ := List.exists_of_findSome?_eq_some hd
  exact h f hf name d hd

theorem Holds.top (h : s.Holds A) : s.top.Holds A := by
  refine h _ ?_
  unfold Scopes.top frames
  cases s.inner with
  | nil => exact List.mem_singleton_self _
  | cons f rest => exact List.mem_cons_self

theorem Holds.withInner (h : s.Holds A) {inner : List Frame} (hinner : ∀ f ∈ inner, f.Holds A) :
    (s.withInner inner).Holds A := by
  intro f hf
  obtain hf | hf := List.mem_append.mp hf
  · exact hinner f hf
  · exact h f (List.mem_append_right _ hf)

theorem Holds.inner (h : s.Holds A) : ∀ f ∈ s.inner, f.Holds A :=
  fun f hf => h f (List.mem_append_left _ hf)

theorem Holds.enter (h : s.Holds A) (name : Text) (owner : Option Decl) :
    (s.enter name owner).Holds A :=
  h.withInner (List.forall_mem_cons.mpr ⟨Frame.holds_empty name owner, h.inner⟩)

theorem Holds.leave? (h : s.Holds A) {f : Frame} (ht : s.leave? = some (f, t)) : t.Holds A := by
  unfold Scopes.leave? at ht
  split at ht
  · cases ht
  · rename_i g rest hs
    cases ht
    exact h.withInner fun f hf => h.inner f (hs ▸ List.mem_cons_of_mem _ hf)

theorem Holds.unwindTo (h : s.Holds A) (depth : Nat) : (s.unwindTo depth).Holds A :=
  h.withInner fun f hf => h.inner f (List.mem_of_mem_drop hf)

theorem Holds.modifyFrame (h : s.Holds A) (i : Nat) {f : Frame → Frame}
    (hf : ∀ g ∈ s.frames, (f g).Holds A) : (s.modifyFrame i f).Holds A := by
  cases i with
  | zero =>
    intro g hg
    obtain hg | hg := List.mem_append.mp hg
    · exact h.inner g hg
    · cases List.mem_singleton.mp hg
      exact hf _ (List.mem_append_right _ (List.mem_singleton_self _))
  | succ i =>
    refine h.withInner fun g hg => ?_
    obtain ⟨k, hk⟩ := List.mem_iff_getElem?.mp hg
    rw [List.getElem?_modify] at hk
    split at hk
    · obtain ⟨g', hg', rfl⟩ := Option.map_eq_some_iff.mp hk
      exact hf g' (List.mem_append_left _ (List.mem_of_getElem? hg'))
    · rw [id_map'] at hk
      exact h.inner g (List.mem_of_getElem? hk)

theorem Holds.register (h : s.Holds A) (hd : A d) (ht : s.register name d = .ok t) : t.Holds A := by
  unfold Scopes.register at ht
  dsimp only at ht
  split at ht
  · cases ht
  · split at ht
    · cases ht
    · rename_i g hg
      cases ht
      refine h.modifyFrame _ fun _ _ => Frame.Holds.takes ?_ (Frame.takes_of_add? hg hd)
      cases hf : s.frame? (s.targetOf d) with
      | none => exact h.top
      | some f => exact h f (List.mem_reverse.mp (List.mem_of_getElem? hf))

theorem Holds.redeclare (h : s.Holds A) (hd : A d) (ht : s.redeclare name d = .ok t) :
    t.Holds A := by
  unfold Scopes.redeclare at ht
  split at ht
  · cases ht
  · cases ht
    exact h.modifyFrame _ fun g hg => (h g hg).replace hd name

variable (hA : ∀ d : Decl, d.isValued = false → A d)
include hA

theorem Holds.loadHeritage (h : s.Holds A) {type : Text} {k : Nat}
    (ht : s.loadHeritage type = .ok (t, k)) : t.Holds A := by
  obtain ⟨pushed, rfl, hpushed⟩ := frames_of_loadHeritage ht
  refine h.withInner fun f hf => ?_
  obtain hf | hf := List.mem_append.mp hf
  · obtain ⟨a, inherited, _, rfl, _⟩ := hpushed f hf
    exact a.holds_frame hA inherited
  · exact h.inner f hf

theorem Holds.enterMethod (h : s.Holds A) {type method : Text} {context : MethodContext}
    (ht : (s.enterMethod type method).run = some (.ok (t, context))) : t.Holds A := by
  obtain ⟨m, -, ht⟩ := Search.bind_eq_ok.1 ht
  obtain ⟨⟨u, k⟩, hu, ht⟩ := Search.bind_eq_ok.1 ht
  cases ht
  exact (h.loadHeritage hA (Option.some.inj hu)).enter _ _

omit hA in
theorem Holds.leaveMethod (h : s.Holds A) (context : MethodContext) :
    (s.leaveMethod context).2.Holds A := by
  unfold Scopes.leaveMethod
  split
  · exact h
  · split
    · exact h
    · rename_i f u hu
      split
      · exact (h.leave? hu).unwindTo _
      · exact h.leave? hu

end Scopes
end ObjectPascal
