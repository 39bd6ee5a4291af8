import ObjectPascal.Proofs.Binding.Accounts
import ObjectPascal.Proofs.Binding.Marks

/-!
What is found out about single nodes of a tree stays true, as long as no other node has their
numbers. It is stated as a promise, which a step of binding honours if one of its parts does; so it
is followed down to the part of the tree that it is about.
-/

namespace ObjectPascal

mutual

/-- A routine with those inside it. -/
def CallableDecl.routines : CallableDecl → List CallableDecl
  | ⟨i, name, owner, kind, classMethod, params, result, directives, body, forward, external,
      visibility, builtin⟩ =>
    ⟨i, name, owner, kind, classMethod, params, result, directives, body, forward, external,
      visibility, builtin⟩ :: blockRoutines body

/-- The routines in a block that may be absent. -/
def blockRoutines : Option Block → List CallableDecl
  | none => []
  | some ⟨_, decls, _⟩ => declsRoutines decls

/-- The routines among declarations. -/
def declsRoutines : List Decl → List CallableDecl
  | [] => []
  | .callable d :: ds => d.routines ++ declsRoutines ds
  | .composite ⟨_, _, _, _, members, _⟩ :: ds => membersRoutines members ++ declsRoutines ds
  | .type _ :: ds | .var _ :: ds | .const _ :: ds | .param _ :: ds | .property _ :: ds
  | .label _ :: ds | .unit _ :: ds | .exported _ :: ds | .enumMember _ :: ds => declsRoutines ds

/-- The routines among members. -/
def membersRoutines : List Member → List CallableDecl
  | [] => []
  | .callable d :: members => d.routines ++ membersRoutines members
  | .var _ :: members | .property _ :: members => membersRoutines members

end

theorem CallableDecl.mem_routines (d : CallableDecl) : d ∈ d.routines := by
  cases d
  exact List.mem_cons_self

/-- The routines of a source. -/
def Goal.routines : Goal → List CallableDecl
  | .program g => blockRoutines (some g.block)
  | .library g => blockRoutines (some g.block)
  | .unit g => declsRoutines g.publicDecls ++ declsRoutines g.ownDecls
  | .package _ => []

namespace Binding

/-! What stays true. -/

/-- A number is that of at most one of some nodes. -/
def Once (k : Nat) (ns : List Node) : Prop := ns.countP (·.info.id == k) ≤ 1

instance (k : Nat) (ns : List Node) : Decidable (Once k ns) := inferInstanceAs (Decidable (_ ≤ 1))

/-- A number is that of one of some nodes. -/
def Held (k : Nat) (ns : List Node) : Prop := ∃ x ∈ ns, x.info.id = k

namespace Once

variable {k : Nat} {ns ns' : List Node}

theorem subperm (h : Once k ns) (hns : ns'.Subperm ns) : Once k ns' :=
  Nat.le_trans (hns.countP_le _) h

theorem left (h : Once k (ns ++ ns')) : Once k ns :=
  h.subperm (List.sublist_append_left _ _).subperm

theorem right (h : Once k (ns ++ ns')) : Once k ns' :=
  h.subperm (List.sublist_append_right _ _).subperm

/-- A number of one part is no number of the other. -/
theorem not_held (h : Once k (ns ++ ns')) (hk : Held k ns) : ¬Held k ns' := by
  have hpos {l : List Node} (hl : Held k l) : 0 < l.countP (·.info.id == k) := by
    obtain ⟨x, hx, rfl⟩ := hl
    exact List.countP_pos_iff.mpr ⟨x, hx, beq_self_eq_true _⟩
  intro hk'
  have hfirst := hpos hk
  have hsecond := hpos hk'
  rw [Once, List.countP_append] at h
  omega

end Once

/-- Between two states nothing is changed about nodes of a tree with the numbers `keys`, nor about
nodes that were made before; `last` is the last number in the tree. -/
structure Passes (last : Nat) (keys : List Nat) (b c : Binding) : Prop where
  inTree : ∀ k ∈ keys, k ≤ last
  beyond : last < b.notes.next
  next : b.notes.next ≤ c.notes.next
  substitutes : ∀ k, k ∈ keys ∨ last < k → c.notes.substitutes[k]? = b.notes.substitutes[k]?
  same : ∀ i : NodeInfo, i.id ∈ keys ∨ last < i.id ∧ i.id < b.notes.next →
    b.notes.SameAt c.notes i
  implicit : b.implicit ⊆ c.implicit
  recent : ∀ p ∈ c.implicit, p ∈ b.implicit ∨ b.notes.next ≤ p.1.info.id
  path : c.path = b.path
  errors : ∀ f ∈ b.errors, f ∈ c.errors

section

variable {last : Nat} {keys : List Nat} {b c : Binding} (hkeys : ∀ k ∈ keys, k ≤ last)
include hkeys

/-- Scopes do not matter. -/
theorem Passes.rescoped (hlast : last < b.notes.next) (s t : Scopes) :
    Passes last keys { b with scopes := s } { b with scopes := t } :=
  ⟨hkeys, hlast, Nat.le_refl _, fun _ _ => rfl, fun _ _ => .refl _ _, List.Subset.refl _,
    fun _ h => .inl h, rfl, fun _ h => h⟩

/-- Which routines are being bound does not matter. -/
theorem Passes.rerouted (hlast : last < b.notes.next) (ρ : List Nat) :
    Passes last keys b { b with routines := ρ } :=
  ⟨hkeys, hlast, Nat.le_refl _, fun _ _ => rfl, fun _ _ => .refl _ _, List.Subset.refl _,
    fun _ h => .inl h, rfl, fun _ h => h⟩

theorem Touches.passes {r : Nat} {ns : List Node} (h : Touches b.notes.next r ns b c)
    (hlast : last < b.notes.next) (hns : ∀ x ∈ ns, x.info.id ≤ last)
    (hfree : ∀ k ∈ keys, ¬Held k ns) : Passes last keys b c := by
  have hother {k : Nat} (hk : k ∈ keys ∨ last < k) : ∀ x ∈ ns, x.info.id ≠ k := by
    rintro x hx rfl
    obtain hk | hk := hk
    · exact hfree _ hk ⟨x, hx, rfl⟩
    · exact absurd (hns x hx) (by omega)
  have hbelow {k : Nat} (hk : k ∈ keys ∨ last < k ∧ k < b.notes.next) : k < b.notes.next :=
    hk.elim (fun hk => Nat.lt_of_le_of_lt (hkeys k hk) hlast) And.right
  exact ⟨hkeys, hlast, h.next, fun k hk => h.substitutes k (hother hk),
    fun i hi => h.same i (hbelow hi) (hother (hi.imp id And.left)), h.implicit,
    fun p hp => (h.recent p hp).imp id And.left, h.path, h.errors⟩

/-- A step that makes nodes only. -/
theorem Touches.passes_made {r : Nat} (h : Touches b.notes.next r [] b c)
    (hlast : last < b.notes.next) : Passes last keys b c :=
  h.passes hkeys hlast (List.forall_mem_nil _) fun _ _ ⟨_, hx, _⟩ => List.not_mem_nil hx

end

theorem Skipped.passes {last : Nat} {keys : List Nat} {b c : Binding} {f : CallableDecl}
    (h : Skipped b f) (hbc : Passes last keys b c) : Skipped c f := by
  obtain ⟨howner, hbody, s, e, he, hfault, herror⟩ := h
  refine ⟨howner, hbody, s, e, he, hfault, ?_⟩
  rw [hbc.path]
  exact hbc.errors _ herror

/-- Something that comes true when the nodes with the numbers `keys` are bound, and that stays true.
It may need something that is true before. -/
structure Promise (last : Nat) where
  keys : List Nat
  needs : Binding → Prop
  holds : Binding → Prop
  needs_later {b c : Binding} : Passes last keys b c → needs b → needs c
  holds_later {b c : Binding} : Passes last keys b c → holds b → holds c

/-- There are numbers for all nodes that are made for `ns`, and nothing stands in for nodes that
were made. -/
structure Ready (last : Nat) (ns : List Node) (a : Annotations) : Prop where
  next : last < a.next
  room : a.next + 3 * ns.length < Annotations.numberCount
  numbers : ∀ x ∈ ns, x.info.id ≤ last
  fresh : ∀ k, last < k → a.substitutes[k]? = none

namespace Ready

variable {last n r : Nat} {ns ns' : List Node} {b c : Binding}

theorem subperm {a : Annotations} (h : Ready last ns a) (hns : ns'.Subperm ns) :
    Ready last ns' a := by
  have hroom := h.room
  have hlength := hns.length_le
  exact ⟨h.next, by omega, fun x hx => h.numbers x (hns.subset hx), h.fresh⟩

/-- What was used up is paid by the nodes that were bound. -/
theorem later (h : Ready last (ns ++ ns') b.notes) (hbc : Touches n r ns b c)
    (hr : r ≤ 3 * ns.length) : Ready last ns' c.notes := by
  have hroom := h.room
  have hnext := h.next
  have hgrows := hbc.next
  have hmade := hbc.made
  rw [List.length_append] at hroom
  refine ⟨by omega, by omega, fun x hx => h.numbers x (List.mem_append_right _ hx), fun k hk => ?_⟩
  rw [hbc.substitutes k fun x hx => ?_]
  · exact h.fresh k hk
  · have hle := h.numbers x (List.mem_append_left _ hx)
    omega

end Ready

/-- What is true of the frame on top as long as nothing happens but that names are added to it. -/
class Lasting (C : Binding → Prop) : Prop where
  lasts {n r : Nat} {ns : List Node} {b c : Binding} :
    b.scopes.FirmTo c.scopes → Touches n r ns b c → C b → C c

instance : Lasting fun _ => True := ⟨fun _ _ h => h⟩

/-- In a frame where `C` is true, a step about `ns` makes a promise come true. -/
structure Honours {last : Nat} (C : Binding → Prop) (p : Promise last) (m : Bind Unit)
    (ns : List Node) : Prop where
  marks : ∀ n, Marks Scopes.FirmTo n m ns
  held : ∀ k ∈ p.keys, Held k ns
  ends : ∀ b, b.scopes.FirmTo b.scopes → Ready last ns b.notes → (∀ k ∈ p.keys, Once k ns) →
    C b → p.needs b → Ends m b (fun _ c => p.holds c) fun _ _ => True

namespace Honours

variable {last : Nat} {C : Binding → Prop} {p : Promise last} {ns ns' : List Node}

theorem inTree {m : Bind Unit} {a : Annotations} (h : Honours C p m ns) (hready : Ready last ns a) :
    ∀ k ∈ p.keys, k ≤ last := by
  intro k hk
  obtain ⟨x, hx, rfl⟩ := h.held k hk
  exact hready.numbers x hx

theorem subperm {m : Bind Unit} (h : Honours C p m ns) (hns : ns.Subperm ns') :
    Honours C p m ns' where
  marks n := (h.marks n).mono (Nat.mul_le_mul_left 3 hns.length_le) hns.subset
  held k hk := by
    obtain ⟨x, hx, hid⟩ := h.held k hk
    exact ⟨x, hns.subset hx, hid⟩
  ends b hR hready honce := h.ends b hR (hready.subperm hns) fun k hk => (honce k hk).subperm hns

theorem of_eq {m : Bind Unit} (h : Honours C p m ns) (hns : ns' = ns) : Honours C p m ns' :=
  hns ▸ h

theorem node {m : Bind Unit} {x : Node} (h : Honours C p m ns) : Honours C p m (x :: ns) :=
  h.subperm (List.sublist_cons_self x ns).subperm

/-- A step that breaks off keeps every promise. -/
theorem throw (e : Breach) (h : ∀ k ∈ p.keys, Held k ns) : Honours C p (throw e) ns :=
  ⟨fun _ => Marks.throw e, h, fun _ _ _ _ _ _ => trivial⟩

/-- The first of two steps makes a promise come true. -/
theorem left {m k : Bind Unit} (hm : Honours C p m ns) (hk : ∀ n, Marks Scopes.FirmTo n k ns') :
    Honours C p (do m; k) (ns ++ ns') where
  marks n := (hm.marks n).bind fun _ => hk n
  held i hi := by
    obtain ⟨x, hx, hid⟩ := hm.held i hi
    exact ⟨x, List.mem_append_left _ hx, hid⟩
  ends b hR hready honce hC hneeds := by
    have hroom := hready.room
    rw [List.length_append] at hroom
    rw [Ends.bind_iff]
    have hfirst := hm.ends b hR (hready.subperm (List.sublist_append_left _ _).subperm)
      (fun i hi => (honce i hi).left) hC hneeds
    have hmarked := hm.marks _ b hR (Nat.le_refl _) (by omega)
    refine (hfirst.and hmarked).mono (fun _ c hc => ?_) fun _ _ h => trivial
    obtain ⟨hholds, hfirm, htouch⟩ := hc
    have hlater := hready.later htouch (Nat.le_refl _)
    refine (hk _ c hfirm.reached (Nat.le_refl _) hlater.room).mono (fun _ d hd => ?_)
      fun _ _ h => h
    have hpass : Passes last p.keys c d := hd.2.passes
      (hm.inTree (hready.subperm (List.sublist_append_left _ _).subperm)) hlater.next
      hlater.numbers fun i hi => (honce i hi).not_held (hm.held i hi)
    exact p.holds_later hpass hholds

variable [Lasting C]

/-- The second of two steps makes a promise come true. -/
theorem right {α : Type} [Nonempty α] {m : Bind α} {k : α → Bind Unit}
    (hm : ∀ n, Marks Scopes.FirmTo n m ns) (hk : ∀ a, Honours C p (k a) ns') :
    Honours C p (m >>= k) (ns ++ ns') where
  marks n := (hm n).bind fun a => (hk a).marks n
  held i hi := by
    obtain ⟨x, hx, hid⟩ := (hk (Classical.arbitrary α)).held i hi
    exact ⟨x, List.mem_append_right _ hx, hid⟩
  ends b hR hready honce hC hneeds := by
    have hroom := hready.room
    rw [List.length_append] at hroom
    rw [Ends.bind_iff]
    refine (hm _ b hR (Nat.le_refl _) (by omega)).mono (fun a c hc => ?_) fun _ _ h => h
    obtain ⟨hfirm, htouch⟩ := hc
    have hpass : Passes last p.keys b c := htouch.passes
      ((hk a).inTree (hready.subperm (List.sublist_append_right _ _).subperm)) hready.next
      (fun x hx => hready.numbers x (List.mem_append_left _ hx))
      fun i hi hleft => (honce i hi).not_held hleft ((hk a).held i hi)
    exact (hk a).ends c hfirm.reached (hready.later htouch (Nat.le_refl _))
      (fun i hi => (honce i hi).right) (Lasting.lasts hfirm htouch hC)
      (p.needs_later hpass hneeds)

/-- One of two steps makes a promise come true. -/
theorem either {m k : Bind Unit} {x y : Prop} (h : x ∨ y) (hm : x → Honours C p m ns)
    (hk : y → Honours C p k ns') (hmarks : ∀ n, Marks Scopes.FirmTo n m ns)
    (kmarks : ∀ n, Marks Scopes.FirmTo n k ns') : Honours C p (do m; k) (ns ++ ns') :=
  h.elim (fun hx => (hm hx).left kmarks) fun hy => right hmarks fun _ => hk hy

/-- A handler without a variable has no frame of its own. -/
theorem inHandler (h : Handler) (hvar : h.var.isEmpty = true) {body : Bind Unit}
    (hbody : Honours C p body ns) : Honours C p (inHandler h.info h.var h.type body)
      (.handler h :: .type (.named h.type) :: ns) := by
  unfold Binding.inHandler
  simp only [hvar, if_true]
  exact node (right (fun _ => (Marks.resolveType h.type).lift) fun _ => hbody)

end Honours

/-- Scopes do not matter. -/
theorem Promise.of_scopes {last : Nat} (p : Promise last) {c : Binding} {s : Scopes}
    (hkeys : ∀ k ∈ p.keys, k ≤ last) (hnext : last < c.notes.next)
    (h : p.holds { c with scopes := s }) : p.holds c :=
  p.holds_later (b := { c with scopes := s }) (.rescoped hkeys hnext s c.scopes) h

/-! Frames that are entered and left. -/

namespace Honours

variable {last : Nat} {C C' : Binding → Prop} {p : Promise last} {ns : List Node}
  {d : CallableDecl} {inside : Bind Unit}

/-- Nothing is met besides the walk. -/
theorem walked {p : Promise last} (h : Honours C p m ns) : Honours C p m (ns.flatMap visits) :=
  h.subperm (sublist_visits ns).subperm

/-- In the frame of a composite. -/
theorem framed {p : Promise last} (name : Text) (owner : Option Decl)
    (h : Honours (fun _ => True) p m ns) :
    Honours (fun _ => True) p (do enter name owner; m; leave) ns where
  marks n := Marks.framed name owner (h.marks n)
  held := h.held
  ends b hR hready honce _ hneeds := by
    let inner : Binding := { b with scopes := b.scopes.enter name owner }
    have hfirm : inner.scopes.FirmTo inner.scopes := .refl (by simp [inner, Scopes.enter])
    have hneeds : p.needs inner :=
      p.needs_later (.rescoped (h.inTree hready) hready.next b.scopes _) hneeds
    have hholds := h.ends inner hfirm hready honce trivial hneeds
    have hmarked := h.marks _ inner hfirm (Nat.le_refl _) hready.room
    have hends := framed_ends (fun c => p.holds c ∧ last < c.notes.next) (b := b) name owner
      ((hholds.and hmarked).mono (fun _ e he => ⟨he.2.1, he.1,
        Nat.lt_of_lt_of_le hready.next he.2.2.next⟩) fun _ _ _ => trivial)
    refine hends.mono (fun _ c hc => ?_) fun _ _ h => h
    obtain ⟨-, s, hholds, hnext⟩ := hc
    exact p.of_scopes (h.inTree hready) hnext hholds

/-- The variable for the result is declared before the body is bound. -/
theorem inBody (x : Node) {body : Bind Unit}
    (hresult : ∀ b, C b → Ends (declareResult d) b
      (fun _ c => C' { c with routines := (c.scopes.depth - 1) :: c.routines }) fun _ _ => True)
    (h : Honours C' p body ns) : Honours C p (inBody d body) (x :: ns) where
  marks n := Marks.inBody d x (h.marks n)
  held k hk := by
    obtain ⟨y, hy, hid⟩ := h.held k hk
    exact ⟨y, List.mem_cons_of_mem x hy, hid⟩
  ends b hR hready honce hC hneeds := by
    have hroom := hready.room
    rw [List.length_cons] at hroom
    have hself := List.sublist_cons_self x ns
    have hkeys := h.inTree (hready.subperm hself.subperm)
    unfold Binding.inBody
    rw [Ends.bind_iff]
    have hdeclared := (Marks.declareResult d) b hR (Nat.le_refl _) (by omega)
    refine ((hresult b hC).and hdeclared).mono (fun _ c hc => ?_) fun _ _ _ => trivial
    obtain ⟨hC', hfirm, htouch⟩ := hc
    have hpaid := htouch.mono (Nat.le_refl _) (Nat.le_refl 1) (List.nil_subset [x])
    have hlater : Ready last ns c.notes := hready.later hpaid (by simp)
    have hneeds := p.needs_later (htouch.passes_made hkeys hready.next) hneeds
    rw [Ends.bind_iff, getScopes_iff, Ends.bind_iff, Ends.modify_iff, Ends.bind_iff]
    let inner : Binding := { c with routines := (c.scopes.depth - 1) :: c.routines }
    have hbody := h.ends inner hfirm.reached hlater
      (fun k hk => (honce k hk).subperm hself.subperm) hC'
      (p.needs_later (.rerouted hkeys hlater.next _) hneeds)
    have hmarked := h.marks _ inner hfirm.reached (Nat.le_refl _) hlater.room
    refine (hbody.and hmarked).mono (fun _ e he => ?_) fun _ _ _ => trivial
    have hnext : last < e.notes.next := Nat.lt_of_lt_of_le hlater.next he.2.2.next
    exact p.holds_later (.rerouted hkeys hnext _) he.1

/-- A promise that is honoured in the frame of a routine. -/
theorem ends_inside (h : Honours C p inside ns) {b c : Binding} (hready : Ready last ns b.notes)
    (honce : ∀ k ∈ p.keys, Once k ns) (hneeds : p.needs b) (hc : Inside b.notes.next b d c)
    (hC : C c) : Ends inside c (fun _ e => c.scopes.FirmTo e.scopes ∧
      p.holds e ∧ last < e.notes.next) fun _ _ => True := by
  obtain ⟨⟨u, -, hscopes⟩, htouch⟩ := hc
  have hfirm : c.scopes.FirmTo c.scopes := .refl (by simp [hscopes, Scopes.enter])
  have hall : Ready last ([] ++ ns) b.notes := hready
  have hc : Ready last ns c.notes := hall.later htouch (Nat.le_refl _)
  have hpass : Passes last p.keys b c := htouch.passes_made (h.inTree hready) hready.next
  have hholds := h.ends c hfirm hc honce hC (p.needs_later hpass hneeds)
  refine (hholds.and (h.marks _ c hfirm (Nat.le_refl _) hc.room)).mono (fun _ e he => ?_)
    fun _ _ _ => trivial
  exact ⟨he.2.1, he.1, Nat.lt_of_lt_of_le hc.next he.2.2.next⟩

/-- A promise is honoured in the frame of a routine that is no method with a body. -/
theorem inRoutine (hC : ∀ b c, Inside b.notes.next b d c → C c) (h : Honours C p inside ns) :
    Honours (fun _ => True) p (inRoutine d inside) ns where
  marks n := Marks.inRoutine d (h.marks n)
  held := h.held
  ends b hR hready honce _ hneeds := by
    have hends := inRoutine_ends (fun c => p.holds c ∧ last < c.notes.next) b.notes.next (d := d)
      hR.growsTo.inner_ne_nil fun c hc => h.ends_inside hready honce hneeds hc (hC b c hc)
    refine hends.mono (fun _ c hc => ?_) fun _ _ h => h
    obtain ⟨-, s, hholds, hnext⟩ := hc
    exact p.of_scopes (h.inTree hready) hnext hholds

/-- A promise is honoured for a method with a body, wherever it is bound. -/
theorem inMethod (howner : d.owner.isEmpty = false) (hbody : d.body.isSome = true)
    (hskipped : ∀ c, Skipped c d → p.holds c) (hC : ∀ b c, Inside b.notes.next b d c → C c)
    (h : ∀ n, Marks Scopes.FirmTo n inside ns)
    (hbare : Honours C p (do declareSelf d; inside) (.decl (.callable d) :: ns))
    (hamong : ∀ b s context,
      (b.scopes.enterMethod d.owner d.name).run = some (.ok (s, context)) →
      Ready last (.decl (.callable d) :: ns) b.notes →
      (∀ k ∈ p.keys, Once k (.decl (.callable d) :: ns)) → p.needs b →
      Ends (do bindHeading d s.top.owner; declareSelf d; inside) { b with scopes := s }
        (fun _ c => p.holds c) fun _ _ => True) :
    Honours (fun _ => True) p (inMethod d inside) (.decl (.callable d) :: ns) where
  marks n := Marks.inMethod d (h n)
  held := hbare.held
  ends b hR hready honce _ hneeds := by
    have hends := inMethod_ends (d := d) (m := inside)
      (fun c => p.holds c ∧ last < c.notes.next) b.notes.next hR.growsTo.inner_ne_nil
      (fun e he hfault => ⟨hskipped _ ⟨howner, hbody, b.scopes, e, he, hfault,
        Array.mem_push_self⟩, hready.next⟩)
      (fun c hc => hbare.ends_inside hready honce hneeds hc (hC b c hc)) ?_
    · refine hends.mono (fun _ c hc => ?_) fun _ _ h => h
      obtain ⟨-, s, hholds, hnext⟩ := hc
      exact p.of_scopes (hbare.inTree hready) hnext hholds
    · intro s context hs
      have hfirm : s.FirmTo s := .refl fun hnil => by
        have hlength := (Scopes.enterMethod_top hs).1
        simp [hnil] at hlength
      have hmarks := (Marks.headingBound d s.top.owner).bind fun _ => h b.notes.next
      rw [bind_assoc] at hmarks
      have hmarked := hmarks { b with scopes := s } hfirm (Nat.le_refl _) hready.room
      refine ((hamong b s context hs hready honce hneeds).and hmarked).mono (fun _ e he => ?_)
        fun _ _ _ => trivial
      exact ⟨he.2.1, he.1, Nat.lt_of_lt_of_le hready.next he.2.2.next⟩

/-- A promise for the body of a routine is one for all that is bound of it. -/
theorem insideOf [Lasting C] {p : Promise last} (h : Honours C p (visitBody d d.body)
      ((optBlockNodes d.body).flatMap visits)) :
    Honours C p (insideOf d) ((boundOf d).flatMap visits) := by
  rw [boundOf, List.flatMap_append, List.flatMap_append]
  exact right (fun _ => Marks.walked (Marks.visitOptParams d.params)) fun _ =>
    right (fun _ => Marks.walked (Marks.visitOptType d.result)) fun _ => h

/-- A promise for something inside a routine is honoured unless the routine is skipped. -/
theorem nested {p : Promise last} (hskipped : ∀ c, Skipped c d → p.holds c)
    (h : Honours (fun _ => True) p (visitBody d d.body) ((optBlockNodes d.body).flatMap visits)) :
    Honours (fun _ => True) p (visitCallable d) (d.nodes.flatMap visits) := by
  have hinside := h.insideOf
  refine subperm ?_ ((sublist_callable d).flatMap visits).subperm
  rw [List.flatMap_cons, visitCallable_eq]
  split
  · rename_i hmethod
    obtain ⟨howner, hbody⟩ := Bool.and_eq_true_iff.mp hmethod
    refine inMethod (by simpa using howner) hbody hskipped (fun _ _ _ => trivial) hinside.marks
      (right (fun _ => Marks.selfDeclared d) fun _ => hinside)
      fun b s context hs hready honce hneeds => ?_
    have hamong := right (fun _ => Marks.headingBound d s.top.owner) fun _ => hinside
    rw [bind_assoc] at hamong
    have hfirm : s.FirmTo s := .refl fun hnil => by
      have hlength := (Scopes.enterMethod_top hs).1
      simp [hnil] at hlength
    have hneeds : p.needs { b with scopes := s } :=
      p.needs_later (.rescoped (hamong.inTree hready) hready.next b.scopes s) hneeds
    exact hamong.ends { b with scopes := s } hfirm hready honce trivial hneeds
  · exact (inRoutine (fun _ _ _ => trivial) hinside).node

/-! Declarations. -/

section Everywhere

variable {fs : List CallableDecl} {f : CallableDecl}

mutual

/-- What is promised for a routine is honoured wherever it stands, unless a method around it is
skipped. -/
theorem visitCallable
    (hown : Honours (fun _ => True) p (visitCallable f) (f.nodes.flatMap visits))
    (hskipped : ∀ d ∈ fs, f ∈ d.routines → ∀ c, Skipped c d → p.holds c) :
    (d : CallableDecl) → d.routines ⊆ fs → f ∈ d.routines →
      Honours (fun _ => True) p (visitCallable d) (d.nodes.flatMap visits)
  | ⟨i, name, owner, kind, classMethod, params, result, directives, body, forward, external,
      visibility, builtin⟩, hfs, hd => by
    let d : CallableDecl := ⟨i, name, owner, kind, classMethod, params, result, directives, body,
      forward, external, visibility, builtin⟩
    obtain rfl | hbody := List.mem_cons.mp hd
    · exact hown
    · exact nested (d := d) (hskipped d (hfs d.mem_routines) hd)
        (visitBody hown hskipped d body (List.subset_of_cons_subset hfs) hbody)

theorem visitBody
    (hown : Honours (fun _ => True) p (Binding.visitCallable f) (f.nodes.flatMap visits))
    (hskipped : ∀ d ∈ fs, f ∈ d.routines → ∀ c, Skipped c d → p.holds c) (d : CallableDecl) :
    (body : Option Block) → blockRoutines body ⊆ fs → f ∈ blockRoutines body →
      Honours (fun _ => True) p (visitBody d body) ((optBlockNodes body).flatMap visits)
  | some ⟨i, decls, body⟩, hfs, hdecls => by
    have hinside := left (visitDecls hown hskipped false decls hfs hdecls) fun _ =>
      Marks.walked (Marks.visitStmt body)
    have hall := inBody (C := fun _ => True) (.block ⟨i, decls, body⟩)
      (fun b _ => Ends.of_true (declareResult d) b) hinside
    exact hall.of_eq (by simp [optBlockNodes, visits])

theorem visitMembers
    (hown : Honours (fun _ => True) p (Binding.visitCallable f) (f.nodes.flatMap visits))
    (hskipped : ∀ d ∈ fs, f ∈ d.routines → ∀ c, Skipped c d → p.holds c) :
    (members : List Member) → membersRoutines members ⊆ fs → f ∈ membersRoutines members →
      Honours (fun _ => True) p (visitMembers members) ((membersNodes members).flatMap visits)
  | .var d :: members, hfs, h => by
    have hall := right (fun _ => Marks.walked (Marks.visitField d)) fun _ =>
      visitMembers hown hskipped members hfs h
    exact hall.of_eq (by simp [membersNodes])
  | .property d :: members, hfs, h => by
    have hall := right (fun _ => Marks.walked (Marks.visitProperty d)) fun _ =>
      visitMembers hown hskipped members hfs h
    exact hall.of_eq (by simp [membersNodes])
  | .callable d :: members, hfs, h => by
    have hall := either (List.mem_append.mp h)
      (visitCallable hown hskipped d fun _ hd => hfs (List.mem_append_left _ hd))
      (visitMembers hown hskipped members fun _ hm => hfs (List.mem_append_right _ hm))
      (fun _ => Marks.visitCallable d) fun _ => Marks.visitMembers members
    exact hall.of_eq (by simp [membersNodes])

theorem visitDecls
    (hown : Honours (fun _ => True) p (Binding.visitCallable f) (f.nodes.flatMap visits))
    (hskipped : ∀ d ∈ fs, f ∈ d.routines → ∀ c, Skipped c d → p.holds c) (declared : Bool) :
    (ds : List Decl) → declsRoutines ds ⊆ fs → f ∈ declsRoutines ds →
      Honours (fun _ => True) p (visitDecls declared ds) ((declsNodes ds).flatMap visits)
  | .callable d :: ds, hfs, h => by
    have hall := either (List.mem_append.mp h)
      (visitCallable hown hskipped d fun _ hd => hfs (List.mem_append_left _ hd))
      (visitDecls hown hskipped false ds fun _ hm => hfs (List.mem_append_right _ hm))
      (fun _ => Marks.visitCallable d) fun _ => Marks.visitDecls false ds
    exact hall.of_eq (by simp [declsNodes])
  | .composite ⟨i, name, kind, heritage, members, type⟩ :: ds, hfs, h => by
    let d : CompositeDecl := ⟨i, name, kind, heritage, members, type⟩
    have hmembers (h : f ∈ membersRoutines members) :=
      framed name (some (.composite d)) (left (visitMembers hown hskipped members
        (fun _ hm => hfs (List.mem_append_left _ hm)) h) fun _ => Marks.visitRest d)
    have hlater (h : f ∈ declsRoutines ds) := right (C := fun _ => True)
      (fun _ => .silent (.checkComposite d)) fun _ => visitDecls hown hskipped true ds
        (fun _ hm => hfs (List.mem_append_right _ hm)) h
    have hall := right (C := fun _ => True)
      (fun _ => Marks.declareTypes declared (.composite d :: ds.takeWhile isTypeDecl)) fun _ =>
      either (List.mem_append.mp h) hmembers hlater
        (fun _ => Marks.framed name (some (.composite d)) (Marks.bind (Marks.visitMembers members)
          fun _ => Marks.visitRest d))
        fun _ => Marks.bind (.silent (.checkComposite d)) fun _ => Marks.visitDecls true ds
    simp only [bind_assoc] at hall
    -- the rest of the type is bound after the members
    have hperm : ((membersNodes members).flatMap visits ++ d.rest.flatMap Node.nodes ++
        (declsNodes ds).flatMap visits).Perm (d.rest.flatMap Node.nodes ++
          ((membersNodes members).flatMap visits ++ (declsNodes ds).flatMap visits)) := by
      rw [← List.append_assoc]
      exact List.perm_append_comm.append_right _
    exact ((hall.subperm hperm.subperm).node (x := .decl (.composite d))).of_eq
      (by simp [declsNodes, visits, d])
  | .type ⟨i, name, t⟩ :: ds, hfs, h => by
    have hall := right (fun _ => Marks.declareTypes declared
        (.type ⟨i, name, t⟩ :: ds.takeWhile isTypeDecl)) fun _ =>
      right (fun _ => Marks.walked (Marks.visitType t name)) fun _ =>
        visitDecls hown hskipped true ds hfs h
    exact (hall.node (x := .decl (.type ⟨i, name, t⟩))).of_eq (by simp [declsNodes, visits])
  | .var ⟨i, name, type, init, absolute, kind, visibility⟩ :: ds, hfs, h => by
    let d : VarDecl := ⟨i, name, type, init, absolute, kind, visibility⟩
    have hall := right (fun _ => Marks.walked (Marks.visitOptType type)) fun _ =>
      right (fun _ => Marks.walked (Marks.visitOptExpr init).lift) fun _ =>
        right (fun _ => Marks.declareVar d) fun _ => visitDecls hown hskipped false ds hfs h
    exact (hall.node (x := .decl (.var d))).of_eq (by simp [declsNodes, VarDecl.nodes, visits, d])
  | .const ⟨i, name, type, value, kind⟩ :: ds, hfs, h => by
    let d : ConstDecl := ⟨i, name, type, value, kind⟩
    have hall := right (fun _ => Marks.walked (Marks.visitOptType type)) fun _ =>
      right (fun _ => Marks.walked (Marks.visitOptExpr value).lift) fun _ =>
        right (fun _ => Marks.declareConst d) fun _ => visitDecls hown hskipped false ds hfs h
    exact (hall.node (x := .decl (.const d))).of_eq (by simp [declsNodes, visits, d])
  | .label d :: ds, hfs, h => by
    have hall := right (fun _ => Marks.discard (Marks.register d.info.line d.name (.label d)))
      fun _ => visitDecls hown hskipped false ds hfs h
    exact (hall.node (x := .decl (.label d))).of_eq (by simp [declsNodes, visits])
  | .exported d :: ds, hfs, h => by
    have hexport (n : Nat) := Marks.after (R := Scopes.FirmTo) (n := n) (Silent.checkExported d)
      fun _ => Marks.bind (Marks.walked (Marks.visitOptExpr d.exportName).lift) fun _ =>
        Marks.walked (Marks.visitOptExpr d.index).lift
    have hall := right hexport fun _ => visitDecls hown hskipped false ds hfs h
    exact (hall.node (x := .decl (.exported d))).of_eq (by simp [declsNodes, visits])
  | .param _ :: ds, hfs, h | .property _ :: ds, hfs, h | .unit _ :: ds, hfs, h
  | .enumMember _ :: ds, hfs, h =>
    throw _ fun k hk => by
      obtain ⟨x, hx, hid⟩ := (visitDecls hown hskipped false ds hfs h).held k hk
      refine ⟨x, ?_, hid⟩
      simp only [declsNodes, List.cons_append, List.flatMap_cons, List.flatMap_append,
        List.mem_append, hx, or_true]

end

theorem visitBlock
    (hown : Honours (fun _ => True) p (Binding.visitCallable f) (f.nodes.flatMap visits))
    (hskipped : ∀ d ∈ fs, f ∈ d.routines → ∀ c, Skipped c d → p.holds c) (b : Block)
    (hfs : blockRoutines (some b) ⊆ fs) (h : f ∈ blockRoutines (some b)) :
    Honours (fun _ => True) p (visitBlock b) (b.nodes.flatMap visits) := by
  obtain ⟨i, decls, body⟩ := b
  have hall := left (visitDecls hown hskipped false decls hfs h) fun _ =>
    Marks.walked (Marks.visitStmt body)
  exact (hall.node (x := .block ⟨i, decls, body⟩)).of_eq
    (by simp [Block.nodes, optBlockNodes, visits])

theorem visitGoal
    (hown : Honours (fun _ => True) p (Binding.visitCallable f) (f.nodes.flatMap visits))
    (hskipped : ∀ d ∈ fs, f ∈ d.routines → ∀ c, Skipped c d → p.holds c) (g : Goal)
    (hfs : g.routines ⊆ fs) (h : f ∈ g.routines) :
    Honours (fun _ => True) p (visitGoal g) (g.nodes.flatMap visits) := by
  have hunits (units : List UnitRef) (n : Nat) :
      Marks Scopes.FirmTo n (Binding.declareUnits units)
        ((units.map fun u => Node.decl (.unit u)).flatMap visits) :=
    (Marks.declareUnits units).widen (List.nil_sublist _)
  cases g with
  | program g =>
    have hall := right (hunits g.uses) fun _ => visitBlock hown hskipped g.block hfs h
    exact (hall.node (x := .goal (.program g))).of_eq (by simp [Goal.nodes, visits])
  | library g =>
    have hall := right (hunits g.uses) fun _ => visitBlock hown hskipped g.block hfs h
    exact (hall.node (x := .goal (.library g))).of_eq (by simp [Goal.nodes, visits])
  | unit g =>
    have hlast (n : Nat) := Marks.bind (n := n) (Marks.walked (Marks.visitStmts g.init)) fun _ =>
      Marks.walked (Marks.visitStmts g.final)
    have hlater (n : Nat) := Marks.bind (hunits g.ownUses n) fun _ =>
      Marks.bind (Marks.visitDecls false g.ownDecls) fun _ => hlast n
    have hsecond (h : f ∈ declsRoutines g.ownDecls) := right (hunits g.ownUses) fun _ =>
      left (visitDecls hown hskipped false g.ownDecls
        (fun _ hm => hfs (List.mem_append_right _ hm)) h) hlast
    have hall := right (hunits g.publicUses) fun _ => either (List.mem_append.mp h)
      (visitDecls hown hskipped false g.publicDecls fun _ hm => hfs (List.mem_append_left _ hm))
      hsecond (fun _ => Marks.visitDecls false g.publicDecls) hlater
    exact (hall.node (x := .goal (.unit g))).of_eq (by simp [Goal.nodes, visits])
  | package g => cases h

end Everywhere

end Honours
end Binding
end ObjectPascal
