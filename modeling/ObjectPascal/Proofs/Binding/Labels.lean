import Mathlib.Data.List.Forall2
import ObjectPascal.Proofs.Binding.Promise
import ObjectPascal.Proofs.Binding.Still
import ObjectPascal.Proofs.Constant

/-!
The labels of a case statement. Binding reports a label that shares a value with one before it. Two
tests are used: single labels are compared with their types, and ranges by their bounds. They agree
as long as labels with the same value have the same type and no value is too large for a signed
number next to a signed one.
-/

namespace ObjectPascal

/-! What stands in for an expression of a tree was made for it, so it stays what it is, with its
value, while other expressions are bound. -/

namespace Annotations

variable {a b : Annotations} {e f : Expr} {v w : Integral} {last : Nat}

/-- The recorded types of two expressions are the same. -/
def SameType (a : Annotations) (e f : Expr) : Prop :=
  ∃ t u, a.typeOf (a.effective e).info = some t ∧ a.typeOf (a.effective f).info = some u ∧
    t.same u = true

/-- Expressions with ordinal values are equal if their types and their values are. -/
theorem equal_iff (he : a.integralOf e = .ok v) (hf : a.integralOf f = .ok w) :
    a.equal e f = true ↔ a.SameType e f ∧ v.equal w = true := by
  obtain ⟨t, ht, -, hv⟩ := integralOf_eq_ok.mp he
  obtain ⟨u, hu, -, hw⟩ := integralOf_eq_ok.mp hf
  obtain ⟨an, han, htype⟩ := Option.bind_eq_some_iff.mp ht
  obtain ⟨an', han', htype'⟩ := Option.bind_eq_some_iff.mp hu
  have hconst : an.const = some (.integral v) := by simpa [valueOf, han] using hv
  have hconst' : an'.const = some (.integral w) := by simpa [valueOf, han'] using hw
  cases an
  cases an'
  dsimp only at htype htype' hconst hconst'
  subst htype htype' hconst hconst'
  simp [equal, SameType, han, han', ht, hu, Constant.equal]

/-- What stands in for nodes of a tree, whose last number is `last`, was made, and nothing stands in
for what was made. -/
structure Standing (last : Nat) (a : Annotations) : Prop where
  next : last < a.next
  fresh : ∀ k, last < k → a.substitutes[k]? = none
  made : ∀ (k : Nat) (r : Expr), a.substitutes[k]? = some r → last < r.info.id ∧ r.info.id < a.next

theorem Standing.effective (h : Standing last a) (e : Expr) :
    a.effective e = (a.substitutes[e.info.id]?).getD e := by
  rw [Annotations.effective, effectiveWithin]
  cases hr : a.substitutes[e.info.id]? with
  | none => rfl
  | some r =>
    have hstop := h.fresh _ (h.made _ r hr).1
    change a.effectiveWithin 7 r = r
    rw [effectiveWithin, hstop]

/-- The number of what stands in for a node of the tree is below the next one. -/
theorem Standing.effective_lt (h : Standing last a) (he : e.info.id ≤ last) :
    (a.effective e = e ∨ last < (a.effective e).info.id) ∧ (a.effective e).info.id < a.next := by
  have hnext := h.next
  rw [h.effective]
  cases hr : a.substitutes[e.info.id]? with
  | none => exact ⟨.inl rfl, Nat.lt_of_le_of_lt he h.next⟩
  | some r => exact ⟨.inr (h.made _ r hr).1, (h.made _ r hr).2⟩

end Annotations

namespace Binding

variable {last n r : Nat} {ns : List Node} {b c : Binding} {e f : Expr} {v : Integral}

theorem Touches.standing (h : Touches n r ns b c) (hb : b.notes.Standing last) (hn : last < n)
    (hns : ∀ x ∈ ns, x.info.id ≤ last) : c.notes.Standing last where
  next := Nat.lt_of_lt_of_le hb.next h.next
  fresh k hk := by
    rw [h.substitutes k fun x hx heq => absurd (hns x hx) (by omega)]
    exact hb.fresh k hk
  made k r hr := by
    have hnext := h.next
    obtain hr | ⟨hlow, hhigh⟩ := h.standIns k r hr
    · obtain ⟨hlow, hhigh⟩ := hb.made k r hr
      exact ⟨hlow, Nat.lt_of_lt_of_le hhigh hnext⟩
    · exact ⟨Nat.lt_of_lt_of_le hn hlow, hhigh⟩

/-- The stand-in of a node of the tree, and what is known about it, stay as long as no step is about
the node. -/
theorem Touches.effective (h : Touches b.notes.next r ns b c) (hb : b.notes.Standing last)
    (hns : ∀ x ∈ ns, x.info.id ≤ last) (he : e.info.id ≤ last) (hfree : ¬Held e.info.id ns) :
    c.notes.effective e = b.notes.effective e ∧
      b.notes.SameAt c.notes (b.notes.effective e).info := by
  have hc := h.standing hb hb.next hns
  have hother : ∀ x ∈ ns, x.info.id ≠ e.info.id := fun x hx heq => hfree ⟨x, hx, heq⟩
  refine ⟨by rw [hc.effective, hb.effective, h.substitutes _ hother], ?_⟩
  obtain ⟨hself | hmade, hlt⟩ := hb.effective_lt he
  · rw [hself] at hlt ⊢
    exact h.same _ hlt hother
  · exact h.same _ hlt fun x hx heq => absurd (hns x hx) (by omega)

/-- Folding keeps ordinal values. -/
theorem integralOf_of_spared {a b : Annotations} (h : Folding.Spared a b)
    (hv : a.integralOf e = .ok v) : b.integralOf e = .ok v := by
  obtain ⟨t, ht, hordinal, hvalue⟩ := Annotations.integralOf_eq_ok.mp hv
  obtain ⟨hvalue', htype⟩ := h.kept _ _ hvalue
  have heffective := Annotations.effective_congr h.substitutes e
  refine Annotations.integralOf_eq_ok.mpr ⟨t, ?_, hordinal, ?_⟩
  · rw [heffective, htype, ht]
  · rw [heffective, hvalue']

theorem Touches.integralOf (h : Touches b.notes.next r ns b c) (hb : b.notes.Standing last)
    (hns : ∀ x ∈ ns, x.info.id ≤ last) (he : e.info.id ≤ last) (hfree : ¬Held e.info.id ns)
    (hv : b.notes.integralOf e = .ok v) : c.notes.integralOf e = .ok v ∧
      c.notes.typeOf (c.notes.effective e).info = b.notes.typeOf (b.notes.effective e).info := by
  obtain ⟨heffective, hsame⟩ := h.effective hb hns he hfree
  obtain ⟨t, ht, hordinal, hvalue⟩ := Annotations.integralOf_eq_ok.mp hv
  obtain ⟨hvalue', htype⟩ := hsame.kept _ hvalue
  refine ⟨Annotations.integralOf_eq_ok.mpr ⟨t, ?_, hordinal, ?_⟩, ?_⟩
  · rw [heffective, htype, ht]
  · rw [heffective, hvalue']
  · rw [heffective, htype]

end Binding
end ObjectPascal

namespace ObjectPascal.Binding

/-- The values of a label: those that its expression, or the bounds of its range, have in `a`. -/
def Spans (a : Annotations) : Expr → CaseRange → Prop
  | .range _ low high, r =>
    a.integralOf low = .ok r.low ∧ a.integralOf high = .ok r.high ∧ r.single = none ∧
      r.low.sameKind r.high = true ∧ r.high.less r.low = false
  | e, r => a.integralOf e = .ok r.low ∧ r.high = r.low ∧ r.single = some e

/-- A label has a value. -/
def CaseRange.Holds (r : CaseRange) (x : Int) : Prop := r.low.number ≤ x ∧ x ≤ r.high.number

section Values

variable {b : Binding} {e l : Expr}

/-- An expression that has an ordinal value has it for good, and nothing is reported. -/
theorem caseValue_ends (b : Binding) (e : Expr) : Ends (caseValue e) b
    (fun v c => ∀ w, v = some w → Faults b c [] ∧ c.notes.integralOf e = .ok w)
    fun _ _ => True := by
  have hconstant : Ends (constant e) b (fun v c => v = none ∨ Faults b c [])
      fun _ _ => True := by
    unfold constant
    rw [Ends.bind_iff, folding_iff]
    refine (Ends.of_true _ _).mono (fun v notes _ => ?_) fun stop _ _ => ?_
    · cases v with
      | none => exact .inl rfl
      | some v => exact .inr (.none rfl rfl rfl)
    · cases stop with
      | complaint c => exact .inl rfl
      | breach e => trivial
  unfold caseValue
  rw [Ends.bind_iff]
  refine hconstant.mono (fun v c hc => ?_) fun _ _ h => h
  split
  · exact fun _ h => nomatch h
  · rw [Ends.bind_iff, getNotes_iff]
    split
    · split
      · rename_i w hw
        intro w' hw'
        cases hw'
        exact ⟨hc.resolve_left nofun, hw⟩
      · trivial
    · exact fun _ h => nomatch h

/-- A label that is found to have values has them, and nothing is reported but faults of scopes. -/
theorem caseRange_ends (b : Binding) (label : Expr) : Ends (caseRange label) b
    (fun v c => ∀ r, v = some r → Spans c.notes label r ∧ ∃ new, Faults b c new)
    fun _ _ => True := by
  unfold caseRange
  split
  · rename_i info low high
    rw [Ends.bind_iff]
    refine (Scoped.visitExpr low b ⟨[], .refl b⟩).mono (fun _ b₁ h₁ => ?_) fun _ _ h => h
    rw [Ends.bind_iff]
    refine (Scoped.visitExpr high b₁ ⟨[], .refl b₁⟩).mono (fun _ b₂ h₂ => ?_) fun _ _ h => h
    rw [Ends.bind_iff]
    refine (caseValue_ends b₂ low).mono (fun l b₃ h₃ => ?_) fun _ _ h => h
    rw [Ends.bind_iff]
    have hsilent := Silent.caseValue high b₃ (.refl b₃)
    refine ((caseValue_ends b₃ high).and hsilent).mono (fun h b₄ h₄ => ?_) fun _ _ _ => trivial
    obtain ⟨h₄, hquiet⟩ := h₄
    split
    · rename_i l h
      obtain ⟨hlerrors, hlow⟩ := h₃ l rfl
      obtain ⟨hherrors, hhigh⟩ := h₄ h rfl
      split
      · exact fun _ hnone => nomatch hnone
      · rename_i hkind
        rintro _ ⟨⟩
        obtain ⟨hkind, hless⟩ : l.sameKind h = true ∧ h.less l = false := by simpa using hkind
        obtain ⟨new, hnew⟩ := h₁
        obtain ⟨new', hnew'⟩ := h₂
        refine ⟨⟨integralOf_of_spared hquiet.notes hlow, hhigh, rfl, hkind, hless⟩, ?_⟩
        exact ⟨_, (hnew.trans hnew').trans (hlerrors.trans hherrors)⟩
    · exact fun _ hnone => nomatch hnone
  · rename_i hrange
    rw [Ends.bind_iff]
    refine (Scoped.visitExpr label b ⟨[], .refl b⟩).mono (fun _ b₁ h₁ => ?_) fun _ _ h => h
    rw [Ends.bind_iff]
    refine (caseValue_ends b₁ label).mono (fun v c hc => ?_) fun _ _ h => h
    intro r hr
    obtain ⟨w, rfl, rfl⟩ := Option.map_eq_some_iff.mp hr
    obtain ⟨herrors, hvalue⟩ := hc w rfl
    obtain ⟨new, hnew⟩ := h₁
    refine ⟨?_, _, hnew.trans herrors⟩
    unfold Spans
    split
    · exact absurd rfl (hrange _ _ _)
    · exact ⟨hvalue, rfl, rfl⟩

end Values

/-! The labels in order. -/

/-- Checks a label against those before it and gives them all. -/
def caseLabel (seen : List CaseRange) (label : Expr) : Bind (List CaseRange) := do
  match ← caseRange label with
  | none => return seen
  | some r =>
    checkRepeated label.info.line seen r
    return seen ++ [r]

theorem caseLabels_eq (seen : List CaseRange) (labels : List Expr) :
    caseLabels seen labels = labels.foldlM caseLabel seen := rfl

/-- Binds the arms of a case statement and gives the values of the labels. -/
def throughArms (seen : List CaseRange) : List CaseArm → Bind (List CaseRange)
  | [] => return seen
  | ⟨_, labels, body⟩ :: arms => do
    let seen ← caseLabels seen labels
    visitStmt body
    throughArms seen arms

theorem visitArms_eq (seen : List CaseRange) (arms : List CaseArm) :
    visitArms seen arms = discard (throughArms seen arms) := by
  have h : visitArms seen arms = throughArms seen arms >>= fun _ => pure () := by
    induction arms generalizing seen with
    | nil => rw [visitArms, throughArms, pure_bind]
    | cons arm arms ih =>
      obtain ⟨i, labels, body⟩ := arm
      rw [visitArms, throughArms]
      simp only [bind_assoc, ih]
  rw [h, bind_pure_comp]
  rfl

/-- Goes through arms and then through the first labels of the next one. -/
def throughLabels (seen : List CaseRange) (arms : List CaseArm) (labels : List Expr) :
    Bind (List CaseRange) := do
  caseLabels (← throughArms seen arms) labels

/-- The labels of arms in order. -/
def labelsOf (arms : List CaseArm) : List Expr := arms.flatMap (·.labels)

variable {arms : List CaseArm}

/-- The nodes of the labels and bodies of arms. -/
def partsOf (arms : List CaseArm) : List Node :=
  arms.flatMap fun arm => exprsNodes arm.labels ++ arm.body.nodes

theorem labels_subset : exprsNodes (labelsOf arms) ⊆ partsOf arms := by
  simp only [exprsNodes_eq_flatMap, labelsOf, partsOf, List.flatMap_assoc]
  intro x hx
  obtain ⟨arm, harm, hx⟩ := List.mem_flatMap.mp hx
  exact List.mem_flatMap.mpr ⟨arm, harm, List.mem_append_left _ hx⟩

theorem parts_sublist (arms : List CaseArm) : (partsOf arms).Sublist (armsNodes arms) := by
  induction arms with
  | nil => exact .slnil
  | cons arm arms ih =>
    obtain ⟨i, labels, body⟩ := arm
    have h := ((List.Sublist.refl (exprsNodes labels ++ body.nodes)).append ih).cons
      (Node.caseArm ⟨i, labels, body⟩)
    simpa [partsOf, armsNodes] using h

theorem marks_throughArms (n : Nat) (seen : List CaseRange) (arms : List CaseArm) :
    Marks Scopes.FirmTo n (throughArms seen arms) (partsOf arms) := by
  induction arms generalizing seen with
  | nil => exact .pure _
  | cons arm arms ih =>
    obtain ⟨i, labels, body⟩ := arm
    have h := Marks.bind (Marks.caseLabels (n := n) seen labels).lift fun seen =>
      Marks.bind (Marks.visitStmt body) fun _ => ih seen
    exact Marks.of_eq h (by simp [partsOf])

section Runs

variable {last : Nat} {ns : List Node} {b c : Binding} {seen out : List CaseRange} {l : Expr}
  {ls : List Expr} {arms : List CaseArm}

/-- Between the nodes of labels and bodies no number comes twice. -/
def Apart (ns : List Node) : Prop := ∀ x ∈ ns, Once x.info.id ns

instance (ns : List Node) : Decidable (Apart ns) :=
  inferInstanceAs (Decidable (∀ x ∈ ns, Once x.info.id ns))

theorem Apart.not_held {ns' : List Node} (h : Apart (ns ++ ns')) {x : Node} (hx : x ∈ ns) :
    ¬Held x.info.id ns' := (h x (List.mem_append_left _ hx)).not_held ⟨x, hx, rfl⟩

theorem Apart.left {ns' : List Node} (h : Apart (ns ++ ns')) : Apart ns := fun x hx =>
  (h x (List.mem_append_left _ hx)).left

theorem Apart.right {ns' : List Node} (h : Apart (ns ++ ns')) : Apart ns' := fun x hx =>
  (h x (List.mem_append_right _ hx)).right

/-- The values of a label stay as long as no step is about its nodes. -/
theorem Spans.later {r : CaseRange} {k : Nat} (h : Spans b.notes l r)
    (hbc : Touches b.notes.next k ns b c) (hb : b.notes.Standing last)
    (hns : ∀ x ∈ ns, x.info.id ≤ last) (hl : ∀ x ∈ l.nodes, x.info.id ≤ last)
    (hfree : ∀ x ∈ l.nodes, ¬Held x.info.id ns) : Spans c.notes l r := by
  have hkept {e : Expr} {v : Integral} (he : Node.expr e ∈ l.nodes)
      (hv : b.notes.integralOf e = .ok v) : c.notes.integralOf e = .ok v :=
    (hbc.integralOf hb hns (hl (.expr e) he) (hfree (.expr e) he) hv).1
  have hself (e : Expr) : Node.expr e ∈ e.nodes := by
    rw [Node.expr_nodes]
    exact List.mem_cons_self
  unfold Spans at h ⊢
  split at h
  · obtain ⟨hlow, hhigh, hrest⟩ := h
    refine ⟨hkept ?_ hlow, hkept ?_ hhigh, hrest⟩
    · exact List.mem_cons_of_mem _ (List.mem_append_left _ (hself _))
    · exact List.mem_cons_of_mem _ (List.mem_append_right _ (hself _))
  · exact ⟨hkept (hself _) h.1, h.2⟩

/-- The state of binding is one from which `ns` can be bound. -/
structure Going (last : Nat) (ns : List Node) (b : Binding) : Prop where
  level : b.scopes.FirmTo b.scopes
  ready : Ready last ns b.notes
  standing : b.notes.Standing last

/-- A step about some nodes leaves a state from which the others can be bound. -/
theorem Going.step {α : Type} {m : Bind α} {a : α} {ns' : List Node}
    (h : Going last (ns ++ ns') b) (hm : ∀ n, Marks Scopes.FirmTo n m ns) (hl : Leads m b a c) :
    Touches b.notes.next (3 * ns.length) ns b c ∧ Going last ns' c := by
  have hroom := h.ready.room
  rw [List.length_append] at hroom
  obtain ⟨hfirm, htouch⟩ := hl.ends (hm _ b h.level (Nat.le_refl _) (by omega))
  have hns : ∀ x ∈ ns, x.info.id ≤ last := fun x hx =>
    h.ready.numbers x (List.mem_append_left _ hx)
  exact ⟨htouch, hfirm.reached, h.ready.later htouch (Nat.le_refl _),
    htouch.standing h.standing h.ready.next hns⟩

/-- What the last step about some nodes touches. -/
theorem Going.finish {α : Type} {m : Bind α} {a : α} (h : Going last ns b)
    (hm : ∀ n, Marks Scopes.FirmTo n m ns) (hl : Leads m b a c) :
    Touches b.notes.next (3 * ns.length) ns b c := by
  have hall : Going last (ns ++ []) b := by rwa [List.append_nil]
  exact (hall.step hm hl).left

theorem marks_caseLabel (n : Nat) (seen : List CaseRange) (l : Expr) :
    Marks Scopes.FirmTo n (caseLabel seen l) l.nodes := by
  refine Marks.before (Marks.caseRange l).lift fun r => ?_
  split
  · exact .pure _
  · exact .bind (Silent.checkRepeated _ _ _) fun _ => .pure _

/-- Nothing but a report comes of a repeated label. -/
theorem checkRepeated_ends (b : Binding) (line : Nat) (seen : List CaseRange) (r : CaseRange) :
    Ends (checkRepeated line seen r) b (fun _ c => c.notes = b.notes ∧
      c.errors.toList = b.errors.toList ++
        if seen.any (r.repeats b.notes) then [⟨b.path, line, .duplicateLabel r.low⟩] else [])
      fun _ _ => True := by
  unfold checkRepeated
  rw [Ends.bind_iff, getNotes_iff]
  split
  · exact ⟨rfl, Array.toList_push⟩
  · exact ⟨rfl, (List.append_nil _).symm⟩

/-- A label is left out, or its values are taken up, and it is reported if it repeats others. -/
theorem caseLabel_leads (h : Leads (caseLabel seen l) b out c) : out = seen ∨
    ∃ r new, out = seen ++ [r] ∧ Spans c.notes l r ∧
      (∀ f ∈ new, ∃ e, f.complaint = .scope e) ∧
      c.errors.toList = b.errors.toList ++ new ++
        if seen.any (r.repeats c.notes) then [⟨b.path, l.info.line, .duplicateLabel r.low⟩]
        else [] := by
  obtain ⟨v, d, hv, h⟩ := Leads.bind_iff.mp h
  have hd := hv.ends (caseRange_ends b l)
  cases v with
  | none =>
    obtain ⟨rfl, rfl⟩ := Leads.pure_iff.mp h
    exact .inl rfl
  | some r =>
    obtain ⟨hspans, new, hnew⟩ := hd r rfl
    obtain ⟨u, d', hcheck, h⟩ := Leads.bind_iff.mp h
    obtain ⟨rfl, rfl⟩ := Leads.pure_iff.mp h
    obtain ⟨hnotes, herrors⟩ := hcheck.ends (checkRepeated_ends d l.info.line seen r)
    refine .inr ⟨r, new, rfl, ?_, hnew.scopes, ?_⟩
    · rwa [hnotes]
    · rw [hnotes, herrors, hnew.errors, hnew.path]

/-- Labels have their values as long as no step is about them. -/
theorem forall₂_spans_later {rs : List CaseRange} {k : Nat}
    (h : List.Forall₂ (Spans b.notes) ls rs) (hbc : Touches b.notes.next k ns b c)
    (hb : b.notes.Standing last) (hns : ∀ x ∈ ns, x.info.id ≤ last)
    (hls : ∀ x ∈ exprsNodes ls, x.info.id ≤ last)
    (hfree : ∀ x ∈ exprsNodes ls, ¬Held x.info.id ns) : List.Forall₂ (Spans c.notes) ls rs := by
  induction h with
  | nil => exact .nil
  | cons hl _ ih =>
    refine .cons (hl.later hbc hb hns (fun x hx => hls x (List.mem_append_left _ hx))
      fun x hx => hfree x (List.mem_append_left _ hx)) (ih ?_ ?_)
    · exact fun x hx => hls x (List.mem_append_right _ hx)
    · exact fun x hx => hfree x (List.mem_append_right _ hx)

/-- The values of labels are taken up in order; if none is left out, each is that of its label. -/
theorem caseLabels_leads (h : Leads (caseLabels seen ls) b out c)
    (hb : Going last (exprsNodes ls) b) (hapart : Apart (exprsNodes ls)) :
    ∃ new, out = seen ++ new ∧ new.length ≤ ls.length ∧
      (new.length = ls.length → List.Forall₂ (Spans c.notes) ls new) := by
  induction ls generalizing seen b with
  | nil =>
    obtain ⟨rfl, rfl⟩ := Leads.pure_iff.mp h
    exact ⟨[], (List.append_nil _).symm, Nat.le_refl 0, fun _ => .nil⟩
  | cons l ls ih =>
    rw [caseLabels_eq, List.foldlM_cons] at h
    obtain ⟨mid, d, hl, hls⟩ := Leads.bind_iff.mp h
    obtain ⟨-, hd⟩ := hb.step (marks_caseLabel · seen l) hl
    obtain ⟨new, rfl, hlength, hspans⟩ := ih hls hd hapart.right
    have htouch := hd.finish (fun n => (Marks.caseLabels (n := n) mid ls).lift) hls
    obtain rfl | ⟨r, found, rfl, hr, -⟩ := caseLabel_leads hl
    · exact ⟨new, rfl, Nat.le_succ_of_le hlength, fun heq => by
        rw [List.length_cons] at heq
        omega⟩
    · refine ⟨r :: new, by simp, Nat.succ_le_succ hlength, fun heq => ?_⟩
      refine .cons ?_ (hspans (Nat.succ.inj heq))
      exact hr.later htouch hd.standing hd.ready.numbers
        (fun x hx => hb.ready.numbers x (List.mem_append_left _ hx)) fun x hx => hapart.not_held hx

/-- So are those of the labels of arms. -/
theorem throughArms_leads (h : Leads (throughArms seen arms) b out c)
    (hb : Going last (partsOf arms) b) (hapart : Apart (partsOf arms)) :
    ∃ new, out = seen ++ new ∧ new.length ≤ (labelsOf arms).length ∧
      (new.length = (labelsOf arms).length →
        List.Forall₂ (Spans c.notes) (labelsOf arms) new) := by
  induction arms generalizing seen b with
  | nil =>
    obtain ⟨rfl, rfl⟩ := Leads.pure_iff.mp h
    exact ⟨[], (List.append_nil _).symm, Nat.le_refl 0, fun _ => .nil⟩
  | cons arm arms ih =>
    obtain ⟨i, labels, body⟩ := arm
    have hparts : partsOf (⟨i, labels, body⟩ :: arms) =
        exprsNodes labels ++ (body.nodes ++ partsOf arms) := by simp [partsOf]
    rw [hparts] at hb hapart
    obtain ⟨mid, d, hlabels, h⟩ := Leads.bind_iff.mp h
    obtain ⟨-, hd⟩ := hb.step (fun n => (Marks.caseLabels (n := n) seen labels).lift) hlabels
    have hrest (n : Nat) : Marks Scopes.FirmTo n (do visitStmt body; throughArms mid arms)
        (body.nodes ++ partsOf arms) :=
      (Marks.visitStmt body).bind fun _ => marks_throughArms n mid arms
    have htouch := hd.finish hrest h
    obtain ⟨_, e, hbody, h⟩ := Leads.bind_iff.mp h
    obtain ⟨-, he⟩ := hd.step (fun n => Marks.visitStmt (n := n) body) hbody
    obtain ⟨first, rfl, hfirst, hspans⟩ := caseLabels_leads hlabels
      ⟨hb.level, hb.ready.subperm (List.sublist_append_left _ _).subperm, hb.standing⟩ hapart.left
    obtain ⟨second, rfl, hsecond, hspans'⟩ := ih h he hapart.right.right
    have hall : labelsOf (⟨i, labels, body⟩ :: arms) = labels ++ labelsOf arms := rfl
    rw [hall, List.length_append]
    refine ⟨first ++ second, by simp, ?_, fun heq => ?_⟩
    · rw [List.length_append]
      omega
    · rw [List.length_append] at heq
      refine List.rel_append (forall₂_spans_later (hspans (by omega)) htouch hd.standing
        hd.ready.numbers (fun x hx => hb.ready.numbers x (List.mem_append_left _ hx))
        fun x hx => hapart.not_held hx) (hspans' (by omega))

/-- Going through arms, binding comes to each of their labels. -/
theorem throughArms_split (seen : List CaseRange) (pre post : List CaseArm) (i : NodeInfo)
    (ls ls' : List Expr) (l : Expr) (body : Stmt) :
    throughArms seen (pre ++ ⟨i, ls ++ l :: ls', body⟩ :: post) = (do
      let seen ← throughLabels seen pre ls
      let seen ← caseLabel seen l
      throughArms seen (⟨i, ls', body⟩ :: post)) := by
  induction pre generalizing seen with
  | nil =>
    simp only [List.nil_append, throughLabels, throughArms, pure_bind, caseLabels_eq,
      List.foldlM_append, List.foldlM_cons, bind_assoc]
  | cons arm pre ih =>
    obtain ⟨j, labels, body'⟩ := arm
    simp only [List.cons_append, throughLabels, throughArms, ih, bind_assoc]

theorem marks_throughLabels (n : Nat) (seen : List CaseRange) (arms : List CaseArm)
    (ls : List Expr) :
    Marks Scopes.FirmTo n (throughLabels seen arms ls) (partsOf arms ++ exprsNodes ls) :=
  (marks_throughArms n seen arms).bind fun seen => (Marks.caseLabels seen ls).lift

/-- The values of labels are taken up in order, those of arms first. -/
theorem throughLabels_leads (h : Leads (throughLabels seen arms ls) b out c)
    (hb : Going last (partsOf arms ++ exprsNodes ls) b)
    (hapart : Apart (partsOf arms ++ exprsNodes ls)) :
    ∃ new, out = seen ++ new ∧ new.length ≤ (labelsOf arms ++ ls).length ∧
      (new.length = (labelsOf arms ++ ls).length →
        List.Forall₂ (Spans c.notes) (labelsOf arms ++ ls) new) := by
  obtain ⟨mid, d, harms, h⟩ := Leads.bind_iff.mp h
  obtain ⟨-, hd⟩ := hb.step (marks_throughArms · seen arms) harms
  have htouch := hd.finish (fun n => (Marks.caseLabels (n := n) mid ls).lift) h
  obtain ⟨first, rfl, hfirst, hspans⟩ := throughArms_leads harms
    ⟨hb.level, hb.ready.subperm (List.sublist_append_left _ _).subperm, hb.standing⟩ hapart.left
  obtain ⟨second, rfl, hsecond, hspans'⟩ := caseLabels_leads h hd hapart.right
  rw [List.length_append]
  refine ⟨first ++ second, by simp, ?_, fun heq => ?_⟩
  · rw [List.length_append]
    omega
  · rw [List.length_append] at heq
    exact List.rel_append (forall₂_spans_later (hspans (by omega)) htouch hd.standing
      hd.ready.numbers (fun x hx => hb.ready.numbers x (List.mem_append_left _ (labels_subset hx)))
      fun x hx => hapart.not_held (labels_subset hx)) (hspans' (by omega))

/-- Two labels of comparable values repeat each other if and only if they share a value, provided
that single labels with the same value have the same type. -/
theorem repeats_iff {a : Annotations} {l m : Expr} {r q : CaseRange} (hr : Spans a l r)
    (hq : Spans a m q) (hkind : r.low.sameKind q.low = true)
    (hcomparable : ∀ s ∈ [r, q], ∀ t ∈ [r, q], ∀ v ∈ [s.low, s.high], ∀ w ∈ [t.low, t.high],
      v.Comparable w)
    (htypes : ∀ v w, a.integralOf l = .ok v → a.integralOf m = .ok w → v.number = w.number →
      a.SameType l m) :
    r.repeats a q = true ↔ ∃ x, q.Holds x ∧ r.Holds x := by
  have hordered {l : Expr} {r : CaseRange} (hr : Spans a l r) (h : r.high.Comparable r.low) :
      r.low.number ≤ r.high.number := by
    unfold Spans at hr
    split at hr
    · have hless : ¬r.high.less r.low = true := by simp [hr.2.2.2.2]
      rw [Integral.less_iff h] at hless
      omega
    · rw [hr.2.1]
  have hrle := hordered hr (hcomparable r (by simp) r (by simp) _ (by simp) _ (by simp))
  have hqle := hordered hq (hcomparable q (by simp) q (by simp) _ (by simp) _ (by simp))
  have hrq := hcomparable r (by simp) q (by simp)
  have hqr := hcomparable q (by simp) r (by simp)
  have hshared : (∃ x, q.Holds x ∧ r.Holds x) ↔
      q.low.number ≤ r.high.number ∧ r.low.number ≤ q.high.number := by
    constructor
    · rintro ⟨x, ⟨hql, hqh⟩, hrl, hrh⟩
      exact ⟨Int.le_trans hql hrh, Int.le_trans hrl hqh⟩
    · rintro ⟨hlow, hhigh⟩
      refine ⟨max q.low.number r.low.number, ⟨?_, ?_⟩, ?_, ?_⟩ <;> omega
  have hoverlaps : r.overlaps q = true ↔ ∃ x, q.Holds x ∧ r.Holds x := by
    have hlow := Integral.less_iff (hrq r.high (by simp) q.low (by simp))
    have hhigh := Integral.less_iff (hqr q.high (by simp) r.low (by simp))
    rw [hshared, CaseRange.overlaps, hkind, Bool.true_and, Bool.and_eq_true, Bool.not_eq_true',
      Bool.not_eq_true', ← Bool.not_eq_true, ← Bool.not_eq_true, hlow, hhigh]
    omega
  unfold CaseRange.repeats
  split
  · rename_i e f he hf
    obtain ⟨hvr, hsr, rfl⟩ : a.integralOf l = .ok r.low ∧ r.high = r.low ∧ l = e := by
      unfold Spans at hr
      split at hr
      · rw [hr.2.2.1] at he
        cases he
      · exact ⟨hr.1, hr.2.1, Option.some.inj (hr.2.2.symm.trans he)⟩
    obtain ⟨hvq, hsq, rfl⟩ : a.integralOf m = .ok q.low ∧ q.high = q.low ∧ m = f := by
      unfold Spans at hq
      split at hq
      · rw [hq.2.2.1] at hf
        cases hf
      · exact ⟨hq.1, hq.2.1, Option.some.inj (hq.2.2.symm.trans hf)⟩
    have hnumber := Integral.number_eq_iff (hrq r.low (by simp) q.low (by simp))
    rw [Annotations.equal_iff hvr hvq, hshared, Integral.equal, hkind, Bool.true_and,
      beq_iff_eq, ← hnumber, hsr, hsq]
    constructor
    · rintro ⟨-, heq⟩
      omega
    · rintro ⟨hle, hge⟩
      have heq : r.low.number = q.low.number := by omega
      exact ⟨htypes _ _ hvr hvq heq, heq⟩
  · exact hoverlaps

end Runs

/-- The labels of a case statement have values of one kind. -/
def OneKind (ranges : List CaseRange) : Prop :=
  ∀ r ∈ ranges, ∀ q ∈ ranges, r.low.sameKind q.low = true

/-- Binding can compare all labels: no value is too large for a signed number next to a signed one,
and labels with the same value have the same type. -/
structure Alike (a : Annotations) (labels : List Expr) (ranges : List CaseRange) : Prop where
  comparable : ∀ r ∈ ranges, ∀ q ∈ ranges, ∀ v ∈ [r.low, r.high], ∀ w ∈ [q.low, q.high],
    v.Comparable w
  types : ∀ l ∈ labels, ∀ m ∈ labels, ∀ v w, a.integralOf l = .ok v → a.integralOf m = .ok w →
    v.number = w.number → a.SameType l m

/-- How binding goes through a case statement: from `b` past the selector to `a`, through the arms
to `c`, where the labels have the values `ranges`, and past the rest to `d`. -/
structure CaseRun (selector : Expr) (arms : List CaseArm) (rest : List Stmt) (b a c d : Binding)
    (ranges : List CaseRange) : Prop where
  selector : Leads (visitExpr selector) b () a
  arms : Leads (throughArms [] arms) a ranges c
  rest : Leads (visitStmts rest) c () d

theorem caseRun_iff {info : NodeInfo} {selector : Expr} {arms : List CaseArm} {rest : List Stmt}
    {b d : Binding} : Leads (visitStmt (.caseOf info selector arms rest)) b () d ↔
      ∃ a c ranges, CaseRun selector arms rest b a c d ranges := by
  rw [visitStmt, visitArms_eq]
  simp only [Leads.bind_iff, Leads.discard_iff]
  constructor
  · rintro ⟨_, a, hselector, _, c, ⟨ranges, harms⟩, hrest⟩
    exact ⟨a, c, ranges, hselector, harms, hrest⟩
  · rintro ⟨a, c, ranges, hselector, harms, hrest⟩
    exact ⟨(), a, hselector, (), c, ⟨ranges, harms⟩, hrest⟩

section Found

variable {last : Nat} {a c : Binding} {ranges : List CaseRange} {pre post : List CaseArm}
  {i : NodeInfo} {ls ls' : List Expr} {l : Expr} {body : Stmt}

/-- What has the same type in the end has it all the time. -/
theorem sameType_of_later {ns : List Node} {k : Nat} {b c : Binding} {l m : Expr} {v w : Integral}
    (h : Touches b.notes.next k ns b c) (hb : b.notes.Standing last)
    (hns : ∀ x ∈ ns, x.info.id ≤ last) (hl : l.info.id ≤ last) (hlfree : ¬Held l.info.id ns)
    (hm : m.info.id ≤ last) (hmfree : ¬Held m.info.id ns) (hv : b.notes.integralOf l = .ok v)
    (hw : b.notes.integralOf m = .ok w)
    (htypes : c.notes.integralOf l = .ok v → c.notes.integralOf m = .ok w →
      c.notes.SameType l m) : b.notes.SameType l m := by
  obtain ⟨hv', hltype⟩ := h.integralOf hb hns hl hlfree hv
  obtain ⟨hw', hmtype⟩ := h.integralOf hb hns hm hmfree hw
  obtain ⟨t, u, ht, hu, hsame⟩ := htypes hv' hw'
  exact ⟨t, u, hltype ▸ ht, hmtype ▸ hu, hsame⟩

open scoped Classical in
/-- A label is reported once if it shares a value with one before it, and else not. -/
theorem label_found (ha : Going last (partsOf (pre ++ ⟨i, ls ++ l :: ls', body⟩ :: post)) a)
    (hapart : Apart (partsOf (pre ++ ⟨i, ls ++ l :: ls', body⟩ :: post)))
    (h : Leads (throughArms [] (pre ++ ⟨i, ls ++ l :: ls', body⟩ :: post)) a ranges c)
    (hall : ranges.length = (labelsOf (pre ++ ⟨i, ls ++ l :: ls', body⟩ :: post)).length)
    (hkind : OneKind ranges)
    (halike : Alike c.notes (labelsOf (pre ++ ⟨i, ls ++ l :: ls', body⟩ :: post)) ranges) :
    ∃ seen r later e f new, ranges = seen ++ r :: later ∧
      seen.length = (labelsOf pre ++ ls).length ∧ Leads (throughLabels [] pre ls) a seen e ∧
      Leads (caseLabel seen l) e (seen ++ [r]) f ∧
      (∀ g ∈ new, ∃ x, g.complaint = .scope x) ∧
      f.errors.toList = e.errors.toList ++ new ++
        if ∃ q ∈ seen, ∃ x, q.Holds x ∧ r.Holds x then
          [⟨e.path, l.info.line, .duplicateLabel r.low⟩]
        else [] := by
  have hparts : partsOf (pre ++ ⟨i, ls ++ l :: ls', body⟩ :: post) =
      partsOf pre ++ exprsNodes ls ++ (l.nodes ++ partsOf (⟨i, ls', body⟩ :: post)) := by
    simp [partsOf, exprsNodes_eq_flatMap]
  have hlabels : labelsOf (pre ++ ⟨i, ls ++ l :: ls', body⟩ :: post) =
      labelsOf pre ++ ls ++ l :: labelsOf (⟨i, ls', body⟩ :: post) := by simp [labelsOf]
  rw [hparts] at ha hapart
  rw [hlabels] at hall halike
  rw [throughArms_split] at h
  obtain ⟨seen, e, hseen, h⟩ := Leads.bind_iff.mp h
  obtain ⟨out, f, hlabel, hrest⟩ := Leads.bind_iff.mp h
  obtain ⟨-, he⟩ := ha.step (marks_throughLabels · [] pre ls) hseen
  obtain ⟨htouchl, hf⟩ := he.step (marks_caseLabel · seen l) hlabel
  have htouch := hf.finish (marks_throughArms · out (⟨i, ls', body⟩ :: post)) hrest
  obtain ⟨_, rfl, hfirst, hspans⟩ := throughLabels_leads hseen
    ⟨ha.level, ha.ready.subperm (List.sublist_append_left _ _).subperm, ha.standing⟩ hapart.left
  obtain ⟨later, rfl, hsecond, -⟩ := throughArms_leads hrest hf hapart.right.right
  rw [List.length_append, List.length_append, List.length_cons] at hall
  obtain rfl | ⟨r, new, rfl, hr, hnew, herrors⟩ := caseLabel_leads hlabel
  · omega
  have hlengths : seen.length = (labelsOf pre ++ ls).length := by
    rw [List.length_append, List.length_singleton] at hall
    omega
  refine ⟨seen, r, later, e, f, new, by simp, hlengths, hseen, hlabel, hnew, ?_⟩
  -- the values of the labels in front are known when the label is checked
  have hsub : exprsNodes (labelsOf pre ++ ls) ⊆ partsOf pre ++ exprsNodes ls := by
    intro x hx
    rw [exprsNodes_eq_flatMap, List.flatMap_append, ← exprsNodes_eq_flatMap,
      ← exprsNodes_eq_flatMap] at hx
    exact (List.mem_append.mp hx).elim (fun hx => List.mem_append_left _ (labels_subset hx))
      (List.mem_append_right _)
  have hknown := forall₂_spans_later (hspans hlengths) htouchl he.standing
    (fun x hx => he.ready.numbers x (List.mem_append_left _ hx))
    (fun x hx => ha.ready.numbers x (List.mem_append_left _ (hsub hx)))
    fun x hx hheld => hapart.not_held (hsub hx) (hheld.imp fun y hy =>
      ⟨List.mem_append_left _ hy.1, hy.2⟩)
  have hself (m : Expr) : Node.expr m ∈ m.nodes := by
    rw [Node.expr_nodes]
    exact List.mem_cons_self
  have hrepeats : ∀ q ∈ seen, r.repeats f.notes q = true ↔ ∃ x, q.Holds x ∧ r.Holds x := by
    intro q hq
    obtain ⟨k, hk, rfl⟩ := List.getElem_of_mem hq
    have hmq := (List.forall₂_iff_get.mp hknown).2 k (hlengths ▸ hk) hk
    have hm := List.get_mem (labelsOf pre ++ ls) ⟨k, hlengths ▸ hk⟩
    generalize (labelsOf pre ++ ls).get ⟨k, hlengths ▸ hk⟩ = m at hmq hm
    have hmember : ∀ s ∈ [r, seen[k]], s ∈ seen ++ [r] ++ later := by simp
    have hnode : Node.expr m ∈ partsOf pre ++ exprsNodes ls := by
      refine hsub ?_
      rw [exprsNodes_eq_flatMap]
      exact List.mem_flatMap.mpr ⟨m, hm, hself m⟩
    refine repeats_iff hr hmq (hkind r (by simp) _ (by simp))
      (fun s hs t ht => halike.comparable s (hmember s hs) t (hmember t ht))
      fun v w hv hw heq => ?_
    refine sameType_of_later htouch hf.standing hf.ready.numbers
      (he.ready.numbers (.expr l) (List.mem_append_left _ (hself l)))
      (hapart.right.not_held (hself l)) (ha.ready.numbers (.expr m) (List.mem_append_left _ hnode))
      (fun hheld => hapart.not_held hnode (hheld.imp fun y hy =>
        ⟨List.mem_append_right _ hy.1, hy.2⟩)) hv hw
      fun hv hw => halike.types l (by simp) m (List.mem_append_left _ hm) v w hv hw heq
  have hany : seen.any (r.repeats f.notes) = true ↔ ∃ q ∈ seen, ∃ x, q.Holds x ∧ r.Holds x := by
    rw [List.any_eq_true]
    exact exists_congr fun q => and_congr_right (hrepeats q)
  rw [herrors]
  simp only [hany]

end Found

open scoped Classical in
/-- Where all labels of a case statement have values of one kind, and binding can compare them, each
label is reported exactly once as a duplicate if it shares a value with a label before it, and else
not at all. Besides, only faults of scopes are reported for the label. `ranges` are the values of
the labels, in their order. -/
theorem overlapping_labels_found {last : Nat} {info : NodeInfo} {selector : Expr}
    {arms : List CaseArm} {rest : List Stmt} {b d : Binding}
    (hb : Going last (Stmt.caseOf info selector arms rest).nodes b)
    (hapart : Apart (Stmt.caseOf info selector arms rest).nodes)
    (h : Leads (visitStmt (.caseOf info selector arms rest)) b () d) :
    ∃ a c ranges, CaseRun selector arms rest b a c d ranges ∧
      (ranges.length = (labelsOf arms).length → OneKind ranges →
        Alike c.notes (labelsOf arms) ranges →
          List.Forall₂ (Spans c.notes) (labelsOf arms) ranges ∧
          ∀ pre i ls l ls' body post, arms = pre ++ ⟨i, ls ++ l :: ls', body⟩ :: post →
            ∃ seen r later e f new, ranges = seen ++ r :: later ∧
              seen.length = (labelsOf pre ++ ls).length ∧
              Leads (throughLabels [] pre ls) a seen e ∧
              Leads (caseLabel seen l) e (seen ++ [r]) f ∧
              (∀ g ∈ new, ∃ x, g.complaint = .scope x) ∧
              f.errors.toList = e.errors.toList ++ new ++
                if ∃ q ∈ seen, ∃ x, q.Holds x ∧ r.Holds x then
                  [⟨e.path, l.info.line, .duplicateLabel r.low⟩]
                else []) := by
  obtain ⟨a, c, ranges, hrun⟩ := caseRun_iff.mp h
  refine ⟨a, c, ranges, hrun, fun hall hkind halike => ?_⟩
  have hnodes : (selector.nodes ++ partsOf arms).Sublist
      (Stmt.caseOf info selector arms rest).nodes := by
    have hparts := ((List.Sublist.refl selector.nodes).append (parts_sublist arms)).trans
      (List.sublist_append_left _ (stmtsNodes rest))
    exact .cons _ hparts
  have hb : Going last (selector.nodes ++ partsOf arms) b :=
    ⟨hb.level, hb.ready.subperm hnodes.subperm, hb.standing⟩
  have hapart : Apart (selector.nodes ++ partsOf arms) := fun x hx =>
    (hapart x (hnodes.subset hx)).subperm hnodes.subperm
  obtain ⟨-, ha⟩ := hb.step (fun n => (Marks.visitExpr (n := n) selector).lift) hrun.selector
  have hapart := hapart.right
  obtain ⟨_, rfl, -, hspans⟩ := throughArms_leads hrun.arms ha hapart
  refine ⟨hspans hall, ?_⟩
  rintro pre i ls l ls' body post rfl
  exact label_found ha hapart hrun.arms hall hkind halike

/-- The selector 1. -/
def oneSelector : Expr := .int { id := 1, line := 1 } 1 "1"

/-- Two arms with a label each. -/
def twoArms (first second : Expr) : List CaseArm :=
  let node (id : Nat) : NodeInfo := { id, line := 1 }
  [⟨node 7, [first], .empty (node 6)⟩, ⟨node 9, [second], .empty (node 8)⟩]

/-- A case statement with these arms. -/
def caseOn (first second : Expr) : Stmt :=
  .caseOf { id := 10, line := 1 } oneSelector (twoArms first second) []

/-- A program with this statement. -/
def caseProgram (first second : Expr) : Goal :=
  let node (id : Nat) : NodeInfo := { id, line := 1 }
  .program { info := node 13, name := "P",
             block := ⟨node 12, [], .compound (node 11) [caseOn first second]⟩ }

/-- The label 0. -/
def zeroLabel : Expr := .int { id := 2, line := 1 } 0 "0"

/-- The label `0..3`. -/
def rangeLabel : Expr :=
  .range { id := 5, line := 1 } (.int { id := 3, line := 1 } 0 "0")
    (.int { id := 4, line := 1 } 3 "3")

/-- The label `Low(Byte)`. -/
def lowLabel : Expr :=
  .call { id := 5, line := 1 } (.name { id := 3, line := 1 } "Low")
    (some [.name { id := 4, line := 1 } "Byte"])

/-- The state in which the statement with the labels 0 and `0..3` is bound. -/
def caseStart : Binding := { scopes := .initial {}, notes := .forTree 13 }

/-- The statement with its selector, arms and labels. -/
example : (caseOn zeroLabel rangeLabel).nodes.length = 10 := by decide +kernel

theorem going_caseStart : Going 13 (caseOn zeroLabel rangeLabel).nodes caseStart := by
  have hempty (k : Nat) : caseStart.notes.substitutes[k]? = none := Std.TreeMap.getElem?_emptyc
  refine ⟨.refl (by simp [caseStart, Scopes.initial]), ⟨?_, ?_, ?_, fun k _ => hempty k⟩,
    ⟨?_, fun k _ => hempty k, fun k r hr => ?_⟩⟩
  · decide
  · decide +kernel
  · decide +kernel
  · decide
  · rw [hempty] at hr
    cases hr

theorem overlapping_labels_found_range : Going 13 (caseOn zeroLabel rangeLabel).nodes caseStart ∧
    Apart (caseOn zeroLabel rangeLabel).nodes ∧
    ∃ d, Leads (visitStmt (caseOn zeroLabel rangeLabel)) caseStart () d ∧
      ∃ a c ranges,
        CaseRun oneSelector (twoArms zeroLabel rangeLabel) [] caseStart a c d ranges ∧
        ranges.length = (labelsOf (twoArms zeroLabel rangeLabel)).length ∧ OneKind ranges ∧
        Alike c.notes (labelsOf (twoArms zeroLabel rangeLabel)) ranges ∧
        List.Forall₂ (Spans c.notes) (labelsOf (twoArms zeroLabel rangeLabel)) ranges ∧
        ∃ (e f : Binding) (new : List Finding) (v : Integral),
          f.errors.toList = e.errors.toList ++ new ++ [⟨e.path, 1, .duplicateLabel v⟩] := by
  have hapart : Apart (caseOn zeroLabel rangeLabel).nodes := by decide +kernel
  have hends : ((visitStmt (caseOn zeroLabel rangeLabel)).run.run caseStart).1.isOk = true := by
    decide +kernel
  let labels : Bind (List CaseRange) := do
    visitExpr oneSelector
    throughArms [] (twoArms zeroLabel rangeLabel)
  have hvalues : (yieldsWith (labels.run.run caseStart).1 fun ranges =>
      ranges.map (fun r => (r.low, r.high)) ==
        [(.ofInt64 0, .ofInt64 0), (.ofInt64 0, .ofInt64 3)]) = true := by decide +kernel
  have hrange : ((labels.run.run caseStart).2.notes.integralOf rangeLabel).isOk = false := by
    decide +kernel
  generalize hrun : (visitStmt (caseOn zeroLabel rangeLabel)).run.run caseStart = run at hends
  obtain ⟨_ | _, d⟩ := run
  · cases hends
  obtain ⟨a, c, ranges, hcase, hfound⟩ := overlapping_labels_found going_caseStart hapart hrun
  have hboth : labels.run.run caseStart = (.ok ranges, c) :=
    Leads.bind_iff.mpr ⟨(), a, hcase.selector, hcase.arms⟩
  rw [hboth] at hvalues hrange
  obtain ⟨r, rest, rfl, hr, hrest⟩ := List.map_eq_cons_iff.mp (eq_of_beq hvalues)
  obtain ⟨q, rest, rfl, hq, hnil⟩ := List.map_eq_cons_iff.mp hrest
  obtain rfl := List.map_eq_nil_iff.mp hnil
  obtain ⟨hrl, hrh⟩ := Prod.mk.inj hr
  obtain ⟨hql, hqh⟩ := Prod.mk.inj hq
  have hranges : ∀ s ∈ [r, q],
      s.low = .ofInt64 0 ∧ (s.high = .ofInt64 0 ∨ s.high = .ofInt64 3) := by
    intro s hs
    obtain rfl | hs := List.mem_cons.mp hs
    · exact ⟨hrl, .inl hrh⟩
    · obtain rfl := List.mem_singleton.mp hs
      exact ⟨hql, .inr hqh⟩
  have hkind : OneKind [r, q] := by
    intro s hs t ht
    rw [(hranges s hs).1, (hranges t ht).1]
    decide
  have hsigned : ∀ s ∈ [r, q], ∀ v ∈ [s.low, s.high], v.signed = true := by
    intro s hs v hv
    obtain ⟨hlow, hhigh⟩ := hranges s hs
    obtain rfl | hv := List.mem_cons.mp hv
    · rw [hlow]
      rfl
    · obtain rfl := List.mem_singleton.mp hv
      obtain hhigh | hhigh := hhigh <;> rw [hhigh] <;> rfl
  have halike : Alike c.notes (labelsOf (twoArms zeroLabel rangeLabel)) [r, q] := by
    refine ⟨fun s hs t ht v hv w hw => ⟨fun _ h => ?_, fun _ h => ?_⟩, ?_⟩
    · rw [hsigned t ht w hw] at h
      cases h
    · rw [hsigned s hs v hv] at h
      cases h
    · have hlabel {l : Expr} {v : Integral} (hl : l ∈ labelsOf (twoArms zeroLabel rangeLabel))
          (hv : c.notes.integralOf l = .ok v) : l = zeroLabel := by
        obtain rfl | hl := List.mem_cons.mp hl
        · rfl
        · obtain rfl := List.mem_singleton.mp hl
          rw [hv] at hrange
          cases hrange
      intro l hl m hm v w hv hw _
      obtain rfl := hlabel hl hv
      obtain rfl := hlabel hm hw
      obtain ⟨t, ht, -⟩ := Annotations.integralOf_eq_ok.mp hv
      exact ⟨t, t, ht, ht, by simp [TypeExpr.same]⟩
  obtain ⟨hspans, hlabels⟩ := hfound rfl hkind halike
  refine ⟨going_caseStart, hapart, d, hrun, a, c, _, hcase, rfl, hkind, halike, hspans, ?_⟩
  obtain ⟨seen, r', later, e, f, new, hseen, hlength, -, -, -, herrors⟩ :=
    hlabels (twoArms zeroLabel rangeLabel |>.take 1) _ [] rangeLabel [] _ [] rfl
  refine ⟨e, f, new, r'.low, ?_⟩
  obtain ⟨first, rfl⟩ := List.length_eq_one_iff.mp hlength
  have hlater : [q] = r' :: later := (List.cons.inj hseen).2
  obtain rfl : r = first := (List.cons.inj hseen).1
  obtain rfl : q = r' := (List.cons.inj hlater).1
  have hfirst : r.Holds 0 := by
    rw [CaseRange.Holds, hrl, hrh]
    decide
  have hsecond : q.Holds 0 := by
    rw [CaseRange.Holds, hql, hqh]
    decide
  rw [herrors, if_pos ⟨r, List.mem_singleton_self r, 0, hfirst, hsecond⟩]
  rfl

/-- The call has as many parts as the range. -/
example : (caseOn zeroLabel lowLabel).nodes.length = 10 := by decide +kernel

/-- The labels 0 and `Low(Byte)` share the value 0, but their types differ, and nothing is
reported. -/
theorem lowLabel_not_found : ∃ c v w,
    ofGoal {} ∅ (caseProgram zeroLabel lowLabel) 13 = (.ok (), c) ∧ c.errors = #[] ∧
      c.notes.integralOf zeroLabel = .ok v ∧ c.notes.integralOf lowLabel = .ok w ∧
      v.sameKind w = true ∧ v.number = w.number := by
  have hends : endsWith (ofGoal {} ∅ (caseProgram zeroLabel lowLabel) 13) (fun c =>
      c.errors.isEmpty && yieldsWith (c.notes.integralOf zeroLabel) fun v =>
        yieldsWith (c.notes.integralOf lowLabel) fun w =>
          v.sameKind w && v.number == w.number) = true := by decide +kernel
  obtain ⟨c, hc, hends⟩ := exists_of_endsWith hends
  obtain ⟨hclean, hvalues⟩ := Bool.and_eq_true_iff.mp hends
  obtain ⟨v, hv, hvalues⟩ := exists_of_yieldsWith hvalues
  obtain ⟨w, hw, hvalues⟩ := exists_of_yieldsWith hvalues
  obtain ⟨hkind, hnumber⟩ := Bool.and_eq_true_iff.mp hvalues
  exact ⟨c, v, w, hc, by simpa using hclean, hv, hw, hkind, by simpa using hnumber⟩

end ObjectPascal.Binding
