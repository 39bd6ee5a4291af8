import Mathlib.Data.Set.Defs
import ObjectPascal.Proofs.Folding.Depth

/-!
Exact values. An expression of whole numbers, names of constants and the operators of arithmetic has
an exact value, or it divides by zero. Whatever folding records for such an expression is its exact
value, and every fold keeps it so.
-/

namespace ObjectPascal

/-- Whether an expression only names something. -/
def Expr.onlyNames : Expr → Bool
  | .ident .. | .name .. => true
  | _ => false

namespace Folding

open Annotations

variable {s : Scopes} {a c d : Annotations} {E : Set Expr} {active : List NodeInfo} {e x y : Expr}
  {n h k : Nat} {r : Option Int} {t lt rt : Option TypeExpr} {v : Constant}
  {α : Type}

/-- The exact value of an expression whose names are bound, or `none` if it divides by zero first.
All numbers on the way have 64 bits, with a sign. At most `h` constants lead to each other. -/
inductive Evaluates (a : Annotations) : Nat → Expr → Option Int → Prop
  | literal {h : Nat} {i : NodeInfo} {n : UInt64} {text : Text} (hn : n.toNat < 2 ^ 63) :
    Evaluates a h (.int i n text) (some n.toNat)
  | constant {h : Nat} {e x : Expr} {d : ConstDecl} {r : Option Int} (he : e.onlyNames = true)
    (hd : a.declOf e.info = some (.const d)) (hkind : d.kind ≠ .typed) (hx : d.value = some x)
    (hr : Evaluates a h (a.effective x) r) : Evaluates a (h + 1) e r
  | plus {h : Nat} {i : NodeInfo} {x : Expr} {r : Option Int}
    (hr : Evaluates a h (a.effective x) r) : Evaluates a h (.unary i .plus x) r
  | minus {h : Nat} {i : NodeInfo} {x : Expr} {r : Option Int}
    (hr : Evaluates a h (a.effective x) r) (hrange : ∀ n, r = some n → InRange (-n)) :
    Evaluates a h (.unary i .minus x) (r.map (-·))
  | broken {h : Nat} {i : NodeInfo} {op : BinaryOp} {x y : Expr} (hop : op ∈ BinaryOp.ofNumbers)
    (hx : Evaluates a h (a.effective x) none) : Evaluates a h (.binary i op x y) none
  | binary {h : Nat} {i : NodeInfo} {op : BinaryOp} {x y : Expr} {m : Int} {r : Option Int}
    (hop : op ∈ BinaryOp.ofNumbers) (hx : Evaluates a h (a.effective x) (some m))
    (hy : Evaluates a h (a.effective y) r)
    (hrange : ∀ n k, r = some n → op.exactly m n = some k → InRange k) :
    Evaluates a h (.binary i op x y) (r.bind (op.exactly m))

namespace Evaluates

/-- The exact value of a name is that of its constant. -/
theorem of_onlyNames (he : e.onlyNames = true) (hr : Evaluates a k e r) :
    ∃ j d x, k = j + 1 ∧ a.declOf e.info = some (.const d) ∧ d.kind ≠ .typed ∧
      d.value = some x ∧ Evaluates a j (a.effective x) r := by
  cases hr with
  | constant _ hd hkind hx hr => exact ⟨_, _, _, rfl, hd, hkind, hx, hr⟩
  | _ => cases he

/-- There is one exact value at most. -/
theorem unique {q : Option Int} (hr : Evaluates a h e r) (hq : Evaluates a k e q) : r = q := by
  induction hr generalizing k q with
  | literal hn =>
    cases hq with
    | literal => rfl
    | constant he => cases he
  | constant he hd _ hx _ ih =>
    obtain ⟨j, d', x', -, hd', -, hx', hq⟩ := hq.of_onlyNames he
    rw [hd] at hd'
    cases hd'
    rw [hx] at hx'
    cases hx'
    exact ih hq
  | plus _ ih =>
    cases hq with
    | constant he => cases he
    | plus hq => exact ih hq
  | minus _ _ ih =>
    cases hq with
    | constant he => cases he
    | minus hq => rw [ih hq]
  | broken _ _ ih =>
    cases hq with
    | constant he => cases he
    | broken => rfl
    | binary _ hq => cases ih hq
  | binary _ _ _ _ ihx ihy =>
    cases hq with
    | constant he => cases he
    | broken _ hq => cases ihx hq
    | binary _ hx hy =>
      cases ihx hx
      rw [ihy hy]

end Evaluates

/-- Expressions that folding does not leave, with numbers that tell them apart. Constants are told
apart as well. -/
structure Closed (a : Annotations) (E : Set Expr) : Prop where
  numbered : ∀ e ∈ E, e.info.id ≠ 0
  apart : ∀ e ∈ E, ∀ f ∈ E, e.info.id = f.info.id → e = f
  effective : ∀ e ∈ E, a.effective e ∈ E
  unary : ∀ i op x, .unary i op x ∈ E → x ∈ E
  binary : ∀ i op x y, .binary i op x y ∈ E → x ∈ E ∧ y ∈ E
  call : ∀ i callee x, .call i callee (some [x]) ∈ E → x ∈ E
  value : ∀ i d x, a.declOf i = some (.const d) → d.value = some x → x ∈ E
  constants : ∀ i j d f, a.declOf i = some (.const d) → a.declOf j = some (.const f) →
    d.info = f.info → d.value = f.value

/-- Names are as in `a`, and what is recorded for an expression is its exact value. -/
structure Sound (s : Scopes) (a : Annotations) (E : Set Expr) (c : Annotations) : Prop where
  names : a.SameNames c
  exact : ∀ e ∈ E, ∀ v, c.valueOf e.info = some v → ∀ h r, Evaluates a h e r →
    ∃ n, r = some n ∧ Denotes s n (c.typeOf e.info) v

/-- A fold that records exact values only, wherever it ends. -/
def Keeping (s : Scopes) (a : Annotations) (E : Set Expr) (m : Fold α) : Prop :=
  ∀ c, Sound s a E c → Ends m c (fun _ d => Sound s a E d) fun _ d => Sound s a E d

/-- A fold whose result agrees with the exact value of an expression. -/
def Agrees (s : Scopes) (a : Annotations) (E : Set Expr) (e : Expr) (m : Fold (Option Typed))
    (c : Annotations) : Prop :=
  Ends m c (fun x d => Sound s a E d ∧ ∀ y, x = some y → ∀ h r, Evaluates a h e r →
    ∃ n, r = some n ∧ Denotes s n y.1 y.2) fun _ d => Sound s a E d

namespace Sound

theorem typed_eq_of_update {f : Annotation → Annotation} {m : Node} (hu : c.update m f = .ok d)
    (hf : ∀ an, (f an).const = an.const ∧ (f an).type = an.type) (i : NodeInfo) :
    d.valueOf i = c.valueOf i ∧ d.typeOf i = c.typeOf i := by
  rw [valueOf, valueOf, Annotations.typeOf, Annotations.typeOf, (get?_of_update hu).2]
  split
  · rw [Option.bind_some, Option.bind_some, (hf _).1, (hf _).2]
    cases c.get? i <;> exact ⟨rfl, rfl⟩
  · exact ⟨rfl, rfl⟩

theorem of_refine {op : BinaryOp} (hc : Sound s a E c) (hd : c.refine e op = .ok d) :
    Sound s a E d := by
  refine ⟨hc.names.trans (Spared.of_refine hd).sameNames, fun f hf v hv => ?_⟩
  obtain ⟨hvalue, htype⟩ := typed_eq_of_update hd (fun _ => ⟨rfl, rfl⟩) f.info
  rw [hvalue] at hv
  rw [htype]
  exact hc.exact f hf v hv

/-- The exact value of an expression may be recorded. -/
theorem of_setConst (hE : Closed a E) (hc : Sound s a E c) (he : e ∈ E)
    (hd : c.setConst (.expr e) t v = .ok d)
    (hexact : ∀ h r, Evaluates a h e r → ∃ n, r = some n ∧ Denotes s n t v) : Sound s a E d := by
  have hupdate := update_of_setConst hd
  obtain ⟨hsub, hget⟩ := get?_of_update hupdate
  refine ⟨hc.names.trans ⟨hsub, declOf_of_update_same hupdate fun _ => rfl⟩, fun f hf w hw => ?_⟩
  by_cases hid : e.info.id = f.info.id
  · obtain rfl := hE.apart e he f hf hid
    have hvalue : d.get? e.info =
        some { (c.get? e.info).getD {} with type := t, const := some v } :=
      (hget e.info).trans (if_pos rfl)
    rw [valueOf, hvalue] at hw
    rw [Annotations.typeOf, hvalue]
    cases hw
    exact hexact
  · have hsame : d.get? f.info = c.get? f.info := (hget f.info).trans (if_neg hid)
    rw [valueOf, hsame] at hw
    rw [Annotations.typeOf, hsame]
    exact hc.exact f hf w hw

end Sound
namespace Keeping

variable {β : Type}

theorem pure (x : α) : Keeping s a E (Pure.pure x : Fold α) := fun _ hc => hc

theorem get_bind {f : Annotations → Fold β} (hf : ∀ c, Keeping s a E (f c)) :
    Keeping s a E (MonadState.get >>= f) := by
  intro c hc
  rw [Ends.bind_iff, Ends.get_iff]
  exact hf c c hc

theorem bind {m : Fold α} {f : α → Fold β} (hm : Keeping s a E m)
    (hf : ∀ x, Keeping s a E (f x)) : Keeping s a E (m >>= f) := by
  intro c hc
  rw [Ends.bind_iff]
  exact (hm c hc).mono (fun x d hd => hf x d hd) fun _ _ hd => hd

theorem typeOf (e : Expr) : Keeping s a E (Folding.typeOf e) := .get_bind fun _ => .pure _

theorem declOf (e : Expr) : Keeping s a E (Folding.declOf e) := .get_bind fun _ => .pure _

theorem typeArg (e : Expr) : Keeping s a E (Folding.typeArg s e) := by
  refine .bind (declOf e) fun d => ?_
  split <;> exact .pure _

theorem given (z : Except Complaint α) : Keeping s a E (given z) := by
  intro c hc
  cases z <;> exact hc

theorem comparison (e : Expr) (op : BinaryOp) (l r : Constant) :
    Keeping s a E (comparison s e op l r) := by
  have hrecord : Keeping s a E (record (·.refine e op.signed)) := by
    intro c hc
    unfold record
    rw [Ends.bind_iff, Ends.get_iff]
    split
    · exact hc.of_refine ‹_›
    · exact hc
  unfold Folding.comparison
  split
  · split
    · exact .bind hrecord fun _ => .pure _
    · exact .pure _
  · exact .pure _

theorem binary (e : Expr) (op : BinaryOp) (l r : Constant) :
    Keeping s a E (binary s e op lt rt l r) := by
  unfold Folding.binary
  split
  · exact comparison e op l r
  · exact given _
  · exact given _
  · exact .pure _
  · exact .pure _

theorem call (callee : Expr) {m : Fold (Option Constant)} (hm : Keeping s a E m) :
    Keeping s a E (call s callee x m) := by
  refine .bind (declOf callee) fun d => ?_
  split
  · split
    · exact .pure _
    · dsimp only
      split
      · refine .bind (typeArg x) fun t => ?_
        split <;> exact .pure _
      · split
        · exact .bind (typeArg x) fun t => .pure _
        · refine .bind hm fun v => ?_
          split
          · exact .pure _
          · exact .bind (typeOf x) fun _ => .pure _
  · exact .pure _

theorem part {again : Elsewhere} (hagain : Keeping s a E (again active x)) {itself : Fold _}
    (hi : Keeping s a E itself) : Keeping s a E (part again active x itself) := by
  refine .get_bind fun c => ?_
  split
  · exact hagain
  · exact hi

/-- The value that is found for an expression is the exact one, and remains so. -/
theorem found {m : Fold (Option Constant)} (hm : Keeping s a E m) (hf : Finds s x m)
    (hx : a.effective x ∈ E) (hc : Sound s a E c) :
    Ends m c (fun v d => Sound s a E d ∧ c.Extends d ∧ ∀ w, v = some w → ∀ b, d.Extends b →
      Sound s a E b → ∀ h r, Evaluates a h (a.effective x) r →
        ∃ n, r = some n ∧ Denotes s n (b.typeOf (b.effective x).info) w)
      fun _ d => Sound s a E d := by
  refine ((hm c hc).and (hf.ends c)).mono (fun v d hd => ?_) fun _ _ hd => hd.1
  obtain ⟨hsound, hextends, hvalue⟩ := hd
  refine ⟨hsound, hextends, fun w hw b hdb hb h r hr => ?_⟩
  have hrecorded := hvalue w hw b hdb
  rw [hb.names.effective] at hrecorded ⊢
  exact hb.exact _ hx w hrecorded h r hr

end Keeping

theorem Evaluates.of_unary {i : NodeInfo} {op : UnaryOp} (hr : Evaluates a h (.unary i op x) r) :
    ∃ q, Evaluates a h (a.effective x) q ∧ (op = .plus ∧ r = q ∨
      op = .minus ∧ r = q.map (-·) ∧ ∀ n, q = some n → InRange (-n)) := by
  cases hr with
  | constant he => cases he
  | plus hr => exact ⟨_, hr, .inl ⟨rfl, rfl⟩⟩
  | minus hr hrange => exact ⟨_, hr, .inr ⟨rfl, rfl, hrange⟩⟩

theorem Evaluates.of_binary {i : NodeInfo} {op : BinaryOp}
    (hr : Evaluates a h (.binary i op x y) r) : op ∈ BinaryOp.ofNumbers ∧
      (Evaluates a h (a.effective x) none ∧ r = none ∨
        ∃ m q, Evaluates a h (a.effective x) (some m) ∧ Evaluates a h (a.effective y) q ∧
          r = q.bind (op.exactly m) ∧ ∀ n k, q = some n → op.exactly m n = some k → InRange k) := by
  cases hr with
  | constant he => cases he
  | broken hop hx => exact ⟨hop, .inl ⟨hx, rfl⟩⟩
  | binary hop hx hy hrange => exact ⟨hop, .inr ⟨_, _, hx, hy, rfl, hrange⟩⟩

theorem binary_of_numbers {op : BinaryOp} (hop : op ∈ BinaryOp.ofNumbers) (l r : Constant) :
    binary s e op lt rt l r = given (arithmetic s op lt rt l r) := by
  have hcategory : op.category = .arithmetic := by
    revert op
    decide
  simp only [binary, hcategory]

namespace Agrees

variable {again : Elsewhere}

theorem nothing (hc : Sound s a E c) : Agrees s a E e (pure none) c := ⟨hc, nofun⟩

/-- A fold for an expression that has no exact value. -/
theorem of_keeping {m : Fold (Option Typed)} (hm : Keeping s a E m) (hc : Sound s a E c)
    (hnone : ∀ h r, ¬Evaluates a h e r) : Agrees s a E e m c :=
  (hm c hc).mono (fun _ _ hd => ⟨hd, fun _ _ h r hr => absurd hr (hnone h r)⟩) fun _ _ hd => hd

theorem some_of {z : Typed} (hc : Sound s a E c) (hz : ∀ h r, Evaluates a h e r →
    ∃ n, r = some n ∧ Denotes s n z.1 z.2) : Agrees s a E e (pure (some z)) c := by
  refine ⟨hc, fun y hy => ?_⟩
  cases hy
  exact hz

theorem given {z : Except Complaint (Option Typed)} (hc : Sound s a E c)
    (hz : ∀ y, z = .ok (some y) → ∀ h r, Evaluates a h e r →
      ∃ n, r = some n ∧ Denotes s n y.1 y.2) : Agrees s a E e (given z) c := by
  cases z with
  | error _ => exact hc
  | ok z => exact ⟨hc, fun y hy => hz y (by rw [hy])⟩

theorem named (hE : Closed a E) (hagain : ∀ active, ∀ x ∈ E, Keeping s a E (again active x))
    (hfinds : ∀ active x, Finds s x (again active x)) (he : e.onlyNames = true)
    (hc : Sound s a E c) : Agrees s a E e (named again active e) c := by
  unfold Agrees Folding.named
  rw [Ends.bind_iff, Ends.get_iff, hc.names.declOf]
  split
  · rename_i d hd
    split
    · exact nothing hc
    · split
      · exact nothing hc
      · rename_i x hx
        have hmem := hE.value _ d x hd hx
        rw [Ends.bind_iff]
        refine ((hagain _ x hmem).found (hfinds _ x) (hE.effective x hmem) hc).mono
          (fun v b hb => ?_) fun _ _ hd => hd
        obtain ⟨hsound, -, hvalue⟩ := hb
        split
        · exact nothing hsound
        · refine some_of hsound fun h r hr => ?_
          obtain ⟨j, d', x', -, hd', -, hx', hr⟩ := hr.of_onlyNames he
          rw [hd] at hd'
          cases hd'
          rw [hx] at hx'
          cases hx'
          exact hvalue _ rfl b (.refl b) hsound j r hr
  · rename_i m hm
    refine of_keeping (.get_bind fun _ => .pure _) hc fun h r hr => ?_
    obtain ⟨_, _, _, -, hd, -⟩ := hr.of_onlyNames he
    rw [hm] at hd
    cases hd
  · exact nothing hc

theorem unary {i : NodeInfo} {op : UnaryOp} {m : Fold (Option Constant)} (hm : Keeping s a E m)
    (hf : Finds s x m) (hx : a.effective x ∈ E) (hc : Sound s a E c) :
    Agrees s a E (.unary i op x) (do
      match ← m with
      | none => return none
      | some v => return Folding.unary s op (← Folding.typeOf x) v) c := by
  unfold Agrees
  rw [Ends.bind_iff]
  refine (hm.found hf hx hc).mono (fun v b hb => ?_) fun _ _ hd => hd
  obtain ⟨hsound, -, hvalue⟩ := hb
  split
  · exact nothing hsound
  · refine ⟨hsound, fun z hz h r hr => ?_⟩
    obtain ⟨q, hq, hr⟩ := hr.of_unary
    obtain ⟨n, rfl, hn⟩ := hvalue _ rfl b (.refl b) hsound h q hq
    obtain ⟨rfl, rfl⟩ | ⟨rfl, rfl, hrange⟩ := hr
    · cases hz
      exact ⟨n, rfl, hn⟩
    · obtain ⟨z', hz', hdenotes⟩ := denotes_minus hn (hrange n rfl)
      cases hz.symm.trans hz'
      exact ⟨-n, rfl, hdenotes⟩

theorem binary (hE : Closed a E) {i : NodeInfo} {op : BinaryOp} {m k : Fold (Option Constant)}
    (hm : Keeping s a E m) (hfm : Finds s x m) (hx : x ∈ E) (hk : Keeping s a E k)
    (hfk : Finds s y k) (hy : y ∈ E) (hc : Sound s a E c) :
    Agrees s a E (.binary i op x y) (do
      match ← m with
      | none => return none
      | some l =>
        match ← k with
        | none => return none
        | some r =>
          Folding.binary s (.binary i op x y) op (← Folding.typeOf x) (← Folding.typeOf y) l r)
      c := by
  unfold Agrees
  rw [Ends.bind_iff]
  refine (hm.found hfm (hE.effective x hx) hc).mono (fun l b hb => ?_) fun _ _ hd => hd
  obtain ⟨hsound, -, hl⟩ := hb
  split
  · exact nothing hsound
  · rename_i l
    rw [Ends.bind_iff]
    refine (hk.found hfk (hE.effective y hy) hsound).mono (fun r d hd => ?_) fun _ _ hd => hd
    obtain ⟨hsound', hextends, hr⟩ := hd
    split
    · exact nothing hsound'
    · rename_i r
      by_cases hop : op ∈ BinaryOp.ofNumbers
      · rw [Ends.bind_iff, typeOf_iff, Ends.bind_iff, typeOf_iff, binary_of_numbers hop]
        refine given hsound' fun z hz h p hp => ?_
        obtain ⟨hnone, rfl⟩ | ⟨m, q, hm, hq, rfl, hrange⟩ := hp.of_binary.2
        · obtain ⟨n, hn, -⟩ := hl l rfl d hextends hsound' h none hnone
          cases hn
        · obtain ⟨m', hm', hl⟩ := hl l rfl d hextends hsound' h _ hm
          cases hm'
          obtain ⟨n, rfl, hr⟩ := hr r rfl d (.refl d) hsound' h q hq
          obtain ⟨hsome, hnone⟩ := arithmetic_exactly hop hl hr
          cases hexact : op.exactly m n with
          | none => cases hz.symm.trans (hnone hexact)
          | some k =>
            obtain ⟨z', hz', hdenotes⟩ := hsome k hexact (hrange n k rfl hexact)
            cases hz.symm.trans hz'
            exact ⟨k, by rw [Option.bind_some, hexact], hdenotes⟩
      · refine of_keeping (.bind (.typeOf x) fun _ => .bind (.typeOf y) fun _ => ?_) hsound' ?_
        · exact .binary _ op l r
        exact fun h q hq => hop hq.of_binary.1

end Agrees

section Visits

variable {again : Elsewhere}

/-- What agrees with the exact value of an expression may be recorded for it. -/
theorem keeping_recorded (hE : Closed a E) (he : e ∈ E)
    {m : Fold (Option Typed)} (hm : ∀ c, Sound s a E c → Agrees s a E e m c) :
    Keeping s a E (recorded e m) := by
  intro c hc
  unfold recorded
  rw [Ends.bind_iff, Ends.get_iff]
  split
  · exact hc
  · rw [Ends.bind_iff]
    refine (hm c hc).mono (fun z d hd => ?_) fun _ _ hd => hd
    obtain ⟨hsound, hexact⟩ := hd
    split
    · exact hsound
    · rename_i t v
      unfold record
      rw [Ends.bind_iff, Ends.bind_iff, Ends.get_iff]
      split
      · exact hsound.of_setConst hE he ‹_› (hexact _ rfl)
      · exact hsound

theorem keeping_visit (hE : Closed a E)
    (hagain : ∀ active, ∀ x ∈ E, Keeping s a E (again active x))
    (hfinds : ∀ active x, Finds s x (again active x)) (he : e ∈ E) :
    Keeping s a E (visit s again active e) := by
  have hpart (x : Expr) : Finds s x (part again active x (visit s again active x)) :=
    finds_part hfinds x fun _ => records_visit hfinds x
  induction e using Folding.visit.induct with
  | case1 e ih =>
    unfold visit
    refine keeping_recorded hE he fun c hc => ?_
    split
    · refine .some_of hc fun h r hr => ?_
      cases hr with
      | literal hn => exact ⟨_, rfl, denotes_literal s hn⟩
      | constant he => cases he
    · exact .of_keeping (.pure _) hc fun _ _ h => by
        cases h with | constant he => cases he
    · exact .of_keeping (.pure _) hc fun _ _ h => by
        cases h with | constant he => cases he
    · exact .of_keeping (.pure _) hc fun _ _ h => by
        cases h with | constant he => cases he
    · exact .of_keeping (.pure _) hc fun _ _ h => by
        cases h with | constant he => cases he
    · exact .named hE hagain hfinds rfl hc
    · exact .named hE hagain hfinds rfl hc
    · rename_i i op x
      have hx := hE.unary i op x he
      exact .unary (.part (hagain active x hx) (ih hx)) (hpart x) (hE.effective x hx) hc
    · rename_i i op x y
      obtain ⟨hx, hy⟩ := hE.binary i op x y he
      exact .binary hE (.part (hagain active x hx) (ih.1 hx)) (hpart x) hx
        (.part (hagain active y hy) (ih.2 hy)) (hpart y) hy hc
    · rename_i i callee x
      have hx := hE.call i callee x he
      exact .of_keeping (.call callee (.part (hagain active x hx) (ih hx))) hc
        fun _ _ h => by cases h with | constant he => cases he
    · rename_i hint _ _ _ _ hident hname hunary hbinary _
      refine .of_keeping (.pure _) hc fun h r hr => ?_
      cases hr with
      | literal => exact hint _ _ _ rfl
      | constant he =>
        unfold Expr.onlyNames at he
        split at he
        · exact hident _ _ rfl
        · exact hname _ _ rfl
        · cases he
      | plus => exact hunary _ _ _ rfl
      | minus => exact hunary _ _ _ rfl
      | broken => exact hbinary _ _ _ _ rfl
      | binary => exact hbinary _ _ _ _ rfl

theorem keeping_foldWithin (hE : Closed a E) (n : Nat) (he : e ∈ E) :
    Keeping s a E (foldWithin s n active e) := by
  induction n generalizing active e with
  | zero => exact .pure _
  | succ n ih =>
    intro c hc
    unfold foldWithin
    rw [Ends.bind_iff, Ends.get_iff, hc.names.effective]
    exact keeping_visit hE (fun active x hx => ih hx) (finds_foldWithin n)
      (hE.effective e he) c hc

theorem keeping_fold (hE : Closed a E) (he : e ∈ E) :
    Keeping s a E (fold s e) := by
  intro c hc
  unfold fold
  rw [Ends.bind_iff, Ends.get_iff]
  exact keeping_foldWithin hE _ he c hc

end Visits

end Folding
end ObjectPascal
