import Mathlib.Data.Nat.Find
import ObjectPascal.Proofs.Folding.Comparison
import ObjectPascal.Proofs.Folding.Evaluation

/-!
Folding is exact. It finds the exact value of an expression of whole numbers if there is one, and it
complains about the division by zero if there is none, whatever has been folded before.
-/

namespace ObjectPascal.Folding

open Annotations

variable {s : Scopes} {a c d : Annotations} {E : Set Expr} {active : List NodeInfo} {e x y : Expr}
  {n h k : Nat} {r : Option Int} {t : Option TypeExpr} {v : Constant} {α : Type}

/-- Folding stops because of the division by zero that leaves an expression without exact value. -/
def Divides (r : Option Int) (stop : Stop) : Prop := r = none ∧ stop = .complaint .divisionByZero

/-- A fold that finds a value if there is an exact one, and else stops at the division by zero. -/
def Settles (r : Option Int) (m : Fold (Option Constant)) (c : Annotations) : Prop :=
  Ends m c (fun v _ => r.isSome = true ∧ v.isSome = true) fun stop _ => Divides r stop

/-- A fold that finds the exact value, if there is one, with its type. -/
def Yields (s : Scopes) (r : Option Int) (m : Fold (Option Typed)) (c : Annotations) : Prop :=
  Ends m c (fun z _ => ∃ n y, r = some n ∧ z = some y ∧ Denotes s n y.1 y.2)
    fun stop _ => Divides r stop

/-- A fold that finds the exact value of an expression, if there is one, and this value remains
recorded. -/
def Gives (s : Scopes) (a : Annotations) (E : Set Expr) (x : Expr) (r : Option Int)
    (m : Fold (Option Constant)) : Prop :=
  ∀ c, Sound s a E c → Ends m c
    (fun v d => Sound s a E d ∧ c.Extends d ∧ ∃ n w, r = some n ∧ v = some w ∧
      ∀ b, d.Extends b → Sound s a E b → Denotes s n (b.typeOf (b.effective x).info) w)
    fun stop _ => Divides r stop

theorem gives_of_settles {m : Fold (Option Constant)} (hm : Keeping s a E m) (hf : Finds s x m)
    (hx : a.effective x ∈ E) (hr : Evaluates a h (a.effective x) r)
    (hsettles : ∀ c, Sound s a E c → Settles r m c) : Gives s a E x r m := by
  intro c hc
  refine ((hm.found hf hx hc).and (hsettles c hc)).mono (fun v d hd => ?_) fun _ _ hd => hd.2
  obtain ⟨⟨hsound, hextends, hvalue⟩, hsome, hfound⟩ := hd
  obtain ⟨w, rfl⟩ := Option.isSome_iff_exists.mp hfound
  obtain ⟨n, rfl⟩ := Option.isSome_iff_exists.mp hsome
  refine ⟨hsound, hextends, n, w, rfl, rfl, fun b hdb hb => ?_⟩
  obtain ⟨_, hn, hdenotes⟩ := hvalue w rfl b hdb hb h _ hr
  cases hn
  exact hdenotes

theorem fits_of_denotes (hs : s.Standard) {n : Int} (h : Denotes s n t v) : v.fits t = true := by
  obtain ⟨x, rfl, -⟩ := h.value
  obtain ⟨rfl, -⟩ | rfl := h.type
  · exact fits_integral hs (by simp)
  · exact fits_integral hs (by simp)

theorem settles_recorded (hs : s.Standard) (hE : Closed a E) (he : e ∈ E)
    (hr : Evaluates a h e r) (hc : Sound s a E c) {m : Fold (Option Typed)}
    (hm : Yields s r m c) : Settles r (recorded e m) c := by
  unfold Settles recorded
  rw [Ends.bind_iff, Ends.get_iff]
  split
  · rename_i v hv
    obtain ⟨n, rfl, -⟩ := hc.exact e he v hv h r hr
    exact ⟨rfl, rfl⟩
  · rw [Ends.bind_iff]
    refine hm.mono (fun z d hd => ?_) fun _ _ hd => hd
    obtain ⟨n, y, rfl, rfl, hdenotes⟩ := hd
    obtain ⟨b, hb⟩ := exists_setConst d (n := .expr e) (hE.numbered e he)
      (fits_of_denotes hs hdenotes)
    dsimp only
    unfold record
    rw [Ends.bind_iff, Ends.bind_iff, Ends.get_iff]
    simp only [hb]
    exact ⟨rfl, rfl⟩

namespace Gives

variable {m l : Fold (Option Constant)}

theorem congr (ha : Same a m l) (hl : Gives s a E x r l) : Gives s a E x r m := by
  intro c hc
  have hrun := hl c hc
  unfold Ends at hrun ⊢
  rwa [ha c hc.names]

theorem named {again : Elsewhere} {d : ConstDecl} (hd : a.declOf e.info = some (.const d))
    (hkind : d.kind ≠ .typed) (hx : d.value = some x) (hfree : d.info ∉ active)
    (hg : Gives s a E x r (again (d.info :: active) x)) (hc : Sound s a E c) :
    Yields s r (named again active e) c := by
  unfold Yields Folding.named
  rw [Ends.bind_iff, Ends.get_iff, hc.names.declOf, hd]
  simp only [beq_iff_eq, hkind, List.contains_iff_mem, hfree, hx, Bool.or_eq_true, or_self,
    if_false]
  rw [Ends.bind_iff]
  refine (hg c hc).mono (fun v b hb => ?_) fun _ _ hd => hd
  obtain ⟨hsound, -, n, w, rfl, rfl, hdenotes⟩ := hb
  exact ⟨n, _, rfl, rfl, hdenotes b (.refl b) hsound⟩

theorem plus (hg : Gives s a E x r m) (hc : Sound s a E c) : Yields s r (do
      match ← m with
      | none => return none
      | some v => return unary s .plus (← typeOf x) v) c := by
  unfold Yields
  rw [Ends.bind_iff]
  refine (hg c hc).mono (fun v b hb => ?_) fun _ _ hd => hd
  obtain ⟨hsound, -, n, w, rfl, rfl, hdenotes⟩ := hb
  exact ⟨n, _, rfl, rfl, hdenotes b (.refl b) hsound⟩

theorem minus (hg : Gives s a E x r m) (hrange : ∀ n, r = some n → InRange (-n))
    (hc : Sound s a E c) : Yields s (r.map (-·)) (do
      match ← m with
      | none => return none
      | some v => return unary s .minus (← typeOf x) v) c := by
  unfold Yields
  rw [Ends.bind_iff]
  refine (hg c hc).mono (fun v b hb => ?_) fun stop _ hd => ?_
  · obtain ⟨hsound, -, n, w, rfl, rfl, hdenotes⟩ := hb
    obtain ⟨y, hy, hminus⟩ := denotes_minus (hdenotes b (.refl b) hsound) (hrange n rfl)
    exact ⟨-n, y, rfl, hy, hminus⟩
  · obtain ⟨rfl, rfl⟩ := hd
    exact ⟨rfl, rfl⟩

/-- If the left operand divides by zero, the right one does not matter. -/
theorem broken (hg : Gives s a E x none m) {f : Option Constant → Fold (Option Typed)}
    (hc : Sound s a E c) : Yields s none (m >>= f) c := by
  unfold Yields
  rw [Ends.bind_iff]
  refine (hg c hc).mono (fun v b hb => ?_) fun _ _ hd => hd
  obtain ⟨-, -, n, -, hn, -⟩ := hb
  cases hn

theorem binary {i : NodeInfo} {op : BinaryOp} {p : Int} (hop : op ∈ BinaryOp.ofNumbers)
    (hm : Gives s a E x (some p) m) (hl : Gives s a E y r l)
    (hrange : ∀ n k, r = some n → op.exactly p n = some k → InRange k) (hc : Sound s a E c) :
    Yields s (r.bind (op.exactly p)) (do
      match ← m with
      | none => return none
      | some v =>
        match ← l with
        | none => return none
        | some w =>
          Folding.binary s (.binary i op x y) op (← typeOf x) (← typeOf y) v w) c := by
  unfold Yields
  rw [Ends.bind_iff]
  refine (hm c hc).mono (fun v b hb => ?_) fun stop _ hd => nomatch hd.1
  obtain ⟨hsound, -, _, w, hp, rfl, hleft⟩ := hb
  cases hp
  dsimp only
  rw [Ends.bind_iff]
  refine (hl b hsound).mono (fun v d hd => ?_) fun stop _ hd => ?_
  · obtain ⟨hsound', hextends, n, z, rfl, rfl, hright⟩ := hd
    obtain ⟨hsome, hnone⟩ := arithmetic_exactly hop (hleft d hextends hsound')
      (hright d (.refl d) hsound')
    dsimp only
    rw [Ends.bind_iff, typeOf_iff, Ends.bind_iff, typeOf_iff, binary_of_numbers hop]
    cases hexact : op.exactly p n with
    | none =>
      rw [hnone hexact]
      exact ⟨by rw [Option.bind_some, hexact], rfl⟩
    | some k =>
      obtain ⟨q, hq, hdenotes⟩ := hsome k hexact (hrange n k rfl hexact)
      rw [hq]
      exact ⟨k, q, by rw [Option.bind_some, hexact], rfl, hdenotes⟩
  · obtain ⟨rfl, rfl⟩ := hd
    exact ⟨rfl, rfl⟩

end Gives

/-- None of the constants that are being folded has an exact value through less than `h` further
ones, so that an expression with an exact value through `h` constants needs none of them. -/
def Free (a : Annotations) (active : List NodeInfo) (h : Nat) : Prop :=
  ∀ i d x, a.declOf i = some (.const d) → d.info ∈ active → d.value = some x →
    ∀ j < h, ∀ r, ¬Evaluates a j (a.effective x) r

/-- A constant with an exact value has it through as few constants as possible, and so does not need
itself. -/
theorem exists_free (hE : Closed a E) (hf : Free a active (h + 1)) {i : NodeInfo} {f : ConstDecl}
    (hd : a.declOf i = some (.const f)) (hx : f.value = some x)
    (hr : Evaluates a h (a.effective x) r) : f.info ∉ active ∧
      ∃ j ≤ h, Evaluates a j (a.effective x) r ∧ Free a (f.info :: active) j := by
  refine ⟨fun hmem => hf i f x hd hmem hx h (Nat.lt_succ_self h) r hr, ?_⟩
  obtain ⟨j, ⟨q, hq⟩, hleast⟩ : ∃ j, (∃ q, Evaluates a j (a.effective x) q) ∧
      ∀ k < j, ¬∃ q, Evaluates a k (a.effective x) q := by
    classical
    have hex : ∃ j q, Evaluates a j (a.effective x) q := ⟨h, r, hr⟩
    exact ⟨Nat.find hex, Nat.find_spec hex, fun k hk => Nat.find_min hex hk⟩
  have hj : j ≤ h := Nat.le_of_not_lt fun hlt => hleast h hlt ⟨r, hr⟩
  refine ⟨j, hj, hr.unique hq ▸ hq, fun i' f' x' hd' hmem hx' k hk q hq => ?_⟩
  obtain hsame | hmem := List.mem_cons.mp hmem
  · rw [hE.constants i' i f' f hd' hd hsame, hx] at hx'
    cases hx'
    exact hleast k hk ⟨q, hq⟩
  · exact hf i' f' x' hd' hmem hx' k (by omega) q hq

/-- What is found by visiting what stands in for an expression is found by folding it. -/
theorem gives_foldWithin (hE : Closed a E) (ha : a.Bare) (hn : Enough a active n) (hx : x ∈ E)
    (hr : Evaluates a h (a.effective x) r)
    (hvisit : ∀ c, Sound s a E c → Settles r (visit s (foldWithin s n) active (a.effective x)) c) :
    Gives s a E x r (foldWithin s n active x) := by
  refine gives_of_settles (keeping_foldWithin hE n hx) (finds_foldWithin n active x)
    (hE.effective x hx) hr fun c hc => ?_
  have hsettles := hvisit c hc
  unfold Settles Ends at hsettles ⊢
  rw [foldWithin_eq ha hn (Nat.le_succ n) x c hc.names]
  unfold foldWithin
  rwa [Same.get_run, hc.names.effective]

theorem gives_part (hE : Closed a E) (ha : a.Bare) (hn : Enough a active n) (hx : x ∈ E)
    (hr : Evaluates a h (a.effective x) r)
    (hvisit : ∀ c, Sound s a E c → Settles r (visit s (foldWithin s n) active (a.effective x)) c) :
    Gives s a E x r (part (foldWithin s n) active x (visit s (foldWithin s n) active x)) :=
  .congr (part_within ha hn x) (gives_foldWithin hE ha hn hx hr hvisit)

/-- Visiting an expression with an exact value finds it, or it stops at the division by zero. The
induction is on how many constants lead to each other, and for each on how the value comes about. -/
theorem settles_visit (hs : s.Standard) (hE : Closed a E) (ha : a.Bare)
    (hr : Evaluates a h e r) (he : e ∈ E) (hn : Enough a active n) (hf : Free a active h)
    (hc : Sound s a E c) : Settles r (visit s (foldWithin s n) active e) c := by
  induction h using Nat.strongRecOn generalizing active e r c with
  | _ h ihh =>
    have hwhole := hr
    induction hr generalizing c with
    | literal hlt =>
      unfold visit
      exact settles_recorded hs hE he hwhole hc ⟨_, _, rfl, rfl, denotes_literal s hlt⟩
    | @constant h e x d r honly hd hkind hx hr =>
      have hmem := hE.value _ d x hd hx
      obtain ⟨hfree, j, hj, hrj, hfj⟩ := exists_free hE hf hd hx hr
      have hn' : Enough a (d.info :: active) n := (hn.cons hd hfree).mono (Nat.sub_le _ _)
      have hgives := gives_foldWithin (s := s) hE ha hn' hmem hrj fun c hc =>
        ihh j (Nat.lt_succ_of_le hj) hrj (hE.effective x hmem) hn' hfj hc
      have hyields := hgives.named (e := e) hd hkind hx hfree hc
      unfold visit
      refine settles_recorded hs hE he hwhole hc ?_
      unfold Expr.onlyNames at honly
      split at honly
      · exact hyields
      · exact hyields
      · cases honly
    | @plus h i x r hr ih =>
      have hx := hE.unary i _ x he
      unfold visit
      exact settles_recorded hs hE he hwhole hc ((gives_part hE ha hn hx hr fun c hc =>
        ih ihh (hE.effective x hx) hf hc hr).plus hc)
    | @minus h i x r hr hrange ih =>
      have hx := hE.unary i _ x he
      unfold visit
      exact settles_recorded hs hE he hwhole hc ((gives_part hE ha hn hx hr fun c hc =>
        ih ihh (hE.effective x hx) hf hc hr).minus hrange hc)
    | @broken h i op x y hop hr ih =>
      have hx := (hE.binary i op x y he).1
      unfold visit
      exact settles_recorded hs hE he hwhole hc ((gives_part hE ha hn hx hr fun c hc =>
        ih ihh (hE.effective x hx) hf hc hr).broken hc)
    | @binary h i op x y m r hop hrx hry hrange ihx ihy =>
      obtain ⟨hx, hy⟩ := hE.binary i op x y he
      have hleft := gives_part hE ha hn hx hrx fun c hc =>
        ihx ihh (hE.effective x hx) hf hc hrx
      have hright := gives_part hE ha hn hy hry fun c hc =>
        ihy ihh (hE.effective y hy) hf hc hry
      unfold visit
      exact settles_recorded hs hE he hwhole hc (hleft.binary hop hright hrange hc)

/-- What is known after some expressions have been folded, whatever came of it. -/
inductive Folded (s : Scopes) (E : Set Expr) (a : Annotations) : Annotations → Prop
  | nothing : Folded s E a a
  | more {b : Annotations} {e : Expr} (hb : Folded s E a b) (he : e ∈ E) :
    Folded s E a ((fold s e).run.run b).2

theorem sound_of_ends {m : Fold α}
    (hm : Ends m c (fun _ d => Sound s a E d) fun _ d => Sound s a E d) :
    Sound s a E (m.run.run c).2 := by
  unfold Ends at hm
  generalize m.run.run c = z at hm
  obtain ⟨_ | _, d⟩ := z <;> exact hm

/-- Whatever has been folded, what is recorded are exact values. -/
theorem sound_of_folded (hE : Closed a E) (hnew : ∀ e ∈ E, a.valueOf e.info = none)
    (h : Folded s E a c) : Sound s a E c := by
  induction h with
  | nothing =>
    refine ⟨.refl a, fun e he v hv => ?_⟩
    rw [hnew e he] at hv
    cases hv
  | more _ he ih => exact sound_of_ends (keeping_fold hE he _ ih)

/-- The constant 2 ^ 31 - 1 under a name. -/
def largest : ConstDecl :=
  { info := { id := 2, line := 1 }, name := "N", value := some (whole 1 0x7FFFFFFF) }

/-- The name of this constant. -/
def largestName : Expr := .name { id := 3, line := 1 } "N"

/-- The identifier that stands in for the name. -/
def largestIdent : Expr := .ident { id := 6, line := 1 } "N"

/-- The sum of the constant and 1. -/
def afterLargest : Expr := .binary { id := 5, line := 1 } .add largestName (whole 4 1)

/-- The sum with its parts, and the value of the constant. -/
def sumParts : Set Expr :=
  fun e => e ∈ [whole 1 0x7FFFFFFF, largestName, whole 4 1, afterLargest, largestIdent]

/-- What is known when the name is bound. -/
def sumNotes : Annotations :=
  { Annotations.forTree 5 with
    notes := (({} : Std.TreeMap Nat Annotation).insert 3 { decl := some (.const largest) }).insert 6
      { decl := some (.const largest) }
    substitutes := ({} : Std.TreeMap Nat Expr).insert 3 largestIdent }

theorem eq_largest {i : NodeInfo} {f : ConstDecl} (h : sumNotes.declOf i = some (.const f)) :
    f = largest := by
  unfold sumNotes Annotations.declOf get? at h
  rw [Std.TreeMap.getElem?_insert, Std.TreeMap.getElem?_insert] at h
  split at h
  · cases h
    rfl
  · split at h
    · cases h
      rfl
    · rw [Std.TreeMap.getElem?_emptyc] at h
      cases h

theorem mem_sumParts : e ∈ sumParts ↔ e = whole 1 0x7FFFFFFF ∨ e = largestName ∨ e = whole 4 1 ∨
    e = afterLargest ∨ e = largestIdent := by
  change e ∈ List.cons _ _ ↔ _
  simp only [List.mem_cons, List.not_mem_nil, or_false]

theorem effective_largestName : sumNotes.effective largestName = largestIdent := rfl

theorem effective_sumNotes (he : e ∈ sumParts) : e = largestName ∨ sumNotes.effective e = e := by
  obtain rfl | rfl | rfl | rfl | rfl := mem_sumParts.mp he
  · exact .inr (effective_of_not_contains rfl)
  · exact .inl rfl
  · exact .inr (effective_of_not_contains rfl)
  · exact .inr (effective_of_not_contains rfl)
  · exact .inr (effective_of_not_contains rfl)

theorem closed_sumParts : Closed sumNotes sumParts where
  numbered e he := by
    obtain rfl | rfl | rfl | rfl | rfl := mem_sumParts.mp he <;> decide
  apart e he f hf hid := by
    obtain rfl | rfl | rfl | rfl | rfl := mem_sumParts.mp he <;>
      obtain rfl | rfl | rfl | rfl | rfl := mem_sumParts.mp hf <;>
      first | rfl | exact absurd hid (by decide)
  effective e he := by
    obtain rfl | heffective := effective_sumNotes he
    · rw [effective_largestName]
      exact mem_sumParts.mpr (by simp)
    · rwa [heffective]
  unary i op x hx := by
    obtain h | h | h | h | h := mem_sumParts.mp hx <;> cases h
  binary i op x y hx := by
    obtain h | h | h | h | h := mem_sumParts.mp hx <;> cases h
    exact ⟨mem_sumParts.mpr (by simp), mem_sumParts.mpr (by simp)⟩
  call i callee x hx := by
    obtain h | h | h | h | h := mem_sumParts.mp hx <;> cases h
  value i f x hf hx := by
    rw [eq_largest hf] at hx
    cases hx
    exact mem_sumParts.mpr (by simp)
  constants i j f g hf hg _ := by rw [eq_largest hf, eq_largest hg]

end ObjectPascal.Folding
