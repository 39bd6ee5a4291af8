import Mathlib.Logic.Basic

/-!
Computations with a state that can break off. `Ends` says where a computation leads from a given
state; `Keeps` says that wherever it starts, states before and after are related. A relation that
composes is kept by every way of putting computations together.
-/

namespace ObjectPascal

variable {ε σ α β : Type}

/-- A sequence succeeds if both of its parts do. -/
theorem bind_eq_ok {x : Except ε α} {f : α → Except ε β} {b : β} :
    (x >>= f) = .ok b ↔ ∃ a, x = .ok a ∧ f a = .ok b := by
  cases x with
  | error e => exact ⟨nofun, fun ⟨a, h, _⟩ => nomatch h⟩
  | ok a => exact ⟨fun h => ⟨a, rfl, h⟩, fun ⟨a', h, hf⟩ => by cases h; exact hf⟩

/-- A sequence fails if its first part does, or the second after the first. -/
theorem bind_eq_error {x : Except ε α} {f : α → Except ε β} {e : ε} :
    (x >>= f) = .error e ↔ x = .error e ∨ ∃ a, x = .ok a ∧ f a = .error e := by
  cases x with
  | error e' => exact ⟨fun h => .inl (by cases h; rfl), fun h => by
      obtain h | ⟨a, h, _⟩ := h <;> cases h
      rfl⟩
  | ok a => exact ⟨fun h => .inr ⟨a, rfl, h⟩, fun h => by
      obtain h | ⟨a', h, hf⟩ := h <;> cases h
      exact hf⟩

/-- Whether a result is a value that passes a test. -/
def yieldsWith (r : Except ε α) (test : α → Bool) : Bool :=
  match r with
  | .ok a => test a
  | .error _ => false

theorem exists_of_yieldsWith {r : Except ε α} {test : α → Bool} (h : yieldsWith r test = true) :
    ∃ a, r = .ok a ∧ test a = true := by
  obtain e | a := r
  · cases h
  · exact ⟨a, rfl, h⟩

/-- Whether a result is an error that passes a test. -/
def failsWith (r : Except ε α) (test : ε → Bool) : Bool :=
  match r with
  | .ok _ => false
  | .error e => test e

theorem exists_of_failsWith {r : Except ε α} {test : ε → Bool} (h : failsWith r test = true) :
    ∃ e, r = .error e ∧ test e = true := by
  obtain e | a := r
  · exact ⟨e, rfl, h⟩
  · cases h

/-- Whether a run came to its end, in a state that passes a test. -/
def endsWith (r : Except ε α × σ) (test : σ → Bool) : Bool := yieldsWith r.1 fun _ => test r.2

theorem exists_of_endsWith {r : Except ε Unit × σ} {test : σ → Bool}
    (h : endsWith r test = true) : ∃ t, r = (.ok (), t) ∧ test t = true := by
  obtain ⟨e | ⟨⟩, t⟩ := r
  · cases h
  · exact ⟨t, rfl, h⟩

/-- From `s`, a computation ends in `Q`, or it breaks off in `E`. -/
def Ends (m : ExceptT ε (StateM σ) α) (s : σ) (Q : α → σ → Prop) (E : ε → σ → Prop) : Prop :=
  match m.run.run s with
  | (.ok a, t) => Q a t
  | (.error e, t) => E e t

namespace Ends

variable {m : ExceptT ε (StateM σ) α} {s : σ} {Q Q' : α → σ → Prop} {E E' : ε → σ → Prop}

@[simp]
theorem pure_iff (a : α) : Ends (pure a : ExceptT ε (StateM σ) α) s Q E ↔ Q a s := Iff.rfl

@[simp]
theorem throw_iff (e : ε) : Ends (throw e : ExceptT ε (StateM σ) α) s Q E ↔ E e s := Iff.rfl

@[simp]
theorem bind_iff {f : α → ExceptT ε (StateM σ) β} {Q : β → σ → Prop} :
    Ends (m >>= f) s Q E ↔ Ends m s (fun a t => Ends (f a) t Q E) E := by
  unfold Ends
  rw [ExceptT.run_bind, StateT.run_bind]
  generalize m.run.run s = r
  obtain ⟨_ | _, t⟩ := r <;> rfl

@[simp]
theorem get_iff {Q : σ → σ → Prop} : Ends (get : ExceptT ε (StateM σ) σ) s Q E ↔ Q s s := Iff.rfl

@[simp]
theorem set_iff {t : σ} {Q : PUnit → σ → Prop} :
    Ends (set t : ExceptT ε (StateM σ) PUnit) s Q E ↔ Q ⟨⟩ t := Iff.rfl

@[simp]
theorem modify_iff {f : σ → σ} {Q : PUnit → σ → Prop} :
    Ends (modify f : ExceptT ε (StateM σ) PUnit) s Q E ↔ Q ⟨⟩ (f s) := Iff.rfl

@[simp]
theorem map_iff {f : α → β} {Q : β → σ → Prop} :
    Ends (f <$> m) s Q E ↔ Ends m s (fun a t => Q (f a) t) E := by
  rw [← bind_pure_comp]
  exact bind_iff

@[simp]
theorem discard_iff {Q : PUnit → σ → Prop} :
    Ends (discard m) s Q E ↔ Ends m s (fun _ t => Q ⟨⟩ t) E := map_iff

/-- What a computation leads to may be said more weakly. -/
theorem mono (h : Ends m s Q E) (hQ : ∀ a t, Q a t → Q' a t) (hE : ∀ e t, E e t → E' e t) :
    Ends m s Q' E' := by
  unfold Ends at h ⊢
  split <;> rename_i heq <;> rw [heq] at h
  · exact hQ _ _ h
  · exact hE _ _ h

theorem of_true (m : ExceptT ε (StateM σ) α) (s : σ) :
    Ends m s (fun _ _ => True) fun _ _ => True := by
  unfold Ends
  split <;> trivial

/-- What a computation leads to may be found out in two parts. -/
theorem and (h : Ends m s Q E) (k : Ends m s Q' E') :
    Ends m s (fun a t => Q a t ∧ Q' a t) fun e t => E e t ∧ E' e t := by
  unfold Ends at h k ⊢
  split <;> rename_i heq <;> rw [heq] at h k
  · exact ⟨h, k⟩
  · exact ⟨h, k⟩

end Ends

/-- From `s`, a computation comes to its end in `t`, with the result `a`. -/
def Leads (m : ExceptT ε (StateM σ) α) (s : σ) (a : α) (t : σ) : Prop := m.run.run s = (.ok a, t)

namespace Leads

variable {m : ExceptT ε (StateM σ) α} {s t : σ} {a : α}

@[simp]
theorem pure_iff {b : α} : Leads (pure a : ExceptT ε (StateM σ) α) s b t ↔ a = b ∧ s = t := by
  unfold Leads
  change ((.ok a, s) : Except ε α × σ) = _ ↔ _
  simp

@[simp]
theorem bind_iff {f : α → ExceptT ε (StateM σ) β} {b : β} :
    Leads (m >>= f) s b t ↔ ∃ a u, Leads m s a u ∧ Leads (f a) u b t := by
  unfold Leads
  rw [ExceptT.run_bind, StateT.run_bind]
  generalize m.run.run s = r
  obtain ⟨e | a, u⟩ := r
  · refine ⟨nofun, fun ⟨_, _, h, _⟩ => nomatch h⟩
  · refine ⟨fun h => ⟨a, u, rfl, h⟩, fun ⟨_, _, h, hf⟩ => ?_⟩
    cases h
    exact hf

@[simp]
theorem discard_iff {u : PUnit} : Leads (discard m) s u t ↔ ∃ a, Leads m s a t := by
  have h : discard m = Function.const α PUnit.unit <$> m := rfl
  rw [h, ← bind_pure_comp, bind_iff]
  simp

/-- Where a computation ends is where it leads. -/
theorem ends {Q : α → σ → Prop} {E : ε → σ → Prop} (h : Leads m s a t) (k : Ends m s Q E) :
    Q a t := by
  unfold Ends at k
  rw [show m.run.run s = (.ok a, t) from h] at k
  exact k

end Leads

/-- Relations between the states before and after computations that can follow each other. The
states that a relation is about are those related to themselves. -/
class Composes (R : σ → σ → Prop) (E : ε → σ → σ → Prop) : Prop where
  trans {s t u : σ} : R s t → R t u → R s u
  reached {s t : σ} : R s t → R t t
  broken {e : ε} {s t u : σ} : R s t → E e t u → E e s u

/-- Wherever a computation starts, it ends in a related state, or it breaks off in one. -/
def Keeps (R : σ → σ → Prop) (E : ε → σ → σ → Prop) (m : ExceptT ε (StateM σ) α) : Prop :=
  ∀ s, R s s → Ends m s (fun _ t => R s t) fun e t => E e s t

namespace Keeps

variable {R : σ → σ → Prop} {E : ε → σ → σ → Prop}

theorem pure (a : α) : Keeps R E (Pure.pure a : ExceptT ε (StateM σ) α) := fun _ hs => hs

theorem get : Keeps R E (MonadState.get : ExceptT ε (StateM σ) σ) := fun _ hs => hs

theorem throw {e : ε} (he : ∀ s, R s s → E e s s) :
    Keeps R E (throw e : ExceptT ε (StateM σ) α) := he

theorem ite {c : Prop} [Decidable c] {m n : ExceptT ε (StateM σ) α} (hm : Keeps R E m)
    (hn : Keeps R E n) : Keeps R E (if c then m else n) := by
  split
  · exact hm
  · exact hn

variable [Composes R E]

/-- A computation that goes on from a related state. -/
theorem goesOn {m : ExceptT ε (StateM σ) α} (hm : Keeps R E m) {s t : σ} (h : R s t) :
    Ends m t (fun _ u => R s u) fun e u => E e s u :=
  (hm t (Composes.reached E h)).mono (fun _ _ hu => Composes.trans E h hu)
    fun _ _ hu => Composes.broken h hu

theorem bind {m : ExceptT ε (StateM σ) α} {f : α → ExceptT ε (StateM σ) β} (hm : Keeps R E m)
    (hf : ∀ a, Keeps R E (f a)) : Keeps R E (m >>= f) := by
  intro s hs
  rw [Ends.bind_iff]
  exact (hm s hs).mono (fun a t ht => (hf a).goesOn ht) fun _ _ he => he

theorem map {m : ExceptT ε (StateM σ) α} (f : α → β) (hm : Keeps R E m) : Keeps R E (f <$> m) := by
  rw [← bind_pure_comp]
  exact hm.bind fun a => pure (f a)

theorem discard {m : ExceptT ε (StateM σ) α} (hm : Keeps R E m) :
    Keeps R E (Functor.discard m) := hm.map _

theorem forM {f : α → ExceptT ε (StateM σ) PUnit} (hf : ∀ a, Keeps R E (f a)) (l : List α) :
    Keeps R E (l.forM f) := by
  induction l with
  | nil => exact pure _
  | cons a l ih => exact (hf a).bind fun _ => ih

theorem foldlM {f : β → α → ExceptT ε (StateM σ) β} (hf : ∀ b a, Keeps R E (f b a)) (l : List α)
    (b : β) : Keeps R E (l.foldlM f b) := by
  induction l generalizing b with
  | nil => exact pure _
  | cons a l ih =>
    rw [List.foldlM_cons]
    exact (hf b a).bind ih

end Keeps
end ObjectPascal
