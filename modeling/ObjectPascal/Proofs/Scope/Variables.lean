import ObjectPascal.Proofs.Scope.Loading

/-!
Variables stay declared. On a level of scopes only the innermost frame changes: names are added to
it, and a name gets a new declaration only where it had one that is no variable. So a variable that
the innermost frame declares is found there as long as the frame is on top.
-/

namespace ObjectPascal

namespace Frame

variable {f g : Frame} {name : Text} {d : Decl}

/-- A name that is declared is found with its declaration, and all others mean what they meant. -/
theorem find?_of_add? (h : f.add? name d = some g) (other : Text) :
    g.find? other = (f.find? other).or (if name.lower == other.lower then some d else none) := by
  have hg : f.addFirst name d = g := by rw [addFirst, h, Option.getD_some]
  rw [← hg]
  exact f.find?_addFirst name other d

/-- A name that is declared anew has the new declaration, and all others mean what they meant. -/
theorem find?_replace {e : Decl} (he : f.find? name = some e) (d : Decl) (other : Text) :
    (f.replace name d).find? other =
      if name.lower == other.lower then some d else f.find? other := by
  obtain ⟨entry, hentry, -⟩ := Option.map_eq_some_iff.mp he
  have hadd : f.add? name d = none := by rw [add?, he]
  simp only [replace, hadd, find?, List.find?_map, Option.map_map]
  have hkey (x : Entry) : (fun e : Entry => e.key == other.lower)
      (if x.key == name.lower then { x with decl := d } else x) = (x.key == other.lower) := by
    split <;> rfl
  simp only [Function.comp_def, hkey]
  split
  · rename_i hsame
    rw [← beq_iff_eq.mp hsame, hentry]
    have hfound := List.find?_some hentry
    simp only [Option.map_some, hfound, if_true]
  · rename_i hother
    refine Option.map_congr fun x hx => ?_
    have hfound := List.find?_some hx
    have hne : ¬(x.key == name.lower) = true := fun heq => hother (by
      rw [← beq_iff_eq.mp heq]
      exact hfound)
    rw [if_neg hne]

/-- A frame that has grown and declares the same variables. -/
def FirmTo (f g : Frame) : Prop :=
  f.GrowsTo g ∧ ∀ name v, f.find? name = some (.var v) → g.find? name = some (.var v)

theorem FirmTo.refl (f : Frame) : f.FirmTo f := ⟨.refl f, fun _ _ h => h⟩

theorem FirmTo.trans {f g h : Frame} (hfg : f.FirmTo g) (hgh : g.FirmTo h) : f.FirmTo h :=
  ⟨hfg.1.trans hgh.1, fun name v hv => hgh.2 name v (hfg.2 name v hv)⟩

theorem firmTo_of_add? (h : f.add? name d = some g) : f.FirmTo g := by
  refine ⟨growsTo_of_add? h, fun other v hv => ?_⟩
  rw [find?_of_add? h, hv]
  rfl

theorem firmTo_replace {e : Decl} (he : f.find? name = some e) (hvar : ∀ v, e ≠ .var v)
    (d : Decl) : f.FirmTo (f.replace name d) := by
  refine ⟨growsTo_replace f name d, fun other v hv => ?_⟩
  rw [find?_replace he]
  split
  · rename_i hsame
    rw [← f.find?_congr (beq_iff_eq.mp hsame), he] at hv
    exact absurd (Option.some.inj hv) (hvar v)
  · exact hv

/-- A frame in which all that is declared anew is of one kind. -/
def Takes (A : Decl → Prop) (f g : Frame) : Prop :=
  ∀ name d, g.find? name = some d → f.find? name = some d ∨ A d

section Takes

variable {A B : Decl → Prop} {h : Frame}

theorem Takes.refl (A : Decl → Prop) (f : Frame) : f.Takes A f := fun _ _ => .inl

theorem Takes.trans (hfg : f.Takes A g) (hgh : g.Takes A h) : f.Takes A h :=
  fun name d hd => (hgh name d hd).elim (hfg name d) .inr

theorem Takes.mono (hfg : f.Takes A g) (hAB : ∀ d, A d → B d) : f.Takes B g :=
  fun name d hd => (hfg name d hd).imp id (hAB d)

theorem takes_of_add? (h : f.add? name d = some g) (hd : A d) : f.Takes A g := by
  intro other e he
  rw [find?_of_add? h] at he
  obtain he | ⟨-, he⟩ := Option.or_eq_some_iff.mp he
  · exact .inl he
  · split at he
    · cases he
      exact .inr hd
    · cases he

theorem takes_replace {e : Decl} (he : f.find? name = some e) (hd : A d) :
    f.Takes A (f.replace name d) := by
  intro other x hx
  rw [find?_replace he] at hx
  split at hx
  · cases hx
    exact .inr hd
  · exact .inl hx

end Takes

end Frame

namespace Scopes

variable {s t u : Scopes} {name : Text} {d : Decl}

/-- The same stack of frames, of which at most the innermost has grown and declares the same
variables. -/
def FirmTo (s t : Scopes) : Prop :=
  ∃ f g rest, s.inner = f :: rest ∧ t = s.withInner (g :: rest) ∧ f.FirmTo g

namespace FirmTo

theorem refl (h : s.inner ≠ []) : s.FirmTo s := by
  obtain ⟨f, rest, hs⟩ := List.exists_cons_of_ne_nil h
  exact ⟨f, f, rest, hs, by rw [← hs]; rfl, .refl f⟩

theorem trans (hst : s.FirmTo t) (htu : t.FirmTo u) : s.FirmTo u := by
  obtain ⟨f, g, rest, hs, rfl, hfg⟩ := hst
  obtain ⟨_, h, _, ht, rfl, hgh⟩ := htu
  obtain ⟨rfl, rfl⟩ := List.cons.inj ht
  exact ⟨f, h, rest, hs, rfl, hfg.trans hgh⟩

theorem growsTo (h : s.FirmTo t) : s.GrowsTo t := by
  obtain ⟨f, g, rest, hs, rfl, hfg⟩ := h
  exact ⟨f, g, rest, hs, rfl, hfg.1⟩

theorem reached (h : s.FirmTo t) : t.FirmTo t := refl h.growsTo.reached.inner_ne_nil

theorem top (h : s.FirmTo t) : s.top.FirmTo t.top := by
  obtain ⟨f, g, rest, hs, rfl, hfg⟩ := h
  simpa [Scopes.top, hs] using hfg

/-- What was pushed before is still below the innermost frame. -/
theorem of_pushed {f : Frame} {l : List Frame} (h : (s.withInner (f :: l)).FirmTo t) :
    ∃ g, t = s.withInner (g :: l) ∧ f.FirmTo g := by
  obtain ⟨_, g, _, hs, rfl, hfg⟩ := h
  obtain ⟨rfl, rfl⟩ := List.cons.inj hs
  exact ⟨g, rfl, hfg⟩

end FirmTo

section Places

variable {pre rest : List Frame} {f : Frame}

/-- Declaring a name in a frame that is not at the bottom adds it there. -/
theorem add?_of_register (hs : s.inner = pre ++ f :: rest)
    (hplace : s.targetOf d = rest.length + 1) (h : s.register name d = .ok t) :
    ∃ g, f.add? name d = some g ∧ t = s.withInner (pre ++ g :: rest) := by
  unfold register at h
  simp only [hplace, frame?_of_inner hs, Option.getD_some] at h
  split at h
  · cases h
  · split at h
    · cases h
    · rename_i g hg
      rw [modifyFrame_of_inner hs] at h
      cases h
      exact ⟨g, hg, rfl⟩

/-- A declaration without a frame of its own is found in the innermost frame afterwards. -/
theorem firmTo_of_register (h : s.register name d = .ok t) (hs : s.inner ≠ [])
    (hd : createsFrame d = false) : s.FirmTo t ∧ t.top.find? name = some d := by
  obtain ⟨f, rest, hs⟩ := List.exists_cons_of_ne_nil hs
  have hplace : s.targetOf d = rest.length + 1 := by simp [targetOf, hd, depth, hs]
  obtain ⟨g, hg, rfl⟩ := add?_of_register (hs.trans (List.nil_append _).symm) hplace h
  refine ⟨⟨f, g, rest, hs, rfl, Frame.firmTo_of_add? hg⟩, ?_⟩
  have hfree : f.find? name = none := by
    rw [Frame.add?] at hg
    split at hg
    · cases hg
    · assumption
  change g.find? name = some d
  rw [Frame.find?_of_add? hg, hfree]
  simp

/-- A name without a frame of its own that cannot be declared is taken in the innermost frame. -/
theorem register_error {e : ScopeError} (h : s.register name d = .error e) (hs : s.inner ≠ [])
    (hd : createsFrame d = false) (hname : name.isEmpty = false) :
    e = s.error .redeclared name := by
  obtain ⟨f, rest, hs⟩ := List.exists_cons_of_ne_nil hs
  have hplace : s.targetOf d = rest.length + 1 := by simp [targetOf, hd, depth, hs]
  have hframe : s.frame? (rest.length + 1) = some f :=
    frame?_of_inner (hs.trans (List.nil_append _).symm)
  have htop : s.top = f := by simp [top, hs]
  unfold register at h
  simp only [hplace, hframe, hname, Option.getD_some, Bool.false_eq_true, if_false] at h
  split at h
  · cases h
    rw [error, htop]
  · cases h

/-- A declaration with a frame of its own is declared around the frame on top. -/
theorem firmTo_of_register_inside {own : Frame}
    (h : (s.withInner (own :: s.inner)).register name d = .ok t) (hs : s.inner ≠ [])
    (hd : createsFrame d = true) : ∃ u, s.FirmTo u ∧ t = u.withInner (own :: u.inner) := by
  obtain ⟨f, rest, hs⟩ := List.exists_cons_of_ne_nil hs
  have hplace : (s.withInner (own :: s.inner)).targetOf d = rest.length + 1 := by
    simp [targetOf, hd, hs]
  have hinner : (s.withInner (own :: s.inner)).inner = [own] ++ f :: rest := by simp [hs]
  obtain ⟨g, hg, rfl⟩ := add?_of_register hinner hplace h
  exact ⟨s.withInner (g :: rest), ⟨f, g, rest, hs, rfl, Frame.firmTo_of_add? hg⟩, rfl⟩

/-- Giving a name a new declaration replaces it in the frame that declares it. -/
theorem replace_of_redeclare {e : Decl} (hs : s.inner = pre ++ f :: rest)
    (hpre : ∀ p ∈ pre, p.find? name = none) (hf : f.find? name = some e)
    (h : s.redeclare name d = .ok t) : t = s.withInner (pre ++ f.replace name d :: rest) := by
  unfold redeclare at h
  rw [lookup?_of_inner hs hpre hf] at h
  dsimp only at h
  rw [modifyFrame_of_inner hs] at h
  cases h
  rfl

variable {e : Decl} (he : s.findLocal? name = some e) (hvar : ∀ v, e ≠ .var v)
include he hvar

theorem firmTo_of_redeclare (h : s.redeclare name d = .ok t) (hs : s.inner ≠ []) :
    s.FirmTo t := by
  obtain ⟨f, rest, hs⟩ := List.exists_cons_of_ne_nil hs
  have hf : f.find? name = some e := by simpa [findLocal?, top, hs] using he
  have ht := replace_of_redeclare (hs.trans (List.nil_append _).symm) (by simp) hf h
  exact ⟨f, f.replace name d, rest, hs, ht, Frame.firmTo_replace hf hvar d⟩

end Places

/-- What was pushed is popped, whatever the innermost frame has grown to. -/
theorem FirmTo.unwound {pushed : List Frame} (hs : s.inner ≠ [])
    (h : (s.withInner (pushed ++ s.inner)).FirmTo t) : s.FirmTo (t.unwindTo s.depth) := by
  cases pushed with
  | nil =>
    have hst : s.FirmTo t := h
    have hdepth : s.depth = t.depth := by simp [depth, hst.growsTo.length_eq]
    rw [hdepth, show t.unwindTo t.depth = t from t.unwindTo_append []]
    exact hst
  | cons p pushed =>
    obtain ⟨g, rfl, -⟩ := h.of_pushed
    change s.FirmTo ((s.withInner ((g :: pushed) ++ s.inner)).unwindTo s.depth)
    rw [unwindTo_append]
    exact .refl hs

end Scopes
end ObjectPascal

/-!
Where declarations go. A name is declared in the innermost frame, or in the one around it if the
frame of its own declaration is on top already; all other frames stay as they are. What becomes of
the frame can be said by any relation between the frame before and after.
-/

namespace ObjectPascal.Scopes

/-- The same stack of frames but for the innermost one, which a relation ties to the one before. -/
def OnTop (R : Frame → Frame → Prop) (s t : Scopes) : Prop :=
  ∃ f g rest, s.inner = f :: rest ∧ t = s.withInner (g :: rest) ∧ R f g

section OnTop

variable {R S T : Frame → Frame → Prop} {s t u : Scopes}

theorem OnTop.mono (h : s.OnTop R t) (hR : ∀ f g, R f g → S f g) : s.OnTop S t := by
  obtain ⟨f, g, rest, hs, rfl, hfg⟩ := h
  exact ⟨f, g, rest, hs, rfl, hR f g hfg⟩

theorem OnTop.trans (h : s.OnTop R t) (k : t.OnTop S u)
    (hT : ∀ f g h, R f g → S g h → T f h) : s.OnTop T u := by
  obtain ⟨f, g, rest, hs, rfl, hfg⟩ := h
  obtain ⟨_, x, _, ht, rfl, hgx⟩ := k
  obtain ⟨rfl, rfl⟩ := List.cons.inj ht
  exact ⟨f, x, rest, hs, rfl, hT f g x hfg hgx⟩

theorem OnTop.inner_ne_nil (h : s.OnTop R t) : t.inner ≠ [] := by
  obtain ⟨f, g, rest, -, rfl, -⟩ := h
  simp

theorem OnTop.top (h : s.OnTop R t) : R s.top t.top := by
  obtain ⟨f, g, rest, hs, rfl, hfg⟩ := h
  simpa [Scopes.top, hs] using hfg

theorem onTop_self (hs : s.inner ≠ []) (hR : ∀ f, R f f) : s.OnTop R s := by
  obtain ⟨f, rest, hs⟩ := List.exists_cons_of_ne_nil hs
  exact ⟨f, f, rest, hs, by rw [← hs]; rfl, hR f⟩

theorem onTop_of_inner {f g : Frame} {rest : List Frame} (hs : s.inner = f :: rest) (h : R f g) :
    s.OnTop R (s.withInner (g :: rest)) := ⟨f, g, rest, hs, rfl, h⟩

end OnTop

section Register

variable {s t : Scopes} {name : Text} {d : Decl}

/-- A declaration without a frame of its own goes to the innermost frame. -/
theorem onTop_of_register (h : s.register name d = .ok t) (hs : s.inner ≠ [])
    (hd : createsFrame d = false) : s.OnTop (fun f g => f.add? name d = some g) t := by
  obtain ⟨f, rest, hs⟩ := List.exists_cons_of_ne_nil hs
  have hplace : s.targetOf d = rest.length + 1 := by simp [targetOf, hd, depth, hs]
  obtain ⟨g, hg, rfl⟩ := add?_of_register (hs.trans (List.nil_append _).symm) hplace h
  exact onTop_of_inner hs hg

/-- A declaration with a frame of its own goes to the frame around it. -/
theorem onTop_of_register_inside {own : Text} {owner : Option Decl}
    (h : (s.enter own owner).register name d = .ok t) (hs : s.inner ≠ [])
    (hd : createsFrame d = true) :
    ∃ u, s.OnTop (fun f g => f.add? name d = some g) u ∧ t = u.enter own owner := by
  obtain ⟨f, rest, hs⟩ := List.exists_cons_of_ne_nil hs
  have hplace : (s.enter own owner).targetOf d = rest.length + 1 := by
    simp [targetOf, hd, hs, enter, depth]
  have hinner : (s.enter own owner).inner = [{ name := own, owner }] ++ f :: rest := by
    simp [enter, hs]
  obtain ⟨g, hg, rfl⟩ := add?_of_register hinner hplace h
  exact ⟨s.withInner (g :: rest), onTop_of_inner hs hg, rfl⟩

/-- A name with a frame of its own that cannot be declared is taken in the frame around it, unless
it is no name at all. -/
theorem register_inside_error {own : Text} {owner : Option Decl} {e : ScopeError}
    (h : (s.enter own owner).register name d = .error e) (hs : s.inner ≠ [])
    (hd : createsFrame d = true) (hname : name.isEmpty = false) :
    e = s.error .redeclared name ∧ ∃ p, s.findLocal? name = some p := by
  obtain ⟨f, rest, hs⟩ := List.exists_cons_of_ne_nil hs
  have hplace : (s.enter own owner).targetOf d = rest.length + 1 := by
    simp [targetOf, hd, hs, enter, depth]
  have hinner : (s.enter own owner).inner = [{ name := own, owner }] ++ f :: rest := by
    simp [enter, hs]
  have htop : s.top = f := by simp [top, hs]
  unfold register at h
  simp only [hplace, frame?_of_inner hinner, hname, Option.getD_some, Bool.false_eq_true,
    if_false] at h
  split at h
  · rename_i hadd
    cases h
    rw [Frame.add?] at hadd
    split at hadd
    · rename_i p hp
      exact ⟨by rw [error, htop], p, by rw [findLocal?, htop]; exact hp⟩
    · cases hadd
  · cases h

/-- What the innermost frame declares gets a new declaration there. -/
theorem onTop_of_redeclare {e : Decl} (he : s.findLocal? name = some e)
    (h : s.redeclare name d = .ok t) (hs : s.inner ≠ []) :
    s.OnTop (fun f g => f.find? name = some e ∧ g = f.replace name d) t := by
  obtain ⟨f, rest, hs⟩ := List.exists_cons_of_ne_nil hs
  have hf : f.find? name = some e := by simpa [findLocal?, top, hs] using he
  rw [replace_of_redeclare (hs.trans (List.nil_append _).symm) (by simp) hf h]
  exact onTop_of_inner hs ⟨hf, rfl⟩

/-- What the innermost frame declares can be given a new declaration from a new frame above it. -/
theorem redeclare_inside {e : Decl} (own : Text) (owner : Option Decl) (d : Decl)
    (he : s.findLocal? name = some e) (hs : s.inner ≠ []) :
    ∃ u, s.OnTop (fun f g => f.find? name = some e ∧ g = f.replace name d) u ∧
      (s.enter own owner).redeclare name d = .ok (u.enter own owner) := by
  obtain ⟨f, rest, hs⟩ := List.exists_cons_of_ne_nil hs
  have hf : f.find? name = some e := by simpa [findLocal?, top, hs] using he
  have hinner : (s.enter own owner).inner = [{ name := own, owner }] ++ f :: rest := by
    simp [enter, hs]
  refine ⟨s.withInner (f.replace name d :: rest), onTop_of_inner hs ⟨hf, rfl⟩, ?_⟩
  unfold redeclare
  rw [lookup?_of_inner hinner (by simp [Frame.find?]) hf]
  dsimp only
  rw [modifyFrame_of_inner hinner]
  rfl

end Register

end ObjectPascal.Scopes
