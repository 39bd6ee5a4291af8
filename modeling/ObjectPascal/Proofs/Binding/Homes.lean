import Mathlib.Data.List.Forall2
import ObjectPascal.Proofs.Binding.Owners
import ObjectPascal.Proofs.Binding.Touches

/-!
The frames on the stack and the routines they belong to. The frame of a routine declares what the
routine owns; frames of types, handlers and `with` statements declare nothing that any routine owns.
So it can be told from the frame of a variable which routine it belongs to.
-/

namespace ObjectPascal

/-- Whether a frame is that of a routine. -/
def Frame.isRoutine (f : Frame) : Bool :=
  match f.owner with
  | some (.callable _) => true
  | _ => false

/-- Whether a declaration is that of a variable or parameter. -/
def Decl.isVariable : Decl → Bool
  | .var _ | .param _ => true
  | _ => false

theorem CallableDecl.Owns.isVariable {implicit : List (VarDecl × CallableDecl)} {f : CallableDecl}
    {d : Decl} (h : f.Owns implicit d) : d.isVariable = true := by
  cases d with
  | var v => rfl
  | param p => rfl
  | _ => cases h

namespace Scopes

variable {s : Scopes} {name : Text} {d : Decl}

/-- A name is found in a frame, and its place is the number of frames below. -/
theorem frames_of_lookup? {i : Nat} (h : s.lookup? name = some (d, i)) :
    ∃ above f below, s.frames = above ++ f :: below ∧ f.find? name = some d ∧
      i = below.length := by
  have hgo (frames : List Frame) (k : Nat) (hk : frames.length = k + 1)
      (h : lookup?.go name frames k = some (d, i)) : ∃ above f below,
        frames = above ++ f :: below ∧ f.find? name = some d ∧ i = below.length := by
    induction frames generalizing k with
    | nil => cases h
    | cons f frames ih =>
      rw [List.length_cons] at hk
      rw [lookup?.go] at h
      split at h
      · rename_i e he
        cases h
        exact ⟨[], f, frames, rfl, he, by omega⟩
      · cases frames with
        | nil => cases h
        | cons g frames =>
          obtain ⟨above, g', below, hsplit, hfind, hi⟩ :=
            ih (k - 1) (by rw [List.length_cons] at hk ⊢; omega) h
          exact ⟨f :: above, g', below, by rw [hsplit]; rfl, hfind, hi⟩
  exact hgo s.frames (s.depth - 1) (by simp [frames, depth]) h

theorem frame?_of_frames {above below : List Frame} {f : Frame}
    (h : s.frames = above ++ f :: below) : s.frame? below.length = some f := by
  simp [frame?, h]

/-- A type that is fetched is in sight under some name. -/
theorem exists_find?_of_fetch {h : Text} {c : CompositeDecl}
    (hfetch : s.fetchComposite h = .ok c) : ∃ g, s.find? g = some (.composite c) := by
  have hwithin (n : Nat) (g : Text) (hg : s.compositeWithin h n g = .ok c) :
      ∃ g, s.find? g = some (.composite c) := by
    induction n generalizing g with
    | zero => cases hg
    | succ n ih =>
      rw [compositeWithin] at hg
      split at hg
      · cases hg
      · rename_i d hd
        cases hg
        exact ⟨g, hd⟩
      · exact ih _ hg
      · cases hg
  exact hwithin _ _ hfetch

/-- Loading a type pushes frames of types that are in sight. -/
theorem frames_of_loadHeritage {type : Text} {t : Scopes} {k : Nat}
    (h : s.loadHeritage type = .ok (t, k)) : ∃ pushed, t = s.withInner (pushed ++ s.inner) ∧
      ∀ f ∈ pushed, ∃ (a : CompositeDecl) (inherited : Bool) (name : Text),
        f = a.frame inherited ∧ s.find? name = some (.composite a) := by
  obtain ⟨c, hc, -⟩ := bind_eq_ok.mp h
  obtain ⟨line, hline, -, -, rfl⟩ := lineage_of_loadHeritage hc h
  refine ⟨c.frame false :: line.map (·.2.frame true), rfl, fun f hf => ?_⟩
  obtain rfl | hf := List.mem_cons.mp hf
  · obtain ⟨name, hname⟩ := exists_find?_of_fetch hc
    exact ⟨c, false, name, rfl, hname⟩
  · obtain ⟨⟨key, a⟩, ha, rfl⟩ := List.mem_map.mp hf
    obtain ⟨_, _, -, -, -, hfetch⟩ := hline.origin ha
    obtain ⟨name, hname⟩ := exists_find?_of_fetch hfetch
    exact ⟨a, true, name, rfl, hname⟩

end Scopes

theorem CompositeDecl.owner_frame (c : CompositeDecl) (inherited : Bool) :
    (c.frame inherited).owner = some (.composite c) := by
  have howner (members : List Member) (f : Frame) :
      (members.foldl (fun f m => f.addFirst m.name m.decl) f).owner = f.owner := by
    induction members generalizing f with
    | nil => rfl
    | cons m members ih =>
      rw [List.foldl_cons, ih, Frame.addFirst]
      cases hadd : f.add? m.name m.decl with
      | none => rfl
      | some g => exact (Frame.growsTo_of_add? hadd).owner
  exact howner _ _

namespace Binding

/-- A variable has a number that was handed out, or it is a field. -/
def Dated (b : Binding) (v : VarDecl) : Prop := v.info.id < b.notes.next ∨ v.kind = .field

/-- A frame of the routine `o` or of none, which declares what suits it. -/
structure Fits (fs : List CallableDecl) (b : Binding) (o : Option CallableDecl) (f : Frame) :
    Prop where
  owner : f.isRoutine = o.isSome
  suits : ∀ name d, f.find? name = some d → Suits fs b.implicit b.Dated o d

/-- The frames on the stack fit `homes` one by one. Variables of a source have numbers up to `last`,
and those without a source have numbers behind it. -/
structure Stands (last : Nat) (fs : List CallableDecl) (homes : List (Option CallableDecl))
    (b : Binding) : Prop where
  inner : b.scopes.inner ≠ []
  next : last < b.notes.next
  source : ∀ f ∈ fs, ∀ v, f.Owns [] (.var v) → v.info.id ≤ last
  implicit : ∀ p ∈ b.implicit, last < p.1.info.id ∧ p.1.info.id < b.notes.next
  routines : ∀ f, some f ∈ homes → f ∈ fs
  frames : List.Forall₂ (Fits fs b) homes b.scopes.frames

section Touches

variable {fs : List CallableDecl} {last r : Nat} {ns : List Node} {b c : Binding}
  {homes : List (Option CallableDecl)} {o : Option CallableDecl} {d : Decl}
  (htouch : Touches b.notes.next r ns b c)
include htouch

theorem Touches.dated {v : VarDecl} (h : b.Dated v) : c.Dated v :=
  h.imp_left fun hv => Nat.lt_of_lt_of_le hv htouch.next

/-- What is declared without a source later is new. -/
theorem Touches.mem_implicit_iff {v : VarDecl} (h : b.Dated v) (f : CallableDecl) :
    (v, f) ∈ c.implicit ↔ (v, f) ∈ b.implicit := by
  refine ⟨fun hv => ?_, fun hv => htouch.implicit hv⟩
  obtain hv | ⟨hnew, -, hkind⟩ := htouch.recent _ hv
  · exact hv
  · obtain hold | hfield := h
    · exact absurd hold (Nat.not_lt.mpr hnew)
    · exact absurd hfield hkind

theorem Suits.touched (h : Suits fs b.implicit b.Dated o d) : Suits fs c.implicit c.Dated o d :=
  h.mono (fun _ => htouch.dated) fun _ => htouch.mem_implicit_iff

theorem Fits.touched {f : Frame} (h : Fits fs b o f) : Fits fs c o f :=
  ⟨h.owner, fun name d hd => (h.suits name d hd).touched htouch⟩

theorem Touches.implicit_numbers (hnext : last < b.notes.next)
    (h : ∀ p ∈ b.implicit, last < p.1.info.id ∧ p.1.info.id < b.notes.next) :
    ∀ p ∈ c.implicit, last < p.1.info.id ∧ p.1.info.id < c.notes.next := by
  intro p hp
  obtain hp | ⟨hnew, hlt, -⟩ := htouch.recent p hp
  · exact ⟨(h p hp).1, Nat.lt_of_lt_of_le (h p hp).2 htouch.next⟩
  · exact ⟨Nat.lt_of_lt_of_le hnext hnew, hlt⟩

/-- A stack that did not change fits as before. -/
theorem Stands.touched (h : Stands last fs homes b) (hscopes : c.scopes = b.scopes) :
    Stands last fs homes c where
  inner := hscopes ▸ h.inner
  next := Nat.lt_of_lt_of_le h.next htouch.next
  source := h.source
  implicit := htouch.implicit_numbers h.next h.implicit
  routines := h.routines
  frames := hscopes ▸ h.frames.imp fun _ _ hf => hf.touched htouch

end Touches

section Stands

variable {fs : List CallableDecl} {last : Nat} {b c : Binding} {f : Frame}
  {homes : List (Option CallableDecl)} {o : Option CallableDecl} {d : Decl}

/-- What a source declares suits a frame whatever else was declared. -/
theorem Stands.suits (h : Stands last fs homes b) (hd : Suits fs [] (·.info.id ≤ last) o d) :
    Suits fs b.implicit b.Dated o d := by
  refine hd.mono (fun v hv => .inl (Nat.lt_of_le_of_lt hv h.next)) fun v hv f =>
    ⟨fun hmem => ?_, fun hmem => absurd hmem List.not_mem_nil⟩
  exact absurd (h.implicit _ hmem).1 (Nat.not_lt.mpr hv)

/-- The innermost frame may declare more that suits it. -/
theorem Stands.grown {r : Nat} {ns : List Node} (h : Stands last fs (o :: homes) b)
    (htouch : Touches b.notes.next r ns b c) (hfirm : b.scopes.FirmTo c.scopes)
    (htakes : TakesIn (Suits fs c.implicit c.Dated o) b c) : Stands last fs (o :: homes) c := by
  obtain ⟨f, g, rest, hinner, hscopes, hfg⟩ := htakes
  obtain ⟨f', g', rest', hinner', hscopes', hfirm⟩ := hfirm
  obtain ⟨rfl, rfl⟩ := List.cons.inj (hinner.symm.trans hinner')
  obtain rfl : g = g' := by
    rw [hscopes] at hscopes'
    simpa using congrArg Scopes.inner hscopes'
  have hframes : b.scopes.frames = f :: (rest ++ [b.scopes.runtime]) := by
    rw [Scopes.frames, hinner, List.cons_append]
  have hold := h.frames
  rw [hframes, List.forall₂_cons] at hold
  refine ⟨by simp [hscopes], Nat.lt_of_lt_of_le h.next htouch.next, h.source,
    htouch.implicit_numbers h.next h.implicit, h.routines, ?_⟩
  rw [hscopes]
  refine .cons ⟨?_, fun name d hd => ?_⟩ (hold.2.imp fun _ _ hf => hf.touched htouch)
  · rw [← hold.1.owner, Frame.isRoutine, Frame.isRoutine, hfirm.1.owner]
  · exact (hfg name d hd).elim (fun hd => (hold.1.suits name d hd).touched htouch) id

/-- Another frame is pushed. -/
theorem Stands.push (h : Stands last fs homes b) (hf : Fits fs b o f)
    (ho : ∀ r, o = some r → r ∈ fs) :
    Stands last fs (o :: homes)
      { b with scopes := b.scopes.withInner (f :: b.scopes.inner) } where
  inner := by simp
  next := h.next
  source := h.source
  implicit := h.implicit
  routines r hr := (List.mem_cons.mp hr).elim (fun hr => ho r hr.symm) (h.routines r)
  frames := .cons ⟨hf.owner, hf.suits⟩ (h.frames.imp fun _ _ hf => ⟨hf.owner, hf.suits⟩)

/-- A frame that declares nothing yet. -/
theorem Stands.enter (h : Stands last fs homes b) (name : Text) (owner : Option Decl)
    (howner : Frame.isRoutine { name, owner } = o.isSome) (ho : ∀ r, o = some r → r ∈ fs) :
    Stands last fs (o :: homes) { b with scopes := b.scopes.enter name owner } :=
  h.push (f := { name, owner }) ⟨howner, fun _ _ => nofun⟩ ho

/-- The members of a type in sight belong to no routine. -/
theorem Stands.fits_frame (h : Stands last fs homes b) {a : CompositeDecl} {name : Text}
    (ha : b.scopes.find? name = some (.composite a)) (inherited : Bool) :
    Fits fs b none (a.frame inherited) := by
  obtain ⟨⟨d, i⟩, hlookup, hd⟩ := Option.map_eq_some_iff.mp ha
  obtain ⟨above, f, below, hframes, hfind, -⟩ := Scopes.frames_of_lookup? hlookup
  have hsuits : ∃ o, Suits fs b.implicit b.Dated o d := by
    have hall := h.frames
    rw [hframes] at hall
    obtain ⟨o, _, hf, -, -⟩ :=
      List.forall₂_cons_right_iff.mp (List.forall₂_drop_append _ _ _ hall)
    exact ⟨o, hf.suits name d hfind⟩
  obtain ⟨o, hsuits⟩ := hsuits
  subst hd
  refine ⟨by rw [Frame.isRoutine, a.owner_frame]; rfl, fun other e he => ?_⟩
  rw [CompositeDecl.find?_frame] at he
  obtain ⟨m, hm, rfl⟩ := Option.map_eq_some_iff.mp he
  have hmem : m ∈ a.members := (List.mem_filter.mp (List.mem_of_find?_eq_some hm)).1
  cases m with
  | var v => exact hsuits v hmem
  | callable d => trivial
  | property d => trivial

/-- The frames that loading a type pushes belong to no routine. -/
theorem Stands.loaded (h : Stands last fs homes b) {type : Text} {t : Scopes} {k : Nat}
    (hload : b.scopes.loadHeritage type = .ok (t, k)) :
    ∃ n, Stands last fs (List.replicate n none ++ homes) { b with scopes := t } := by
  obtain ⟨pushed, rfl, hpushed⟩ := Scopes.frames_of_loadHeritage hload
  refine ⟨pushed.length, by simp [h.inner], h.next, h.source, h.implicit, fun r hr => ?_, ?_⟩
  · obtain hr | hr := List.mem_append.mp hr
    · cases (List.mem_replicate.mp hr).2
    · exact h.routines r hr
  · have hall (l : List Frame) (hl : ∀ f ∈ l, Fits fs b none f) :
        List.Forall₂ (Fits fs b) (List.replicate l.length none) l := by
      induction l with
      | nil => exact .nil
      | cons f l ih =>
        obtain ⟨hf, hl⟩ := List.forall_mem_cons.mp hl
        exact .cons hf (ih hl)
    have happend := List.rel_append (hall pushed fun f hf => by
      obtain ⟨a, inherited, name, rfl, ha⟩ := hpushed f hf
      exact h.fits_frame ha inherited) h.frames
    rw [Scopes.frames, Scopes.withInner_inner, List.append_assoc]
    exact happend.imp fun _ _ hf => ⟨hf.owner, hf.suits⟩

/-- The home of a frame. -/
theorem Stands.exists_home (h : Stands last fs homes b) {above below : List Frame}
    (hframes : b.scopes.frames = above ++ f :: below) :
    ∃ o, homes[above.length]? = some o ∧ Fits fs b o f ∧
      homes.length = above.length + 1 + below.length := by
  have hall := h.frames
  rw [hframes] at hall
  obtain ⟨o, _, hf, -, hdrop⟩ :=
    List.forall₂_cons_right_iff.mp (List.forall₂_drop_append _ _ _ hall)
  refine ⟨o, ?_, hf, ?_⟩
  · rw [← List.head?_drop, hdrop]
    rfl
  · rw [hall.length_eq]
    simp
    omega

/-- A new variable belongs to the routine that it is declared for, if there is one. -/
theorem Stands.homed_made (h : Stands last fs homes b) {v : VarDecl}
    (hnew : b.notes.next ≤ v.info.id) (hmade : v.info.id < c.notes.next)
    {added : List (VarDecl × CallableDecl)} (hc : c.implicit = b.implicit ++ added)
    (hadded : ∀ f, (v, f) ∈ added ↔ o = some f) : Homed fs c.implicit c.Dated o v where
  owner f hf := by
    rw [← hadded f]
    have hsource : ¬∃ x, f.body = some x ∧ .var v ∈ x.decls := fun hv => by
      have hle := h.source f hf v (.inl hv)
      have hlast := h.next
      omega
    have hold : (v, f) ∉ b.implicit := fun hv => absurd (h.implicit _ hv).2 (Nat.not_lt.mpr hnew)
    simp [CallableDecl.Owns, hsource, hc, hold]
  dated := .inl hmade

end Stands

/-- A new variable is declared in the innermost frame, and `added` is noted about it. -/
def Makes (added : VarDecl → List (VarDecl × CallableDecl)) (b c : Binding) : Prop :=
  ∃ v : VarDecl, b.notes.next ≤ v.info.id ∧ v.info.id < c.notes.next ∧
    TakesIn (· = .var v) b c ∧ c.implicit = b.implicit ++ added v

/-- The innermost frame declares a new variable of its routine. -/
theorem Stands.makes {last r : Nat} {fs : List CallableDecl} {ns : List Node} {b c : Binding}
    {homes : List (Option CallableDecl)} {o : Option CallableDecl}
    {added : VarDecl → List (VarDecl × CallableDecl)} (h : Stands last fs (o :: homes) b)
    (htouch : Touches b.notes.next r ns b c) (hfirm : b.scopes.FirmTo c.scopes)
    (hmakes : Makes added b c) (hadded : ∀ v f, (v, f) ∈ added v ↔ o = some f) :
    Stands last fs (o :: homes) c := by
  obtain ⟨v, hnew, hmade, htakes, himplicit⟩ := hmakes
  have hv := h.homed_made hnew hmade himplicit (hadded v)
  exact h.grown htouch hfirm (htakes.mono fun _ _ hfg => hfg.mono fun _ hd => hd ▸ hv)

/-- Declaring a variable says nothing about nodes and about variables without a source. -/
theorem register_takes {b : Binding} (hs : b.scopes.inner ≠ []) (line : Nat) (name : Text)
    (v : VarDecl) : Ends (discard (register line name (.var v))) b (fun _ c =>
      TakesIn (· = .var v) b c ∧ c.notes = b.notes ∧ c.implicit = b.implicit)
      fun _ _ => True := by
  have hnotes : Ends (register line name (.var v)) b
      (fun _ c => c.notes = b.notes ∧ c.implicit = b.implicit) fun _ _ => True := by
    unfold register
    rw [Ends.bind_iff, getScopes_iff]
    dsimp only
    split
    · exact ⟨rfl, rfl⟩
    · exact ⟨rfl, rfl⟩
  rw [Ends.discard_iff]
  have htakes := Taking.register (A := (· = .var v)) line name rfl b
    (Scopes.onTop_self hs (.refl _))
  exact (htakes.and hnotes).mono (fun _ _ h => h) fun _ _ _ => trivial

/-- A variable is made and declared. -/
theorem makes_ends {b : Binding} (hs : b.scopes.inner ≠ [])
    (hroom : b.notes.next + 1 < Annotations.numberCount) (line line' : Nat) (name : Text)
    (v : NodeInfo → VarDecl) (hv : ∀ i, (v i).info = i) : Ends (do
      let i ← newInfo line
      discard (register line' name (.var (v i)))) b
      (fun _ c => Makes (fun _ => []) b c ∧ b.scopes.FirmTo c.scopes ∧
        Touches b.notes.next 1 [] b c) fun _ _ => True := by
  have hmarks : MarksWithin Scopes.FirmTo b.notes.next b.notes.next 1 (do
      let i ← newInfo line
      discard (register line' name (.var (v i)))) [] :=
    .made (r := 0) _ fun _ hi =>
      (Marks.discard (Marks.register _ _ _)).raise (Nat.le_succ_of_le hi)
  have hmakes : Ends (do
      let i ← newInfo line
      discard (register line' name (.var (v i)))) b
      (fun _ c => Makes (fun _ => []) b c) fun _ _ => True := by
    rw [Ends.bind_iff]
    let made : Binding := { b with notes := (b.notes.newInfo line).2 }
    have hnext : made.notes.next = b.notes.next + 1 := Nat.mod_eq_of_lt hroom
    change Ends _ made _ _
    refine (register_takes (b := made) hs _ _ _).mono (fun _ c hc => ?_) fun _ _ h => h
    obtain ⟨htakes, hnotes, himplicit⟩ := hc
    refine ⟨_, ?_, ?_, htakes, himplicit.trans (List.append_nil _).symm⟩
    · rw [hv]
    · rw [hv, hnotes, hnext]
      exact Nat.lt_succ_self b.notes.next
  exact (hmakes.and (hmarks b (.refl hs) (Nat.le_refl _) hroom)).mono (fun _ _ h => h)
    fun _ _ _ => trivial

end Binding
end ObjectPascal
