import ObjectPascal.Proofs.Scope.Heritage

/-!
The order in which the ancestors of a type are loaded. Each name that an ancestor is reached by is
loaded once, after the names of its own ancestors. So the frames on the stack list the whole
hierarchy with every type above those that it descends from, and a hierarchy that can be loaded has
no circles.
-/

namespace ObjectPascal

/-! Frames of members. -/

namespace Frame

variable {f : Frame} {name other : Text} {d : Decl}

theorem find?_congr (f : Frame) (h : name.lower = other.lower) : f.find? name = f.find? other := by
  simp only [find?, h]

/-- A name that is declared if it is free means what it meant, or else what it is declared as. -/
theorem find?_addFirst (f : Frame) (name other : Text) (d : Decl) :
    (f.addFirst name d).find? other =
      (f.find? other).or (if name.lower == other.lower then some d else none) := by
  unfold addFirst add?
  cases hname : f.find? name with
  | some e =>
    -- the name is taken, so if it is the other one then that is taken, too
    dsimp only [Option.getD_none]
    split
    · rename_i hsame
      rw [← f.find?_congr (beq_iff_eq.1 hsame), hname]
      rfl
    · rw [Option.or_none]
  | none =>
    simp only [Option.getD_some, find?, List.find?_append, List.find?_singleton, Option.map_or]
    congr 1
    split <;> rfl

theorem find?_foldl_addFirst (f : Frame) (members : List Member) (name : Text) :
    (members.foldl (fun f m => f.addFirst m.name m.decl) f).find? name =
      (f.find? name).or ((members.find? (·.name.lower == name.lower)).map (·.decl)) := by
  induction members generalizing f with
  | nil => simp
  | cons m members ih =>
    rw [List.foldl_cons, ih, find?_addFirst, Option.or_assoc, List.find?_cons]
    congr 1
    cases m.name.lower == name.lower <;> rfl

end Frame

/-- The frame that is pushed for a type. -/
def CompositeDecl.frame (c : CompositeDecl) (inherited : Bool) : Frame :=
  (c.members.filter fun m => !inherited || m.visibility.isInheritable).foldl
    (fun f m => f.addFirst m.name m.decl) { name := c.name, owner := some (.composite c) }

theorem CompositeDecl.find?_frame (c : CompositeDecl) (inherited : Bool) (name : Text) :
    (c.frame inherited).find? name =
      ((c.members.filter fun m => !inherited || m.visibility.isInheritable).find?
        (·.name.lower == name.lower)).map (·.decl) := by
  rw [frame, Frame.find?_foldl_addFirst]
  rfl

namespace Scopes

open Relation

variable {s : Scopes} {c : CompositeDecl}

theorem pushMembers_eq_frame (s : Scopes) (c : CompositeDecl) (inherited : Bool) :
    s.pushMembers c inherited = s.withInner (c.frame inherited :: s.inner) := rfl

/-! Types that a name denotes. -/

theorem find?_eq_findSome? (s : Scopes) (name : Text) :
    s.find? name = s.frames.findSome? (·.find? name) := by
  have hgo (frames : List Frame) (i : Nat) :
      (lookup?.go name frames i).map (·.1) = frames.findSome? (·.find? name) := by
    induction frames generalizing i with
    | nil => rfl
    | cons f frames ih =>
      rw [lookup?.go, List.findSome?_cons]
      split
      · rename_i d hd
        rw [hd]
        rfl
      · rename_i hnone
        rw [hnone]
        exact ih _
  exact hgo _ _

theorem find?_congr (s : Scopes) {g h : Text} (hgh : g.lower = h.lower) :
    s.find? g = s.find? h := by
  simp only [find?_eq_findSome?]
  congr 1
  funext f
  exact f.find?_congr hgh

/-- What a name denotes does not depend on its spelling, nor on what errors would be about. -/
theorem compositeWithin_congr {first second g h : Text} {n : Nat} {a : CompositeDecl}
    (hgh : g.lower = h.lower) (hg : s.compositeWithin first n g = .ok a) :
    s.compositeWithin second n h = .ok a := by
  induction n generalizing g h with
  | zero => cases hg
  | succ n ih =>
    rw [compositeWithin] at hg ⊢
    rw [← s.find?_congr hgh]
    split at hg
    · cases hg
    · exact hg
    · exact ih rfl hg
    · cases hg

theorem fetchComposite_congr {g h : Text} {a : CompositeDecl} (hgh : g.lower = h.lower)
    (hg : s.fetchComposite g = .ok a) : s.fetchComposite h = .ok a :=
  compositeWithin_congr hgh hg

/-- Frames that declare members only, and so no types. -/
def MemberFrames (frames : List Frame) : Prop :=
  ∀ f ∈ frames, ∃ (a : CompositeDecl) (inherited : Bool), f = a.frame inherited

theorem find?_of_memberFrames {pushed : List Frame} (hpushed : MemberFrames pushed) {name : Text}
    {d : Decl} (hd : (s.withInner (pushed ++ s.inner)).find? name = some d) :
    s.find? name = some d ∨ ∃ m : Member, d = m.decl := by
  rw [find?_eq_findSome?] at hd ⊢
  have hframes : (s.withInner (pushed ++ s.inner)).frames = pushed ++ s.frames := by
    simp [frames, withInner]
  rw [hframes, List.findSome?_append] at hd
  obtain hd | ⟨-, hd⟩ := Option.or_eq_some_iff.1 hd
  · obtain ⟨f, hf, hfind⟩ := List.exists_of_findSome?_eq_some hd
    obtain ⟨a, inherited, rfl⟩ := hpushed f hf
    rw [CompositeDecl.find?_frame] at hfind
    obtain ⟨m, -, rfl⟩ := Option.map_eq_some_iff.1 hfind
    exact .inr ⟨m, rfl⟩
  · exact .inl hd

/-- A type that is found from above frames of members is found from below them. -/
theorem fetchComposite_of_memberFrames {pushed : List Frame} (hpushed : MemberFrames pushed)
    {name : Text} {a : CompositeDecl}
    (ha : (s.withInner (pushed ++ s.inner)).fetchComposite name = .ok a) :
    s.fetchComposite name = .ok a := by
  have hwithin (n : Nat) (g : Text)
      (hg : (s.withInner (pushed ++ s.inner)).compositeWithin name n g = .ok a) :
      s.compositeWithin name n g = .ok a := by
    induction n generalizing g with
    | zero => cases hg
    | succ n ih =>
      rw [compositeWithin] at hg ⊢
      split at hg
      · cases hg
      · rename_i d hd
        obtain hbelow | ⟨m, hm⟩ := find?_of_memberFrames hpushed hd
        · rw [hbelow]
          exact hg
        · cases m <;> cases hm
      · rename_i t hd
        obtain hbelow | ⟨m, hm⟩ := find?_of_memberFrames hpushed hd
        · rw [hbelow]
          exact ih _ hg
        · cases m <;> cases hm
      · cases hg
  exact hwithin _ _ ha

/-! The order of loading. -/

/-- Ancestors of a type with the names that they are reached by, the last one loaded first. No name
comes twice, and the names of the ancestors of each type come after it. -/
inductive Lineage (s : Scopes) (c : CompositeDecl) : List (Text × CompositeDecl) → Prop
  | nil : Lineage s c []
  | cons {key : Text} {a : CompositeDecl} {rest : List (Text × CompositeDecl)}
      (hrest : Lineage s c rest) (hnew : key ∉ rest.map (·.1))
      (hclosed : ∀ h ∈ a.ancestors, h.lower ∈ rest.map (·.1))
      (horigin : ∃ x h, ReflTransGen s.Ascends c x ∧ h ∈ x.ancestors ∧ h.lower = key ∧
        s.fetchComposite h = .ok a) :
      Lineage s c ((key, a) :: rest)

/-- What was loaded of the ancestors of a type. -/
structure LoadedAs (s : Scopes) (c : CompositeDecl) (l : Loaded)
    (line : List (Text × CompositeDecl)) : Prop where
  names : l.names = line.map (·.1)
  scopes : l.scopes = s.withInner (line.map (·.2.frame true) ++ s.inner)
  count : l.count = line.length
  lineage : s.Lineage c line

theorem LoadedAs.fetch {l : Loaded} {line : List (Text × CompositeDecl)} (hl : s.LoadedAs c l line)
    {h : Text} {a : CompositeDecl} (ha : l.scopes.fetchComposite h = .ok a) :
    s.fetchComposite h = .ok a := by
  rw [hl.scopes] at ha
  refine fetchComposite_of_memberFrames (fun f hf => ?_) ha
  obtain ⟨e, -, rfl⟩ := List.mem_map.1 hf
  exact ⟨e.2, true, rfl⟩

/-- A type is loaded after its ancestors. -/
theorem LoadedAs.push {l : Loaded} {line : List (Text × CompositeDecl)} (hl : s.LoadedAs c l line)
    {key : Text} {a : CompositeDecl} (hnew : key ∉ line.map (·.1))
    (hclosed : ∀ h ∈ a.ancestors, h.lower ∈ line.map (·.1))
    (horigin : ∃ x h, ReflTransGen s.Ascends c x ∧ h ∈ x.ancestors ∧ h.lower = key ∧
      s.fetchComposite h = .ok a) :
    s.LoadedAs c ⟨l.scopes.pushMembers a true, key :: l.names, l.count + 1⟩ ((key, a) :: line) where
  names := by rw [List.map_cons, ← hl.names]
  scopes := by
    rw [pushMembers_eq_frame, hl.scopes]
    simp
  count := by rw [List.length_cons, ← hl.count]
  lineage := .cons hl.lineage hnew hclosed horigin

/-- Loads the ancestor of a name, and before it its own ancestors as `load` does. -/
def loadAncestor (load : List Text → CompositeDecl → Loaded → Except ScopeError Loaded)
    (path : List Text) (l : Loaded) (h : Text) : Except ScopeError Loaded :=
  if path.contains h.lower then .error (l.scopes.error .circularHeritage h)
  else if l.names.contains h.lower then .ok l
  else do
    let ancestor ← l.scopes.fetchComposite h
    let l ← load (h.lower :: path) ancestor l
    return ⟨l.scopes.pushMembers ancestor true, h.lower :: l.names, l.count + 1⟩

theorem loadAncestors_succ (n : Nat) (path : List Text) (x : CompositeDecl) (l : Loaded) :
    loadAncestors (n + 1) path x l =
      x.ancestors.foldlM (loadAncestor (loadAncestors n) path) l := rfl

/-- What loading ancestors adds: none of the names on the way, and all names of the ancestors that
are not there yet. -/
def Adds (s : Scopes) (c : CompositeDecl) (path names : List Text)
    (line : List (Text × CompositeDecl)) (m : Loaded) : Prop :=
  ∃ new, s.LoadedAs c m (new ++ line) ∧ (∀ e ∈ new, e.1 ∉ path) ∧
    ∀ h ∈ names, h.lower ∈ (new ++ line).map (·.1)

section Adds

variable {path names : List Text} {x : CompositeDecl} {l m : Loaded}
  {line : List (Text × CompositeDecl)}

theorem loadAncestor_adds
    {load : List Text → CompositeDecl → Loaded → Except ScopeError Loaded} {h : Text}
    (hload : ∀ a, s.Ascends x a → ∀ j, load (h.lower :: path) a l = .ok j →
      s.Adds c (h.lower :: path) a.ancestors line j)
    (hl : s.LoadedAs c l line) (hx : ReflTransGen s.Ascends c x) (hh : h ∈ x.ancestors)
    (hm : loadAncestor load path l h = .ok m) : s.Adds c path [h] line m := by
  unfold loadAncestor at hm
  split at hm
  · cases hm
  rename_i hcircle
  split at hm
  · -- the ancestor is there already
    rename_i hloaded
    cases hm
    refine ⟨[], hl, nofun, fun g hg => ?_⟩
    obtain rfl := List.mem_singleton.1 hg
    rw [hl.names] at hloaded
    exact List.contains_iff_mem.1 hloaded
  · rename_i hloaded
    obtain ⟨a, ha, hm⟩ := bind_eq_ok.1 hm
    obtain ⟨j, hj, hm⟩ := bind_eq_ok.1 hm
    cases hm
    have hfetch : s.fetchComposite h = .ok a := hl.fetch ha
    obtain ⟨new, hnew, hfree, hclosed⟩ := hload a ⟨h, hh, hfetch⟩ j hj
    -- its name was on the way meanwhile, so it is still free
    have hnotin : h.lower ∉ (new ++ line).map (·.1) := by
      intro hmem
      rw [List.map_append, List.mem_append] at hmem
      obtain hmem | hmem := hmem
      · obtain ⟨e, he, hkey⟩ := List.mem_map.1 hmem
        exact hfree e he (hkey ▸ .head _)
      · apply hloaded
        rw [hl.names]
        exact List.contains_iff_mem.2 hmem
    have hpush := hnew.push hnotin hclosed ⟨x, h, hx, hh, rfl, hfetch⟩
    refine ⟨(h.lower, a) :: new, hpush, fun e he => ?_, fun g hg => ?_⟩
    · obtain rfl | he := List.mem_cons.1 he
      · exact fun hmem => hcircle (List.contains_iff_mem.2 hmem)
      · exact fun hmem => hfree e he (.tail _ hmem)
    · obtain rfl := List.mem_singleton.1 hg
      exact .head _

theorem Adds.cons {h : Text} {k : Loaded} (hfirst : s.Adds c path [h] line k)
    (hrest : ∀ new, s.LoadedAs c k (new ++ line) → s.Adds c path names (new ++ line) m) :
    s.Adds c path (h :: names) line m := by
  obtain ⟨new, hnew, hfree, hh⟩ := hfirst
  obtain ⟨more, hmore, hfree', hnames⟩ := hrest new hnew
  rw [← List.append_assoc] at hmore hnames
  refine ⟨more ++ new, hmore, fun e he => ?_, fun g hg => ?_⟩
  · exact (List.mem_append.1 he).elim (hfree' e) (hfree e)
  · obtain rfl | hg := List.mem_cons.1 hg
    · rw [List.append_assoc, List.map_append]
      exact List.mem_append_right _ (hh g (.head _))
    · exact hnames g hg

theorem loadAncestors_adds {n : Nat} (hl : s.LoadedAs c l line)
    (hx : ReflTransGen s.Ascends c x) (hm : loadAncestors n path x l = .ok m) :
    s.Adds c path x.ancestors line m := by
  induction n generalizing path x l m line with
  | zero => cases hm
  | succ n ih =>
    rw [loadAncestors_succ] at hm
    -- the names that are left are ancestors of the type
    have hloop (names : List Text) (hsub : ∀ h ∈ names, h ∈ x.ancestors) (l : Loaded)
        (line : List (Text × CompositeDecl)) (hl : s.LoadedAs c l line)
        (hm : names.foldlM (loadAncestor (loadAncestors n) path) l = .ok m) :
        s.Adds c path names line m := by
      induction names generalizing l line with
      | nil =>
        cases hm
        exact ⟨[], hl, nofun, nofun⟩
      | cons h names ihnames =>
        rw [List.foldlM_cons] at hm
        obtain ⟨k, hk, hm⟩ := bind_eq_ok.1 hm
        have hfirst := loadAncestor_adds (fun a ha j hj => ih hl (hx.tail ha) hj) hl hx
          (hsub h (.head _)) hk
        exact hfirst.cons fun new hnew =>
          ihnames (fun g hg => hsub g (.tail h hg)) k _ hnew hm
    exact hloop _ (fun _ hh => hh) l line hl hm

end Adds

/-! The bound on loading. -/

/-- The names of all ancestors in sight. -/
def ancestorNames (s : Scopes) : List Text :=
  s.composites.flatMap fun a => a.ancestors.map Text.lower

theorem length_ancestorNames_le (s : Scopes) : s.ancestorNames.length + 2 ≤ s.heritageBound := by
  have hancestors (a : CompositeDecl) : a.ancestors.length ≤ a.heritage.length + 1 := by
    unfold CompositeDecl.ancestors
    split
    · split <;> simp
    · split <;> simp
    · split <;> simp
    · simp
    · omega
  have hsum (l : List CompositeDecl) :
      (l.flatMap fun a => a.ancestors.map Text.lower).length ≤
        l.foldr (fun a n => a.heritage.length + 1 + n) 0 := by
    induction l with
    | nil => simp
    | cons a l ih =>
      have ha := hancestors a
      simp only [List.flatMap_cons, List.length_append, List.length_map, List.foldr_cons]
      omega
  calc s.ancestorNames.length + 2
      ≤ s.composites.foldr (fun a n => a.heritage.length + 1 + n) 0 + 2 :=
        Nat.add_le_add_right (hsum _) 2
    _ ≤ s.heritageBound := Nat.le_mul_self _

theorem four_le_heritageBound (s : Scopes) : 4 ≤ s.heritageBound :=
  Nat.mul_le_mul (Nat.le_add_left 2 _) (Nat.le_add_left 2 _)

/-- Names of ancestors, none of them twice, and below them that of the type to load. -/
def LoadingWay (s : Scopes) (path : List Text) : Prop :=
  ∃ keys first, path = keys ++ [first] ∧ keys.Nodup ∧ keys ⊆ s.ancestorNames

theorem LoadingWay.length_le {path : List Text} (h : s.LoadingWay path) :
    path.length ≤ s.ancestorNames.length + 1 := by
  obtain ⟨keys, first, rfl, hnodup, hsub⟩ := h
  have hle : keys.length ≤ s.ancestorNames.length := (hnodup.subperm hsub).length_le
  simpa using hle

theorem LoadingWay.cons {path : List Text} {x : CompositeDecl} {h : Text}
    (hpath : s.LoadingWay path) (hcircle : ¬path.contains h.lower = true) (hh : h ∈ x.ancestors) (hx : x ∈ s.composites) :
    s.LoadingWay (h.lower :: path) := by
  obtain ⟨keys, first, rfl, hnodup, hsub⟩ := hpath
  have hnew : h.lower ∉ keys := fun hmem =>
    hcircle (List.contains_iff_mem.2 (List.mem_append_left _ hmem))
  have hname : h.lower ∈ s.ancestorNames :=
    List.mem_flatMap.2 ⟨x, hx, List.mem_map_of_mem hh⟩
  exact ⟨h.lower :: keys, first, rfl, List.nodup_cons.2 ⟨hnew, hnodup⟩,
    List.cons_subset.2 ⟨hname, hsub⟩⟩

theorem mem_composites_of_reached {x : CompositeDecl} (hc : c ∈ s.composites)
    (hx : ReflTransGen s.Ascends c x) : x ∈ s.composites := by
  obtain rfl | hx := List.mem_cons.1 (mem_of_reached hx)
  · exact hc
  · exact hx

/-- More steps than there are names of ancestors change nothing. -/
theorem loadAncestors_step {n : Nat} {path : List Text} {x : CompositeDecl} {l : Loaded}
    {line : List (Text × CompositeDecl)} (hl : s.LoadedAs c l line)
    (hx : ReflTransGen s.Ascends c x) (hc : c ∈ s.composites) (hpath : s.LoadingWay path)
    (hn : s.ancestorNames.length + 2 ≤ n + path.length) :
    loadAncestors (n + 1) path x l = loadAncestors n path x l := by
  induction n generalizing path x l line with
  | zero =>
    have hlength := hpath.length_le
    omega
  | succ n ih =>
    rw [loadAncestors_succ, loadAncestors_succ]
    have hloop (names : List Text) (hsub : ∀ h ∈ names, h ∈ x.ancestors) (l : Loaded)
        (line : List (Text × CompositeDecl)) (hl : s.LoadedAs c l line) :
        names.foldlM (loadAncestor (loadAncestors (n + 1)) path) l =
          names.foldlM (loadAncestor (loadAncestors n) path) l := by
      induction names generalizing l line with
      | nil => rfl
      | cons h names ihnames =>
        have hsame : loadAncestor (loadAncestors (n + 1)) path l h =
            loadAncestor (loadAncestors n) path l h := by
          unfold loadAncestor
          split
          · rfl
          rename_i hcircle
          split
          · rfl
          cases ha : l.scopes.fetchComposite h with
          | error e => rfl
          | ok a =>
            have hxa : s.Ascends x a := ⟨h, hsub h (.head _), hl.fetch ha⟩
            have hway := hpath.cons hcircle (hsub h (.head _)) (mem_composites_of_reached hc hx)
            have hload := ih hl (hx.tail hxa) hway (by rw [List.length_cons]; omega)
            simp only [hload, bind, Except.bind]
        rw [List.foldlM_cons, List.foldlM_cons, hsame]
        cases hk : loadAncestor (loadAncestors n) path l h with
        | error e => rfl
        | ok k =>
          have hfirst := loadAncestor_adds
            (fun a ha j hj => loadAncestors_adds hl (hx.tail ha) hj) hl hx (hsub h (.head _)) hk
          obtain ⟨new, hnew, -⟩ := hfirst
          exact ihnames (fun g hg => hsub g (.tail h hg)) k _ hnew
    exact hloop _ (fun _ hh => hh) l line hl

/-- The bound is never what stops the loading of a type: with more steps it comes to the same. -/
theorem loadAncestors_heritageBound {type : Text} (hc : s.fetchComposite type = .ok c) {n : Nat}
    (hn : s.heritageBound ≤ n) :
    loadAncestors n [c.name.lower] c { scopes := s } =
      loadAncestors s.heritageBound [c.name.lower] c { scopes := s } := by
  induction n, hn using Nat.le_induction with
  | base => rfl
  | succ n hn ih =>
    have hstart : s.LoadedAs c { scopes := s } [] := ⟨rfl, rfl, rfl, .nil⟩
    have hway : s.LoadingWay [c.name.lower] := ⟨[], _, rfl, .nil, nofun⟩
    have hbound := s.length_ancestorNames_le
    have hstep := loadAncestors_step hstart .refl (mem_composites_of_fetch hc) hway
      (n := n) (by rw [List.length_singleton]; omega)
    exact hstep.trans ih

/-- A type that is loaded has a frame of its own on top of those of its ancestors. -/
theorem lineage_of_loadHeritage {type : Text} {t : Scopes} {k : Nat}
    (hc : s.fetchComposite type = .ok c) (h : s.loadHeritage type = .ok (t, k)) :
    ∃ line, s.Lineage c line ∧ (∀ h ∈ c.ancestors, h.lower ∈ line.map (·.1)) ∧ k = line.length ∧
      t = s.withInner (c.frame false :: line.map (·.2.frame true) ++ s.inner) := by
  obtain ⟨c', hc', h⟩ := bind_eq_ok.1 h
  obtain rfl := Except.ok.inj (hc.symm.trans hc')
  obtain ⟨l, hl, h⟩ := bind_eq_ok.1 h
  cases h
  have hstart : s.LoadedAs c { scopes := s } [] := ⟨rfl, rfl, rfl, .nil⟩
  obtain ⟨line, hline, -, hclosed⟩ := loadAncestors_adds hstart .refl hl
  rw [List.append_nil] at hline hclosed
  refine ⟨line, hline.lineage, hclosed, hline.count, ?_⟩
  rw [pushMembers_eq_frame, hline.scopes]
  rfl

namespace Lineage

variable {line : List (Text × CompositeDecl)} {key : Text} {a b x : CompositeDecl}

theorem nodup (h : s.Lineage c line) : (line.map (·.1)).Nodup := by
  induction h with
  | nil => exact .nil
  | cons _ hnew _ _ ih => exact List.nodup_cons.2 ⟨hnew, ih⟩

theorem suffix {pre rest : List (Text × CompositeDecl)} (h : s.Lineage c (pre ++ rest)) :
    s.Lineage c rest := by
  induction pre with
  | nil => exact h
  | cons e pre ih =>
    cases h with
    | cons hrest _ _ _ => exact ih hrest

theorem origin (h : s.Lineage c line) (ha : (key, a) ∈ line) :
    ∃ x h, ReflTransGen s.Ascends c x ∧ h ∈ x.ancestors ∧ h.lower = key ∧
      s.fetchComposite h = .ok a := by
  induction h with
  | nil => cases ha
  | cons _ _ _ horigin ih =>
    obtain heq | ha := List.mem_cons.1 ha
    · cases heq
      exact horigin
    · exact ih ha

/-- A name denotes the type that was loaded under it. -/
theorem mem_of_fetch (h : s.Lineage c line) {g : Text} (hg : g.lower ∈ line.map (·.1))
    (hb : s.fetchComposite g = .ok b) : (g.lower, b) ∈ line := by
  obtain ⟨⟨key, a⟩, hmem, hkey⟩ := List.mem_map.1 hg
  obtain ⟨x, g', -, -, hg', ha⟩ := h.origin hmem
  have hlower : g'.lower = g.lower := hg'.trans hkey
  have heq : a = b := Except.ok.inj ((fetchComposite_congr hlower ha).symm.trans hb)
  rw [← heq, ← show key = g.lower from hkey]
  exact hmem

/-- A type that is reached from one that was loaded was loaded before it, by every name that leads
to it. -/
theorem descends {rest : List (Text × CompositeDecl)} (h : s.Lineage c ((key, a) :: rest))
    (hx : ReflTransGen s.Ascends a x) : ∀ g ∈ x.ancestors, g.lower ∈ rest.map (·.1) := by
  induction hx with
  | refl =>
    cases h with
    | cons _ _ hclosed _ => exact hclosed
  | @tail y x _ hyx ih =>
    intro g hg
    obtain ⟨g', hg', hfetch⟩ := hyx
    have hrest : s.Lineage c rest := suffix (List.singleton_append ▸ h)
    -- the type itself stands among the rest, and its ancestors below it
    have hmem : (g'.lower, x) ∈ rest := hrest.mem_of_fetch (ih g' hg') hfetch
    obtain ⟨pre, rest', rfl⟩ := List.append_of_mem hmem
    have hclosed := hrest.suffix
    cases hclosed with
    | cons _ _ hclosed _ =>
      rw [List.map_append, List.map_cons]
      exact List.mem_append_right _ (.tail _ (hclosed g hg))

/-- With a type the names of its ancestors are loaded. -/
theorem closed (h : s.Lineage c line) (ha : (key, a) ∈ line) :
    ∀ g ∈ a.ancestors, g.lower ∈ line.map (·.1) := by
  intro g hg
  obtain ⟨pre, rest, rfl⟩ := List.append_of_mem ha
  rw [List.map_append, List.map_cons]
  exact List.mem_append_right _ (.tail _ (h.suffix.descends .refl g hg))

/-- What is reached from a type whose ancestors are loaded is loaded, too. -/
theorem mem_of_reached (h : s.Lineage c line) (hc : ∀ g ∈ c.ancestors, g.lower ∈ line.map (·.1))
    (hx : ReflTransGen s.Ascends c x) : x = c ∨ ∃ key, (key, x) ∈ line := by
  induction hx with
  | refl => exact .inl rfl
  | @tail y x _ hyx ih =>
    obtain ⟨g, hg, hfetch⟩ := hyx
    suffices hmem : g.lower ∈ line.map (·.1) from .inr ⟨_, h.mem_of_fetch hmem hfetch⟩
    obtain rfl | ⟨key, hy⟩ := ih
    · exact hc g hg
    · exact h.closed hy g hg

/-- The ancestors of what is loaded have no circles. -/
theorem acc (h : s.Lineage c line) (ha : (key, a) ∈ line) :
    Acc (fun x y => s.Ascends y x) a := by
  induction h generalizing key a with
  | nil => cases ha
  | cons hrest _ hclosed _ ih =>
    obtain heq | ha := List.mem_cons.1 ha
    · cases heq
      refine Acc.intro _ fun b ⟨g, hg, hfetch⟩ => ?_
      exact ih (hrest.mem_of_fetch (hclosed g hg) hfetch)
    · exact ih ha

theorem acc_self (h : s.Lineage c line) (hc : ∀ g ∈ c.ancestors, g.lower ∈ line.map (·.1)) :
    Acc (fun x y => s.Ascends y x) c :=
  Acc.intro c fun _ ⟨g, hg, hfetch⟩ => h.acc (h.mem_of_fetch (hc g hg) hfetch)

/-- All names of ancestors are known. -/
theorem fetch_of_reached (h : s.Lineage c line) (hc : ∀ g ∈ c.ancestors, g.lower ∈ line.map (·.1))
    (hx : ReflTransGen s.Ascends c x) {g : Text} (hg : g ∈ x.ancestors) :
    ∃ b, s.fetchComposite g = .ok b := by
  have hmem : g.lower ∈ line.map (·.1) := by
    obtain rfl | ⟨key, hx⟩ := h.mem_of_reached hc hx
    · exact hc g hg
    · exact h.closed hx g hg
  obtain ⟨⟨key, b⟩, hb, hkey⟩ := List.mem_map.1 hmem
  obtain ⟨_, g', -, -, hg', hfetch⟩ := h.origin hb
  exact ⟨b, fetchComposite_congr (hg'.trans hkey) hfetch⟩

end Lineage

end Scopes
end ObjectPascal
